import StableSwap.Config.Text
import StableSwap.Pool
import StableSwap.Proofs.Json.RoundTrip

/-!
# Configurations that read back

The document that is written for a configuration is plain, whatever the values
in it: settings are digits, amounts are hexadecimal digits after a mark, and the
keys are letters. So its text reads back as the document, and the document as
the configuration, valid or not.

Main statements:

* `Amount.ofJson?_toJson`, `Funding.ofJson?_toJson`, `FeeSchedule.ofJson?_toJson`,
  `Config.ofJson?_toJson`: the parts of a document and the whole.
* `Config.plain_toJson`: the document is plain.
* `Config.ofText?_text`: the text.
-/

namespace StableSwap

open Json

/-! ## Settings and amounts -/

namespace Word

variable {bits : ℕ}

theorem ofJson?_toJson (a : Word bits) : (ofJson? a.toJson : Option (Word bits)) = some a := by
  rw [ofJson?, toJson, natural?, decodeNatural?_toDigits]
  exact ofNat?_val a

theorem plain_toJson (a : Word bits) (depth : ℕ) : Plain (depth + 1) a.toJson :=
  .number (isNumber_toDigits a.val) fun _ => isNumeric_of_mem

end Word

namespace Amount

theorem plainText_hex (a : Amount) : PlainText a.hex := by
  have hdigit : ∀ v, v < 16 → isPlain v.digitChar = true := by decide
  intro c hc
  rw [hex, List.mem_cons, List.mem_cons] at hc
  obtain rfl | rfl | hc := hc
  · decide
  · decide
  · obtain ⟨v, hv, rfl⟩ := Numeral.exists_digitChar_of_mem_toDigits (by decide) hc
    exact hdigit v hv

theorem ofJson?_toJson (a : Amount) : ofJson? a.toJson = some a := by
  rw [ofJson?, toJson, text?, decodeString?_of_plain a.plainText_hex]
  exact ofHex?_hex a

theorem plain_toJson (a : Amount) (depth : ℕ) : Plain (depth + 1) a.toJson :=
  .string a.plainText_hex

theorem listOfJson?_listToJson (amounts : List Amount) :
    listOfJson? (listToJson amounts) = some amounts :=
  mapM_map_eq_some ofJson?_toJson amounts

theorem plain_listToJson (amounts : List Amount) (depth : ℕ) :
    Plain (depth + 2) (listToJson amounts) := by
  apply Plain.array
  intro item hitem
  obtain ⟨a, _, rfl⟩ := List.mem_map.1 hitem
  exact a.plain_toJson depth

end Amount

/-! ## Records -/

namespace Funding

theorem plainText_names :
    PlainText "balances".toList ∧ PlainText "target_invariant".toList :=
  ⟨plainText_of_all (by decide), plainText_of_all (by decide)⟩

theorem ofJson?_toJson (f : Funding) : ofJson? f.toJson = some f := by
  obtain ⟨hbalances, htarget⟩ := plainText_names
  cases f with
  | balances amounts =>
    rw [toJson, ofJson?, choice?_of_plain hbalances, Option.bind_eq_bind, Option.bind_some]
    dsimp only
    rw [if_pos rfl, Amount.listOfJson?_listToJson]
    rfl
  | target invariant =>
    have hne : "target_invariant".toList ≠ "balances".toList := by decide
    rw [toJson, ofJson?, choice?_of_plain htarget, Option.bind_eq_bind, Option.bind_some]
    dsimp only
    rw [if_neg hne, if_pos rfl, Amount.ofJson?_toJson]
    rfl

theorem plain_toJson (f : Funding) (depth : ℕ) : Plain (depth + 3) f.toJson := by
  obtain ⟨hbalances, htarget⟩ := plainText_names
  cases f with
  | balances amounts => exact plain_choice hbalances (Amount.plain_listToJson amounts depth)
  | target invariant => exact plain_choice htarget (invariant.plain_toJson (depth + 1))

end Funding

namespace FeeSchedule

theorem plainText_fieldNames : ∀ name ∈ fieldNames, PlainText name.toList :=
  plainText_of_all_names (by decide)

theorem ofJson?_toJson (f : FeeSchedule) : ofJson? f.toJson = some f := by
  have hfields := fields?_zip fieldNames [f.trade.numerator.toJson, f.withdraw.numerator.toJson]
    rfl (by decide) plainText_fieldNames
  rw [ofJson?, toJson, hfields]
  simp [Word.ofJson?_toJson]

theorem plain_toJson (f : FeeSchedule) (depth : ℕ) : Plain (depth + 2) f.toJson := by
  apply plain_record plainText_fieldNames
  simp [Word.plain_toJson]

end FeeSchedule

namespace Config

theorem plainText_fieldNames : ∀ name ∈ fieldNames, PlainText name.toList :=
  plainText_of_all_names (by decide)

theorem ofJson?_toJson (c : Config) : ofJson? c.toJson = some c := by
  have hfields := fields?_zip fieldNames [c.amplification.toJson, c.assetCount.toJson,
    c.funding.toJson, Amount.listToJson c.rates, c.fees.toJson, c.supply.toJson]
    rfl (by decide) plainText_fieldNames
  rw [ofJson?, toJson, hfields]
  simp [Word.ofJson?_toJson, Amount.ofJson?_toJson, Amount.listOfJson?_listToJson,
    Funding.ofJson?_toJson, FeeSchedule.ofJson?_toJson]

theorem plain_toJson (c : Config) : Plain 4 c.toJson := by
  apply plain_record plainText_fieldNames
  simp [Word.plain_toJson, Amount.plain_toJson, Amount.plain_listToJson, Funding.plain_toJson,
    FeeSchedule.plain_toJson]

/-- The text of a configuration reads back as the configuration, whatever its values are, valid or
    not; so the pool that is built from what was read is the pool of the configuration, or is
    refused for the same reason. -/
theorem ofText?_text (c : Config) :
    ofText? c.text = some c ∧ (ofText? c.text).map Pool.ofConfig = some (Pool.ofConfig c) := by
  have hread : ofText? c.text = some c := by
    rw [ofText?, text, read?_render c.plain_toJson]
    exact c.ofJson?_toJson
  refine ⟨hread, ?_⟩
  rw [hread]
  rfl

end Config

end StableSwap
