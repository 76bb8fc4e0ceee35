import StableSwap.Amount
import StableSwap.Json
import StableSwap.Numeral

/-!
# Amounts in hexadecimal

In a text an amount is `0x` and its hexadecimal digits in lower case, without
zeros in front. A reader takes either case, does without the mark, and takes
zeros in front, as long as there are no more than 64 digits.

Digits are read in pairs, one byte after the other. Blanks between them are
passed over but count towards the length of the text; a text of odd length
opens with a digit that makes a byte by itself, and a digit at the end that
finds no partner is not read.

Main statement:

* `ofHex?_hex`: the text of an amount reads back.
-/

namespace StableSwap.Amount

/-- The text of an amount. -/
def hex (a : Amount) : List Char := '0' :: 'x' :: Nat.toDigits 16 a

/-- The text without the mark `0x` at its start. -/
def withoutMark : List Char → List Char
  | '0' :: 'x' :: s => s
  | s => s

/-- How many of the digits make whole bytes in a text of the length. -/
def pairedDigits (length digits : Nat) : Nat :=
  2 * ((digits + length % 2) / 2) - length % 2

/-- The amount that a text writes. -/
def ofHex? (s : List Char) : Option Amount := do
  let s := withoutMark s
  guard (0 < s.length ∧ s.length ≤ 64)
  let digits := s.filter (!Json.isBlank ·)
  guard (digits.all fun c => (Numeral.digit? 16 c).isSome)
  let value ← Numeral.value? 16 (digits.take (pairedDigits s.length digits.length))
  Word.ofNat? value

/-- Without blanks every digit is read. -/
theorem pairedDigits_self (n : Nat) : pairedDigits n n = n := by
  unfold pairedDigits
  omega

/-- The digits of an amount, and no blanks among them. -/
theorem digits_of_mem_toDigits {n : Nat} {c : Char} (hc : c ∈ Nat.toDigits 16 n) :
    Json.isBlank c = false ∧ (Numeral.digit? 16 c).isSome = true := by
  obtain ⟨v, hv, rfl⟩ := Numeral.exists_digitChar_of_mem_toDigits (by decide) hc
  have hblank : ∀ v, v < 16 → Json.isBlank v.digitChar = false := by decide
  refine ⟨hblank v hv, ?_⟩
  rw [Numeral.digit?_digitChar (Nat.le_refl 16) hv]
  rfl

/-- The text of an amount reads back. -/
theorem ofHex?_hex (a : Amount) : ofHex? a.hex = some a := by
  have hpos : 0 < (Nat.toDigits 16 a.val).length := Nat.length_toDigits_pos
  have hle : (Nat.toDigits 16 a.val).length ≤ 64 :=
    (Nat.length_toDigits_le_iff (by decide) (by decide)).2 (Nat.lt_of_lt_of_le a.isLt (by decide))
  have hfilter : (Nat.toDigits 16 a.val).filter (!Json.isBlank ·) = Nat.toDigits 16 a.val :=
    List.filter_eq_self.2 fun c hc => by simp [(digits_of_mem_toDigits hc).1]
  have hall : ((Nat.toDigits 16 a.val).all fun c => (Numeral.digit? 16 c).isSome) = true :=
    List.all_eq_true.2 fun c hc => (digits_of_mem_toDigits hc).2
  have hvalue := Numeral.value?_toDigits (by decide) (Nat.le_refl 16) a.val
  have hguard : ∀ (c : Prop) [Decidable c], c → (guard c : Option Unit) = some () := by
    intro c _ hc
    exact if_pos hc
  simp [ofHex?, hex, withoutMark, ↓hguard, hpos, hle, hfilter, hall, pairedDigits_self, hvalue]

end StableSwap.Amount
