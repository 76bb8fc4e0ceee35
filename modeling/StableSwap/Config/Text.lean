import StableSwap.Amount.Hex
import StableSwap.Config
import StableSwap.Json.Reader
import StableSwap.Json.Record

/-!
# The text of a configuration

A configuration is written as a JSON object without blanks. Settings are
numbers, amounts are strings in hexadecimal, and the funding is a choice
between the two ways to state it. `Config.ofText?` reads such a text and any
other JSON text that holds the same record.

Specification: §14, which has a `PoolConfig` loaded from JSON.
-/

namespace StableSwap

namespace Word

/-- A setting is written as a number. -/
def toJson {bits : Nat} (a : Word bits) : Json := .number (Nat.toDigits 10 a)

/-- The setting that a number states, if it is in range. -/
def ofJson? {bits : Nat} (value : Json) : Option (Word bits) := do
  ofNat? (← value.natural?)

end Word

namespace Amount

/-- An amount is written as a string in hexadecimal. -/
def toJson (a : Amount) : Json := .string a.hex

/-- The amount that a string writes. -/
def ofJson? (value : Json) : Option Amount := do ofHex? (← value.text?)

/-- Amounts of several assets are written as an array, in the order of the assets. -/
def listToJson (amounts : List Amount) : Json := .array (amounts.map toJson)

/-- The amounts that an array writes. -/
def listOfJson? (value : Json) : Option (List Amount) := do (← value.items?).mapM ofJson?

end Amount

namespace Funding

/-- The way in which a pool is funded is written as a choice between its two names. -/
def toJson : Funding → Json
  | balances amounts => .object [("balances".toList, Amount.listToJson amounts)]
  | target invariant => .object [("target_invariant".toList, invariant.toJson)]

/-- The funding that a choice states. -/
def ofJson? (value : Json) : Option Funding := do
  let (name, value) ← value.choice?
  if name = "balances".toList then return balances (← Amount.listOfJson? value)
  else if name = "target_invariant".toList then return target (← Amount.ofJson? value)
  else none

end Funding

namespace FeeSchedule

/-- The fields of a fee schedule. -/
def fieldNames : List String := ["trade", "withdraw"]

/-- A fee schedule is written as the record of its two numerators. -/
def toJson (f : FeeSchedule) : Json :=
  .object (fieldNames.map String.toList |>.zip
    [f.trade.numerator.toJson, f.withdraw.numerator.toJson])

/-- The fee schedule that a record states. Its rates need not be valid. -/
def ofJson? (value : Json) : Option FeeSchedule := do
  match ← value.fields? fieldNames with
  | [trade, withdraw] => return ⟨⟨← Word.ofJson? trade⟩, ⟨← Word.ofJson? withdraw⟩⟩
  | _ => none

end FeeSchedule

namespace Config

/-- The fields of a configuration, in the order in which they are written. -/
def fieldNames : List String :=
  ["amplification", "n_assets", "initial", "rates", "fees", "initial_supply"]

/-- A configuration is written as the record of its settings. -/
def toJson (c : Config) : Json :=
  .object (fieldNames.map String.toList |>.zip
    [c.amplification.toJson, c.assetCount.toJson, c.funding.toJson,
     Amount.listToJson c.rates, c.fees.toJson, c.supply.toJson])

/-- The configuration that a record states. It need not be valid. -/
def ofJson? (value : Json) : Option Config := do
  match ← value.fields? fieldNames with
  | [amplification, assetCount, funding, rates, fees, supply] =>
    return { amplification := ← Word.ofJson? amplification
             assetCount := ← Word.ofJson? assetCount
             funding := ← Funding.ofJson? funding
             rates := ← Amount.listOfJson? rates
             fees := ← FeeSchedule.ofJson? fees
             supply := ← Amount.ofJson? supply }
  | _ => none

/-- The text of a configuration. -/
def text (c : Config) : List Char := c.toJson.render

/-- The configuration that a text writes. -/
def ofText? (s : List Char) : Option Config := do ofJson? (← Json.read? s)

end Config

end StableSwap
