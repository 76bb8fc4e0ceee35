import StableSwap.Json.Literal

/-!
# Records in JSON documents

A record is written as an object that has each field of the record once, in
any order and among any others, or as the array of the fields in their order.
A choice is written as an object with one member, whose key names the case.
-/

namespace StableSwap.Json

/-- The items of an array. -/
def items? : Json → Option (List Json)
  | array items => some items
  | _ => none

/-- The characters of a string. -/
def text? : Json → Option (List Char)
  | string literal => decodeString? literal
  | _ => none

/-- A number that is written with digits alone. -/
def natural? : Json → Option Nat
  | number literal => decodeNatural? literal
  | _ => none

/-- The members of an object, their keys as the characters they stand for. -/
def members? : Json → Option (List (List Char × Json))
  | object members => members.mapM fun (key, value) => do return (← decodeString? key, value)
  | _ => none

/-- The value of the one member that has the key. -/
def field? (members : List (List Char × Json)) (name : String) : Option Json :=
  match members.filter (·.1 = name.toList) with
  | [(_, value)] => some value
  | _ => none

/-- The fields of a record, in the order of their names. -/
def fields? (names : List String) : Json → Option (List Json)
  | array items => if items.length = names.length then some items else none
  | value => do
    let members ← value.members?
    names.mapM (field? members)

/-- The name of a choice and its value. -/
def choice? (value : Json) : Option (List Char × Json) := do
  match ← value.members? with
  | [member] => some member
  | _ => none

end StableSwap.Json
