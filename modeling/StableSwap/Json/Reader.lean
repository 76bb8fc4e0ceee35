import StableSwap.Json.Literal

/-!
# Reading JSON documents

A reader takes what it reads off the front of a text and returns it with the
rest. Documents nest, so the reader of a document is given the depth to which
it may nest; the length of the text bounds both that depth and the number of
items of any array or object, so `Json.read?` needs no bound from outside.
-/

namespace StableSwap.Json

/-- Takes one thing off the front of a text. -/
abbrev Reader (α : Type) := List Char → Option (α × List Char)

/-- One or more items with commas between them, and the closing mark. -/
def readItems {α : Type} (item : Reader α) (close : Char) : (limit : Nat) → Reader (List α)
  | 0, _ => none
  | limit + 1, s => do
    let (first, s) ← item s
    match skipBlanks s with
    | [] => none
    | c :: s =>
      if c = close then some ([first], s)
      else if c = ',' then do
        let (rest, s) ← readItems item close limit s
        return (first :: rest, s)
      else none

/-- Items with commas between them, if any, and the closing mark. -/
def readSequence {α : Type} (item : Reader α) (close : Char) : Reader (List α) := fun s =>
  match skipBlanks s with
  | [] => none
  | c :: rest => if c = close then some ([], rest) else readItems item close s.length s

/-- A key, a colon and a value. -/
def readMember {α : Type} (value : Reader α) : Reader (List Char × α) := fun s =>
  match skipBlanks s with
  | '"' :: s => do
    let (key, s) ← takeString s
    match skipBlanks s with
    | ':' :: s => do
      let (value, s) ← value s
      return ((key, value), s)
    | _ => none
  | _ => none

/-- A document that nests less deep than the bound. -/
def readValue : (depth : Nat) → Reader Json
  | 0, _ => none
  | depth + 1, s =>
    match skipBlanks s with
    | 'n' :: 'u' :: 'l' :: 'l' :: s => some (null, s)
    | 't' :: 'r' :: 'u' :: 'e' :: s => some (bool true, s)
    | 'f' :: 'a' :: 'l' :: 's' :: 'e' :: s => some (bool false, s)
    | '"' :: s => do
      let (literal, s) ← takeString s
      return (string literal, s)
    | '[' :: s => do
      let (items, s) ← readSequence (readValue depth) ']' s
      return (array items, s)
    | '{' :: s => do
      let (members, s) ← readSequence (readMember (readValue depth)) '}' s
      return (object members, s)
    | s => do
      let (literal, s) ← takeNumber s
      return (number literal, s)

/-- The document that the whole text writes. -/
def read? (s : List Char) : Option Json := do
  let (value, rest) ← readValue (s.length + 1) s
  guard (skipBlanks rest).isEmpty
  return value

end StableSwap.Json
