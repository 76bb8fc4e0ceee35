import StableSwap.Json
import StableSwap.Numeral

/-!
# Literals of numbers and strings

`takeString` and `takeNumber` split a literal off the front of a text.
`decodeString?` gives the characters that a string literal stands for: an
escaped character beyond the first plane is written as two surrogates, and a
surrogate without its partner stands for no character. Such a literal is
well-formed all the same, so it is refused only where its characters are asked
for.
-/

namespace StableSwap.Json

/-! ## Strings -/

/-- The character that a letter stands for after a backslash. -/
def escape? : Char → Option Char
  | '"' => some '"'
  | '\\' => some '\\'
  | '/' => some '/'
  | 'b' => some '\x08'
  | 'f' => some '\x0c'
  | 'n' => some '\n'
  | 'r' => some '\r'
  | 't' => some '\t'
  | _ => none

/-- The code unit written by four hexadecimal digits. -/
def codeUnit? (a b c d : Char) : Option Nat := Numeral.value? 16 [a, b, c, d]

/-- The literal up to the closing quote, and the text after the quote. -/
def takeString : List Char → Option (List Char × List Char)
  | [] => none
  | '"' :: rest => some ([], rest)
  | '\\' :: 'u' :: a :: b :: c :: d :: rest => do
    let _ ← codeUnit? a b c d
    let (literal, rest) ← takeString rest
    return ('\\' :: 'u' :: a :: b :: c :: d :: literal, rest)
  | '\\' :: e :: rest => do
    let _ ← escape? e
    let (literal, rest) ← takeString rest
    return ('\\' :: e :: literal, rest)
  | c :: rest => do
    guard (0x20 ≤ c.toNat)
    let (literal, rest) ← takeString rest
    return (c :: literal, rest)

/-- A code unit that opens a pair of surrogates. -/
def isLeading (u : Nat) : Bool := 0xD800 ≤ u && u < 0xDC00

/-- A code unit that closes a pair of surrogates. -/
def isTrailing (u : Nat) : Bool := 0xDC00 ≤ u && u < 0xE000

/-- The character that a pair of surrogates stands for. -/
def joined (leading trailing : Nat) : Char :=
  Char.ofNat (0x10000 + (leading - 0xD800) * 0x400 + (trailing - 0xDC00))

/-- The characters that a string literal stands for. -/
def decodeString? : List Char → Option (List Char)
  | [] => some []
  | '\\' :: 'u' :: a :: b :: c :: d :: rest => do
    let u ← codeUnit? a b c d
    if isLeading u then
      match rest with
      | '\\' :: 'u' :: a :: b :: c :: d :: rest => do
        let v ← codeUnit? a b c d
        guard (isTrailing v)
        return joined u v :: (← decodeString? rest)
      | _ => none
    else
      guard (!isTrailing u)
      return Char.ofNat u :: (← decodeString? rest)
  | '\\' :: e :: rest => do return (← escape? e) :: (← decodeString? rest)
  | c :: rest => do return c :: (← decodeString? rest)

/-! ## Numbers -/

/-- A character that can stand in a number. -/
def isNumeric (c : Char) : Bool :=
  c.isDigit || c = '-' || c = '+' || c = '.' || c = 'e' || c = 'E'

/-- One or more digits. -/
def isDigits (s : List Char) : Bool := !s.isEmpty && s.all Char.isDigit

/-- An exponent, or nothing. -/
def isExponent : List Char → Bool
  | [] => true
  | e :: '+' :: digits => (e = 'e' || e = 'E') && isDigits digits
  | e :: '-' :: digits => (e = 'e' || e = 'E') && isDigits digits
  | e :: digits => (e = 'e' || e = 'E') && isDigits digits

/-- A fraction, an exponent, both in this order, or nothing. -/
def isFraction : List Char → Bool
  | '.' :: s => isDigits (s.takeWhile Char.isDigit) && isExponent (s.dropWhile Char.isDigit)
  | s => isExponent s

/-- Digits of which the first is zero only if it stands alone. -/
def isWhole : List Char → Bool
  | ['0'] => true
  | '0' :: _ => false
  | s => isDigits s

/-- A number without its sign. -/
def isUnsigned (s : List Char) : Bool :=
  isWhole (s.takeWhile Char.isDigit) && isFraction (s.dropWhile Char.isDigit)

/-- The literal of a number. -/
def isNumber : List Char → Bool
  | '-' :: s => isUnsigned s
  | s => isUnsigned s

/-- The number at the start of the text, and the text after it. -/
def takeNumber (s : List Char) : Option (List Char × List Char) := do
  let literal := s.takeWhile isNumeric
  guard (isNumber literal)
  return (literal, s.dropWhile isNumeric)

/-- The natural number that a literal writes. A sign, a fraction or an exponent writes none,
    whatever its value. -/
def decodeNatural? (literal : List Char) : Option Nat :=
  if isDigits literal then Numeral.value? 10 literal else none

end StableSwap.Json
