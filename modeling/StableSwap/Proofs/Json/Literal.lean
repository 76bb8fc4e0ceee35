import StableSwap.Json.Literal
import Mathlib.Data.List.TakeWhile
import Mathlib.Data.Option.Basic

/-!
# Literals that read back

A string literal is plain if its characters all stand for themselves, without
escapes; it is then read as it is written. A number ends where no numeric
character follows, so what follows a number must not begin with one.

Main statements:

* `takeString_of_plain`, `decodeString?_of_plain`: strings without escapes.
* `takeNumber_of_ends`: a number in front of more text.
* `isNumber_toDigits`, `decodeNatural?_toDigits`: the digits of a natural number are the literal
  of a number, and read back.
-/

namespace StableSwap.Json

/-! ## Strings -/

/-- A character that stands for itself in a string literal. -/
def isPlain (c : Char) : Bool := c ≠ '"' && c ≠ '\\' && 0x20 ≤ c.toNat

/-- A literal whose characters all stand for themselves. -/
def PlainText (literal : List Char) : Prop := ∀ c ∈ literal, isPlain c = true

theorem isPlain_iff {c : Char} : isPlain c = true ↔ c ≠ '"' ∧ c ≠ '\\' ∧ 0x20 ≤ c.toNat := by
  simp [isPlain, and_assoc]

theorem plainText_of_all {literal : List Char} (h : literal.all isPlain = true) :
    PlainText literal :=
  List.all_eq_true.1 h

theorem takeString_of_plain {literal : List Char} (h : PlainText literal) (rest : List Char) :
    takeString (literal ++ '"' :: rest) = some (literal, rest) := by
  induction literal with
  | nil => rfl
  | cons c literal ih =>
    obtain ⟨hc, hliteral⟩ := List.forall_mem_cons.1 h
    obtain ⟨hquote, hescape, hcontrol⟩ := isPlain_iff.1 hc
    simp [takeString, hescape, (Option.guard_eq_some' ()).2 hcontrol, ih hliteral]

theorem decodeString?_of_plain {literal : List Char} (h : PlainText literal) :
    decodeString? literal = some literal := by
  induction literal with
  | nil => rfl
  | cons c literal ih =>
    obtain ⟨hc, hliteral⟩ := List.forall_mem_cons.1 h
    obtain ⟨-, hescape, -⟩ := isPlain_iff.1 hc
    simp [decodeString?, hescape, ih hliteral]

/-! ## Numbers -/

/-- The text does not go on with a character that could belong to a number. -/
def Ends (rest : List Char) : Prop := ∀ c ∈ rest.head?, isNumeric c = false

theorem ends_nil : Ends [] := by
  intro c hc
  cases hc

theorem ends_cons {c : Char} (h : isNumeric c = false) (rest : List Char) : Ends (c :: rest) := by
  intro d hd
  cases hd
  exact h

theorem takeNumber_of_ends {literal rest : List Char} (hnumber : isNumber literal = true)
    (hnumeric : ∀ c ∈ literal, isNumeric c = true) (hrest : Ends rest) :
    takeNumber (literal ++ rest) = some (literal, rest) := by
  have htake : rest.takeWhile isNumeric = [] := by
    cases rest with
    | nil => rfl
    | cons c rest => simp [hrest c rfl]
  have hdrop : rest.dropWhile isNumeric = rest := by
    cases rest with
    | nil => rfl
    | cons c rest => simp [hrest c rfl]
  rw [takeNumber, List.takeWhile_append_of_pos hnumeric, List.dropWhile_append_of_pos hnumeric,
    htake, hdrop, List.append_nil, (Option.guard_eq_some' ()).2 hnumber]
  rfl

theorem ne_of_numeric {c d : Char} (hc : isNumeric c = true) (hd : isNumeric d = false) :
    c ≠ d := by
  intro h
  rw [h, hd] at hc
  cases hc

theorem not_blank_of_numeric {c : Char} (h : isNumeric c = true) : isBlank c = false := by
  rw [Bool.eq_false_iff]
  intro hblank
  simp only [isBlank, Bool.or_eq_true, decide_eq_true_eq] at hblank
  obtain ((rfl | rfl) | rfl) | rfl := hblank <;> exact ne_of_numeric h (by decide) rfl

theorem ne_nil_of_isNumber {literal : List Char} (h : isNumber literal = true) : literal ≠ [] := by
  intro hnil
  rw [hnil] at h
  cases h

/-! ## Natural numbers -/

/-- A written number begins with a zero only if it is zero. -/
theorem head?_toDigits_ne {n : ℕ} (h : 0 < n) : (Nat.toDigits 10 n).head? ≠ some '0' := by
  induction n using Nat.strongRecOn with
  | _ n ih =>
    by_cases hn : n < 10
    · rw [Nat.toDigits_of_lt_base hn, List.head?_cons, ne_eq, Option.some.injEq,
        Nat.digitChar_eq_zero]
      omega
    · rw [Nat.toDigits_of_base_le (by decide) (by omega), List.head?_append]
      have hrest := ih (n / 10) (by omega) (by omega)
      cases hhead : (Nat.toDigits 10 (n / 10)).head? with
      | none => exact absurd (List.head?_eq_none_iff.1 hhead) Nat.toDigits_ne_nil
      | some c =>
        rw [hhead] at hrest
        exact hrest

theorem isDigit_of_mem {n : ℕ} {c : Char} (h : c ∈ Nat.toDigits 10 n) : c.isDigit = true :=
  Nat.isDigit_of_mem_toDigits (by decide) (by decide) h

theorem isDigits_toDigits (n : ℕ) : isDigits (Nat.toDigits 10 n) = true := by
  have hall : (Nat.toDigits 10 n).all Char.isDigit = true :=
    List.all_eq_true.2 fun c hc => isDigit_of_mem hc
  simp [isDigits, hall, Nat.toDigits_ne_nil]

theorem isWhole_toDigits (n : ℕ) : isWhole (Nat.toDigits 10 n) = true := by
  rcases Nat.eq_zero_or_pos n with rfl | hpos
  · rfl
  · have hhead := head?_toDigits_ne hpos
    have hdigits := isDigits_toDigits n
    generalize Nat.toDigits 10 n = s at hhead hdigits ⊢
    unfold isWhole
    split
    · rfl
    · exact absurd rfl hhead
    · exact hdigits

theorem isNumber_toDigits (n : ℕ) : isNumber (Nat.toDigits 10 n) = true := by
  have htake : (Nat.toDigits 10 n).takeWhile Char.isDigit = Nat.toDigits 10 n :=
    List.takeWhile_eq_self_iff.2 fun c hc => isDigit_of_mem hc
  have hdrop : (Nat.toDigits 10 n).dropWhile Char.isDigit = [] :=
    List.dropWhile_eq_nil_iff.2 fun c hc => isDigit_of_mem hc
  have hunsigned : isUnsigned (Nat.toDigits 10 n) = true := by
    rw [isUnsigned, htake, hdrop, isWhole_toDigits]
    rfl
  have hminus : '-' ∉ Nat.toDigits 10 n := fun h => absurd (isDigit_of_mem h) (by decide)
  unfold isNumber
  split
  · next heq =>
    rw [heq] at hminus
    exact absurd List.mem_cons_self hminus
  · exact hunsigned

theorem isNumeric_of_mem {n : ℕ} {c : Char} (h : c ∈ Nat.toDigits 10 n) :
    isNumeric c = true := by
  simp [isNumeric, isDigit_of_mem h]

theorem decodeNatural?_toDigits (n : ℕ) : decodeNatural? (Nat.toDigits 10 n) = some n := by
  rw [decodeNatural?, if_pos (isDigits_toDigits n)]
  exact Numeral.value?_toDigits (by decide) (by decide) n

end StableSwap.Json
