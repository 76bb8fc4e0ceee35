/-!
# Numerals

Natural numbers are written by `Nat.toDigits`, most significant digit first,
with lower-case letters for the digits above nine. `Numeral.value?` reads
digits of either case.

Main statement:

* `value?_toDigits`: a written number reads back, in any base up to sixteen.
-/

namespace StableSwap.Numeral

/-- The value of a digit of the base. -/
def digit? (base : Nat) (c : Char) : Option Nat :=
  let v :=
    if c.isDigit then some (c.toNat - '0'.toNat)
    else if 'a' ≤ c ∧ c ≤ 'f' then some (c.toNat - 'a'.toNat + 10)
    else if 'A' ≤ c ∧ c ≤ 'F' then some (c.toNat - 'A'.toNat + 10)
    else none
  v.filter (· < base)

/-- One digit more of a number: the digits read so far move up by one place. -/
def append? (base v : Nat) (c : Char) : Option Nat := do
  return v * base + (← digit? base c)

/-- The number that the digits write; no digits write zero. -/
def value? (base : Nat) (digits : List Char) : Option Nat := digits.foldlM (append? base) 0

/-- A written number consists of digits of its base. -/
theorem exists_digitChar_of_mem_toDigits {base : Nat} (hb : 1 < base) {n : Nat} {c : Char}
    (hc : c ∈ Nat.toDigits base n) : ∃ v, v < base ∧ c = v.digitChar := by
  induction n using Nat.strongRecOn with
  | _ n ih =>
    by_cases h : n < base
    · rw [Nat.toDigits_of_lt_base h, List.mem_singleton] at hc
      exact ⟨n, h, hc⟩
    · have hn : base ≤ n := Nat.not_lt.1 h
      rw [Nat.toDigits_of_base_le hb hn, List.mem_append, List.mem_singleton] at hc
      rcases hc with hc | hc
      · exact ih _ (Nat.div_lt_self (by omega) hb) hc
      · exact ⟨n % base, Nat.mod_lt _ (by omega), hc⟩

theorem digit?_digitChar {base v : Nat} (hb : base ≤ 16) (hv : v < base) :
    digit? base v.digitChar = some v := by
  have h : ∀ v, v < 16 → digit? 16 v.digitChar = some v := by decide
  have h := h v (by omega)
  unfold digit? at h ⊢
  simp only [Option.filter_eq_some_iff, decide_eq_true_eq] at h ⊢
  exact ⟨h.1, hv⟩

theorem value?_append (base : Nat) (digits : List Char) (c : Char) :
    value? base (digits ++ [c]) = (value? base digits).bind (append? base · c) := by
  simp only [value?, List.foldlM_append, List.foldlM_cons, List.foldlM_nil]
  cases digits.foldlM (append? base) 0 <;> simp

/-- A written number reads back. -/
theorem value?_toDigits {base : Nat} (h1 : 1 < base) (h16 : base ≤ 16) (n : Nat) :
    value? base (Nat.toDigits base n) = some n := by
  induction n using Nat.strongRecOn with
  | _ n ih =>
    by_cases h : n < base
    · rw [Nat.toDigits_of_lt_base h]
      simp [value?, append?, digit?_digitChar h16 h]
    · rw [Nat.toDigits_of_base_le h1 (Nat.not_lt.1 h), value?_append,
        ih _ (Nat.div_lt_self (by omega) h1), Option.bind_some, append?,
        digit?_digitChar h16 (Nat.mod_lt _ (by omega))]
      simp [Nat.mul_comm, Nat.div_add_mod]

end StableSwap.Numeral
