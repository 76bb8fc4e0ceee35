import StableSwap.Refusal

/-!
# Numbers of a fixed width

A `Word bits` is a natural number below `2 ^ bits`. Its arithmetic never wraps
and never clips unasked: each operation forms the exact natural number and
hands it on if it is in range, and otherwise refuses with the name of the term
that was being formed. The right operand may be any natural number, so words of
different widths meet without conversion.

Specification: §11 (`CheckedArithmetic`).

Main statements:

* `fit_eq_ok_iff`, `add_eq_ok_iff`, `mul_eq_ok_iff`, `sub_eq_ok_iff`,
  `div_eq_ok_iff`, `mulDiv_eq_ok_iff`: an operation answers exactly when the
  exact result is in range, and then with that result.
* `fit_eq_error_iff` and its companions: otherwise there is one possible error.
-/

namespace StableSwap

/-- How many words there are of a width. -/
def Word.size (bits : Nat) : Nat := Nat.pow 2 bits

/-- A natural number below `2 ^ bits`. -/
structure Word (bits : Nat) where
  val : Nat
  isLt : val < Word.size bits
  deriving DecidableEq, Repr

namespace Word

variable {bits : Nat}

instance : CoeOut (Word bits) Nat := ⟨Word.val⟩

theorem size_pos (bits : Nat) : 0 < size bits := Nat.two_pow_pos bits

theorem one_lt_size {bits : Nat} (h : 0 < bits) : 1 < size bits :=
  Nat.one_lt_two_pow (Nat.ne_of_gt h)

theorem size_le_size {bits wider : Nat} (h : bits ≤ wider) : size bits ≤ size wider :=
  Nat.pow_le_pow_right (by decide) h

theorem size_lt_size {bits wider : Nat} (h : bits < wider) : size bits < size wider :=
  Nat.pow_lt_pow_right (by decide) h

theorem size_add (bits more : Nat) : size (bits + more) = size bits * size more :=
  Nat.pow_add 2 bits more

instance : OfNat (Word bits) 0 := ⟨⟨0, size_pos bits⟩⟩

/-- A numeral, of which only what is in range counts. -/
instance (priority := low) {n : Nat} : OfNat (Word bits) n :=
  ⟨⟨n % size bits, Nat.mod_lt n (size_pos bits)⟩⟩

instance : Inhabited (Word bits) := ⟨0⟩

/-- One, in any width that has it. -/
def one (h : 0 < bits := by decide) : Word bits := ⟨1, one_lt_size h⟩

instance : ToString (Word bits) := ⟨fun a => toString a.val⟩

@[ext] theorem ext {a b : Word bits} (h : a.val = b.val) : a = b := by
  cases a; cases b; cases h; rfl

@[simp] theorem val_zero : (0 : Word bits).val = 0 := rfl

@[simp] theorem val_one (h : 0 < bits) : (one h).val = 1 := rfl

/-! ## Range -/

/-- The number as a word, if it is in range. -/
def ofNat? (v : Nat) : Option (Word bits) :=
  if h : v < size bits then some ⟨v, h⟩ else none

/-- The number as a word, or the refusal that names the term it belongs to: `narrow` of §11. -/
def fit (term : String) (v : Nat) : Except PoolError (Word bits) :=
  demand (ofNat? v) (.overflow term)

/-- The same number among the words of a larger width: `widen` of §11. -/
def widen {wider : Nat} (a : Word bits) (h : bits ≤ wider := by decide) : Word wider :=
  ⟨a.val, Nat.lt_of_lt_of_le a.isLt (size_le_size h)⟩

@[simp] theorem val_widen {wider : Nat} (a : Word bits) (h : bits ≤ wider) :
    (a.widen h : Word wider).val = a.val := rfl

@[simp] theorem ofNat?_val (a : Word bits) : ofNat? a.val = some a := by
  simp [ofNat?, a.isLt]

theorem ofNat?_eq_some_iff {v : Nat} {a : Word bits} : ofNat? v = some a ↔ a.val = v := by
  unfold ofNat?
  split
  · simp only [Option.some.injEq]
    exact ⟨fun h => h ▸ rfl, fun h => ext h.symm⟩
  · next hv => exact ⟨nofun, fun h => absurd (h ▸ a.isLt) hv⟩

theorem ofNat?_eq_none_iff {v : Nat} : (ofNat? v : Option (Word bits)) = none ↔ size bits ≤ v := by
  unfold ofNat?
  split <;> simp <;> omega

theorem fit_eq_ok_iff {term : String} {v : Nat} {a : Word bits} :
    fit term v = .ok a ↔ a.val = v := by
  rw [fit, demand_eq_ok_iff, ofNat?_eq_some_iff]

theorem fit_eq_error_iff {term : String} {v : Nat} {e : PoolError} :
    (fit term v : Except PoolError (Word bits)) = .error e ↔
      size bits ≤ v ∧ e = .overflow term := by
  rw [fit, demand_eq_error_iff, ofNat?_eq_none_iff]

/-! ## Operations that can be refused -/

/-- The sum: `safe_add` of §11. -/
def add (a : Word bits) (b : Nat) (term : String) : Except PoolError (Word bits) :=
  fit term (a + b)

/-- The product: `safe_mul` of §11. -/
def mul (a : Word bits) (b : Nat) (term : String) : Except PoolError (Word bits) :=
  fit term (a * b)

/-- The difference, if it is not negative: `checked_sub`. -/
def sub? (a : Word bits) (b : Nat) : Option (Word bits) :=
  if b ≤ a.val then some ⟨a - b, Nat.lt_of_le_of_lt (Nat.sub_le _ _) a.isLt⟩ else none

/-- The difference; a negative one lies outside the range of words: `safe_sub` of §11. -/
def sub (a : Word bits) (b : Nat) (term : String) : Except PoolError (Word bits) :=
  demand (a.sub? b) (.overflow term)

/-- The quotient, rounded down. -/
def div (a : Word bits) (b : Nat) : Except PoolError (Word bits) := do
  require (b ≠ 0) .divisionByZero
  return ⟨a / b, Nat.lt_of_le_of_lt (Nat.div_le_self _ _) a.isLt⟩

/-- The proportion `a · b / c`, rounded down. The product is formed exactly, so only the
    quotient has to be in range: `mul_div` of §11. -/
def mulDiv (a : Word bits) (b c : Nat) (term : String) : Except PoolError (Word bits) := do
  require (c ≠ 0) .divisionByZero
  fit term (a * b / c)

theorem add_eq_ok_iff {a c : Word bits} {b : Nat} {term : String} :
    a.add b term = .ok c ↔ c.val = a.val + b := fit_eq_ok_iff

theorem add_eq_error_iff {a : Word bits} {b : Nat} {term : String} {e : PoolError} :
    a.add b term = .error e ↔ size bits ≤ a.val + b ∧ e = .overflow term := fit_eq_error_iff

theorem mul_eq_ok_iff {a c : Word bits} {b : Nat} {term : String} :
    a.mul b term = .ok c ↔ c.val = a.val * b := fit_eq_ok_iff

theorem mul_eq_error_iff {a : Word bits} {b : Nat} {term : String} {e : PoolError} :
    a.mul b term = .error e ↔ size bits ≤ a.val * b ∧ e = .overflow term := fit_eq_error_iff

theorem sub?_eq_some_iff {a c : Word bits} {b : Nat} :
    a.sub? b = some c ↔ c.val + b = a.val := by
  unfold sub?
  split
  · next h =>
    simp only [Option.some.injEq]
    exact ⟨fun hc => by rw [← hc]; exact Nat.sub_add_cancel h, fun hc => ext (by simp; omega)⟩
  · next h => exact ⟨nofun, fun hc => by omega⟩

theorem sub?_eq_none_iff {a : Word bits} {b : Nat} : a.sub? b = none ↔ a.val < b := by
  unfold sub?
  split <;> simp <;> omega

theorem sub_eq_ok_iff {a c : Word bits} {b : Nat} {term : String} :
    a.sub b term = .ok c ↔ c.val + b = a.val := by
  rw [← sub?_eq_some_iff, sub, demand_eq_ok_iff]

theorem sub_eq_error_iff {a : Word bits} {b : Nat} {term : String} {e : PoolError} :
    a.sub b term = .error e ↔ a.val < b ∧ e = .overflow term := by
  rw [← sub?_eq_none_iff, sub, demand_eq_error_iff]

theorem div_eq_ok_iff {a c : Word bits} {b : Nat} :
    a.div b = .ok c ↔ b ≠ 0 ∧ c.val = a.val / b := by
  simp only [div, bind_eq_ok_iff, require_eq_ok_iff]
  constructor
  · rintro ⟨_, hb, hc⟩
    cases hc
    exact ⟨hb, rfl⟩
  · rintro ⟨hb, hc⟩
    exact ⟨(), hb, congrArg Except.ok (ext hc.symm)⟩

theorem div_eq_error_iff {a : Word bits} {b : Nat} {e : PoolError} :
    a.div b = .error e ↔ b = 0 ∧ e = .divisionByZero := by
  simp only [div, bind_eq_error_iff, require_eq_error_iff, Decidable.not_not]
  constructor
  · rintro (h | ⟨_, _, h⟩)
    · exact h
    · cases h
  · intro h
    exact .inl h

theorem mulDiv_eq_ok_iff {a q : Word bits} {b c : Nat} {term : String} :
    a.mulDiv b c term = .ok q ↔ c ≠ 0 ∧ q.val = a.val * b / c := by
  simp only [mulDiv, bind_eq_ok_iff, require_eq_ok_iff, fit_eq_ok_iff]
  exact ⟨fun ⟨_, h⟩ => h, fun h => ⟨(), h⟩⟩

theorem mulDiv_eq_error_iff {a : Word bits} {b c : Nat} {term : String} {e : PoolError} :
    a.mulDiv b c term = .error e ↔
      (c = 0 ∧ e = .divisionByZero) ∨
        (c ≠ 0 ∧ size bits ≤ a.val * b / c ∧ e = .overflow term) := by
  simp only [mulDiv, bind_eq_error_iff, require_eq_ok_iff, require_eq_error_iff,
    fit_eq_error_iff, Decidable.not_not]
  constructor
  · rintro (h | ⟨_, h⟩)
    · exact .inl h
    · exact .inr h
  · rintro (h | h)
    · exact .inl h
    · exact .inr ⟨(), h⟩

/-! ## Operations that always answer -/

/-- The difference, or zero where it would be negative: `saturating_sub`. -/
def monus (a : Word bits) (b : Nat) : Word bits :=
  ⟨a - b, Nat.lt_of_le_of_lt (Nat.sub_le _ _) a.isLt⟩

/-- The distance between two words: `abs_diff`. -/
def distance (a b : Word bits) : Word bits :=
  ⟨max a.val b.val - min a.val b.val, by have := a.isLt; have := b.isLt; omega⟩

theorem val_monus (a : Word bits) (b : Nat) : (a.monus b).val = a.val - b := rfl

theorem val_distance (a b : Word bits) :
    (a.distance b).val = (a.val - b.val) + (b.val - a.val) := by
  simp only [distance]; omega

end Word

end StableSwap
