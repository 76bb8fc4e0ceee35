import StableSwap.Error

/-!
# Steps that may be refused

An operation is a chain of steps in `Except PoolError`, of which the first that
is refused decides the error. Beside the steps of the arithmetic there are two:
`require` goes on if a condition holds, `demand` if there is a value.

Main statements:

* `require_eq_ok_iff`, `demand_eq_ok_iff` and their companions for errors: when
  a step goes on and when it is refused.
* `bind_eq_ok_iff`, `bind_eq_error_iff`: a chain answers if every step does, and
  is refused by its first step that is.
* `mapM_eq_ok_iff`: a step on every entry of a list answers if it does on each.
-/

namespace StableSwap

variable {α β : Type}

/-- Goes on if the condition holds. -/
def require (condition : Prop) [Decidable condition] (e : PoolError) : Except PoolError Unit :=
  if condition then .ok () else .error e

/-- Goes on with the value if there is one. -/
def demand (value : Option α) (e : PoolError) : Except PoolError α :=
  match value with
  | some a => .ok a
  | none => .error e

/-- An operation has one answer. -/
theorem eq_of_eq_ok {x : Except PoolError α} {a b : α} (ha : x = .ok a) (hb : x = .ok b) :
    a = b :=
  Except.ok.inj (ha.symm.trans hb)

theorem require_eq_ok_iff {condition : Prop} [Decidable condition] {e : PoolError} {u : Unit} :
    require condition e = .ok u ↔ condition := by
  unfold require
  split <;> simp_all

theorem require_eq_error_iff {condition : Prop} [Decidable condition] {e e' : PoolError} :
    require condition e = .error e' ↔ ¬ condition ∧ e' = e := by
  unfold require
  split <;> simp_all [eq_comm]

theorem demand_eq_ok_iff {value : Option α} {e : PoolError} {a : α} :
    demand value e = .ok a ↔ value = some a := by
  cases value <;> simp [demand]

theorem demand_eq_error_iff {value : Option α} {e e' : PoolError} :
    demand value e = .error e' ↔ value = none ∧ e' = e := by
  cases value <;> simp [demand, eq_comm]

/-- Whether an operation gives a certain answer can be computed. -/
instance decidableEqOk [DecidableEq α] (x : Except PoolError α) (a : α) :
    Decidable (x = .ok a) :=
  match x with
  | .ok b => decidable_of_iff (b = a) ⟨congrArg _, Except.ok.inj⟩
  | .error _ => .isFalse nofun

theorem ok_bind (a : α) (f : α → Except PoolError β) : (.ok a >>= f) = f a := rfl

theorem error_bind (e : PoolError) (f : α → Except PoolError β) : (.error e >>= f) = .error e :=
  rfl

theorem bind_eq_ok_iff {x : Except PoolError α} {f : α → Except PoolError β} {b : β} :
    (x >>= f) = .ok b ↔ ∃ a, x = .ok a ∧ f a = .ok b := by
  cases x with
  | ok a =>
    constructor
    · intro h
      exact ⟨a, rfl, h⟩
    · rintro ⟨_, ha, h⟩
      cases ha
      exact h
  | error e =>
    constructor
    · intro h
      cases h
    · rintro ⟨_, ha, _⟩
      cases ha

theorem bind_eq_error_iff {x : Except PoolError α} {f : α → Except PoolError β} {e : PoolError} :
    (x >>= f) = .error e ↔ x = .error e ∨ ∃ a, x = .ok a ∧ f a = .error e := by
  cases x with
  | ok a =>
    constructor
    · intro h
      exact .inr ⟨a, rfl, h⟩
    · rintro (h | ⟨_, ha, h⟩)
      · cases h
      · cases ha
        exact h
  | error e' =>
    constructor
    · intro h
      cases h
      exact .inl rfl
    · rintro (h | ⟨_, ha, _⟩)
      · cases h
        rfl
      · cases ha

/-- A chain that ends by handing on its result with what follows from it. -/
theorem bind_pair_eq_ok_iff {x : Except PoolError α} {f : α → β} {a : α} {b : β} :
    (x >>= fun r => pure (r, f r)) = .ok (a, b) ↔ x = .ok a ∧ b = f a := by
  simp only [bind_eq_ok_iff, pure, Except.pure, Except.ok.injEq, Prod.mk.injEq]
  constructor
  · rintro ⟨r, hr, rfl, rfl⟩
    exact ⟨hr, rfl⟩
  · rintro ⟨ha, rfl⟩
    exact ⟨a, ha, rfl, rfl⟩

/-- A step on every entry of a list answers exactly if it answers on each of them. -/
theorem mapM_eq_ok_iff {f : α → Except PoolError β} {as : List α} {bs : List β} :
    as.mapM f = .ok bs ↔ as.map f = bs.map .ok := by
  induction as generalizing bs with
  | nil => cases bs <;> simp [pure, Except.pure]
  | cons a as ih =>
    rw [List.mapM_cons, bind_eq_ok_iff]
    simp only [bind_eq_ok_iff, ih]
    constructor
    · rintro ⟨b, hb, rest, hrest, h⟩
      cases h
      simp [hb, hrest]
    · intro h
      cases bs with
      | nil => simp at h
      | cons b bs =>
        simp only [List.map_cons, List.cons.injEq] at h
        exact ⟨b, h.1, bs, h.2, rfl⟩

/-- A step on every entry of a list leaves as many entries. -/
theorem length_of_mapM {f : α → Except PoolError β} {as : List α} {bs : List β}
    (h : as.mapM f = .ok bs) : bs.length = as.length := by
  have hlength := congrArg List.length (mapM_eq_ok_iff.1 h)
  simpa using hlength.symm

end StableSwap
