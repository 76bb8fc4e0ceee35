import StableSwap.Amount

/-!
# Iterations that settle

Both curve equations are solved by repeating a step until the value moves by at
most one unit. `settle` repeats it within a budget of passes and says how the
repetition ended; `Report` is the answer drawn from that, with the number of
passes that were made.

Specification: the stopping rule of §4.2 and §4.3, and the bound on the loops that §5 and §9
ask for.

Main statements:

* `settle_passes_le`: no more passes are made than the budget allows.
* `settle_of_atRest`: a value at rest is the outcome of a pass from a value near to it, unless no
  pass was made.
* `Visits.holds`, `settle_holds`: what every pass keeps holds of all values of a repetition.
* `exists_visits_of_settle_error`: a repetition is refused only by a pass that it makes.
* `settle_atRest_of_rank`: a rank that falls with every pass brings a repetition to rest.
* `Report.answer_eq_ok_iff`, `Report.answer_eq_error_iff`: a solver answers with the value of a
  repetition at rest, and is refused otherwise.
-/

namespace StableSwap.Curve

/-- The number of passes a solver may make: `MAX_ITERATIONS`, the bound of §4.2. -/
def passLimit : Nat := 255

/-- How a repetition ended: the last value, the passes made, and whether the value had
    come to rest. -/
structure Halt where
  value : Wide
  passes : Nat
  atRest : Bool
  deriving DecidableEq, Repr

/-- Two successive values at most one unit apart: `|D − D_prev| ≤ 1` of §4.2. -/
def near (current previous : Wide) : Bool := (current.distance previous).val ≤ 1

/-- Repeats the step until the value is near the one before it, at most `budget` times: the loop
    of both solvers, which runs while `|D − D_prev| > 1` (§4.2). -/
def settle (step : Wide → Except PoolError Wide) :
    (budget : Nat) → (previous current : Wide) → Except PoolError Halt
  | 0, previous, current => .ok ⟨current, 0, near current previous⟩
  | budget + 1, previous, current =>
    if near current previous then .ok ⟨current, 0, true⟩
    else do
      let next ← step current
      let halt ← settle step budget current next
      return { halt with passes := halt.passes + 1 }

/-- The repetition makes a pass from the value. -/
inductive Visits (step : Wide → Except PoolError Wide) :
    (budget : Nat) → (previous current value : Wide) → Prop
  | first {budget : Nat} {previous current : Wide} :
      near current previous = false → Visits step (budget + 1) previous current current
  | later {budget : Nat} {previous current next value : Wide} :
      near current previous = false → step current = .ok next →
      Visits step budget current next value → Visits step (budget + 1) previous current value

/-- What a solver reports: its answer, and the number of passes if the repetition ended. -/
structure Report where
  answer : Except PoolError Amount
  passes : Option Nat

/-- The answer of an ended repetition. The value must have come to rest and must be an amount. -/
def Halt.answer (halt : Halt) (quantity result : String) : Except PoolError Amount :=
  if halt.atRest then Word.fit result halt.value else .error (.noConvergence quantity)

/-- The report on a repetition that is to find the quantity. -/
def Report.of (quantity result : String) : Except PoolError Halt → Report
  | .ok halt => ⟨halt.answer quantity result, some halt.passes⟩
  | .error e => ⟨.error e, none⟩

theorem near_iff {current previous : Wide} :
    near current previous = true ↔
      current.val ≤ previous.val + 1 ∧ previous.val ≤ current.val + 1 := by
  simp only [near, decide_eq_true_eq, Word.val_distance]
  omega

/-- A value is near the zero before the first one exactly if it is one at most. -/
theorem near_zero_iff {current : Wide} : near current 0 = true ↔ current.val ≤ 1 := by
  rw [near_iff, Word.val_zero]
  omega

theorem near_zero_eq_false {current : Wide} (h : 1 < current.val) : near current 0 = false := by
  rw [← Bool.not_eq_true, near_zero_iff]
  omega

theorem settle_zero (step : Wide → Except PoolError Wide) (previous current : Wide) :
    settle step 0 previous current = .ok ⟨current, 0, near current previous⟩ := rfl

theorem settle_of_near {step : Wide → Except PoolError Wide} {budget : Nat}
    {previous current : Wide} (h : near current previous = true) :
    settle step budget previous current = .ok ⟨current, 0, true⟩ := by
  cases budget <;> simp [settle, h]

theorem settle_succ_of_far {step : Wide → Except PoolError Wide} {budget : Nat}
    {previous current : Wide} (h : near current previous = false) :
    settle step (budget + 1) previous current = (do
      let next ← step current
      let halt ← settle step budget current next
      return { halt with passes := halt.passes + 1 }) := by
  simp [settle, h]

/-- A repetition that makes a pass ends as the rest of it does, with one pass more. -/
theorem settle_succ_eq_ok_iff {step : Wide → Except PoolError Wide} {budget : Nat}
    {previous current : Wide} {halt : Halt} (h : near current previous = false) :
    settle step (budget + 1) previous current = .ok halt ↔
      ∃ next, step current = .ok next ∧ ∃ rest, settle step budget current next = .ok rest ∧
        halt = { rest with passes := rest.passes + 1 } := by
  simp only [settle_succ_of_far h, bind_eq_ok_iff, pure, Except.pure, Except.ok.injEq,
    @eq_comm _ _ halt]

theorem settle_passes_le {step : Wide → Except PoolError Wide} {budget : Nat}
    {previous current : Wide} {halt : Halt}
    (h : settle step budget previous current = .ok halt) : halt.passes ≤ budget := by
  induction budget generalizing previous current halt with
  | zero => cases h; exact Nat.le_refl 0
  | succ budget ih =>
    cases hn : near current previous with
    | true => rw [settle_of_near hn] at h; cases h; exact Nat.zero_le _
    | false =>
      obtain ⟨next, -, rest, hrest, rfl⟩ := (settle_succ_eq_ok_iff hn).1 h
      exact Nat.succ_le_succ (ih hrest)

/-- A value at rest was near the one before it from the start, or is the outcome of a pass from a
    value that it is near to. -/
theorem settle_of_atRest {step : Wide → Except PoolError Wide} {budget : Nat}
    {previous current : Wide} {halt : Halt}
    (h : settle step budget previous current = .ok halt) (hr : halt.atRest = true) :
    near current previous = true ∧ halt.value = current ∨
      ∃ y, step y = .ok halt.value ∧ near halt.value y = true := by
  induction budget generalizing previous current halt with
  | zero =>
    cases h
    exact .inl ⟨hr, rfl⟩
  | succ budget ih =>
    cases hn : near current previous with
    | true =>
      rw [settle_of_near hn] at h
      cases h
      exact .inl ⟨rfl, rfl⟩
    | false =>
      obtain ⟨next, hnext, rest, hrest, rfl⟩ := (settle_succ_eq_ok_iff hn).1 h
      -- the rest of the repetition may make no pass of its own: then the value is `next`
      rcases ih hrest hr with ⟨hnear, hvalue⟩ | hlast
      · exact .inr ⟨current, by rw [hnext, hvalue], by rwa [hvalue]⟩
      · exact .inr hlast

/-- What holds of the first value and is kept by every pass holds of all values from which the
    repetition makes a pass. -/
theorem Visits.holds {step : Wide → Except PoolError Wide} {P : Wide → Prop}
    (hkeep : ∀ y y', P y → step y = .ok y' → P y') {budget : Nat} {previous current value : Wide}
    (h : Visits step budget previous current value) (hcurrent : P current) : P value := by
  induction h with
  | first _ => exact hcurrent
  | later _ hnext _ ih => exact ih (hkeep _ _ hcurrent hnext)

/-- It holds of the value with which the repetition ends as well. -/
theorem settle_holds {step : Wide → Except PoolError Wide} {P : Wide → Prop}
    (hkeep : ∀ y y', P y → step y = .ok y' → P y') {budget : Nat} {previous current : Wide}
    {halt : Halt} (h : settle step budget previous current = .ok halt) (hcurrent : P current) :
    P halt.value := by
  induction budget generalizing previous current halt with
  | zero =>
    cases h
    exact hcurrent
  | succ budget ih =>
    cases hn : near current previous with
    | true =>
      rw [settle_of_near hn] at h
      cases h
      exact hcurrent
    | false =>
      obtain ⟨next, hnext, rest, hrest, rfl⟩ := (settle_succ_eq_ok_iff hn).1 h
      show P rest.value
      exact ih hrest (hkeep _ _ hcurrent hnext)

/-- A repetition is refused only by a pass that it makes. -/
theorem exists_visits_of_settle_error {step : Wide → Except PoolError Wide} {budget : Nat}
    {previous current : Wide} {e : PoolError}
    (h : settle step budget previous current = .error e) :
    ∃ y, Visits step budget previous current y ∧ step y = .error e := by
  induction budget generalizing previous current with
  | zero => cases h
  | succ budget ih =>
    cases hn : near current previous with
    | true =>
      rw [settle_of_near hn] at h
      cases h
    | false =>
      rw [settle_succ_of_far hn, bind_eq_error_iff] at h
      obtain h | ⟨next, hnext, h⟩ := h
      · exact ⟨current, .first hn, h⟩
      · rw [bind_eq_error_iff] at h
        obtain h | ⟨_, _, h⟩ := h
        · obtain ⟨y, hy, hstep⟩ := ih h
          exact ⟨y, .later hn hnext hy, hstep⟩
        · cases h

/-- A repetition whose rank falls with every pass comes to rest, if it may make one pass more than
    the rank at which it begins, and a pass at rank zero is short. -/
theorem settle_atRest_of_rank {step : Wide → Except PoolError Wide} (Rank : Nat → Wide → Prop)
    (hfall : ∀ r y y', Rank (r + 1) y → step y = .ok y' → Rank r y')
    (hlast : ∀ y y', Rank 0 y → step y = .ok y' → near y' y = true) {budget r : Nat}
    {previous current : Wide} {halt : Halt} (hr : r < budget) (hcurrent : Rank r current)
    (h : settle step budget previous current = .ok halt) : halt.atRest = true := by
  induction budget generalizing r previous current halt with
  | zero => exact absurd hr (Nat.not_lt_zero r)
  | succ budget ih =>
    cases hn : near current previous with
    | true =>
      rw [settle_of_near hn] at h
      cases h
      rfl
    | false =>
      obtain ⟨next, hnext, rest, hrest, rfl⟩ := (settle_succ_eq_ok_iff hn).1 h
      show rest.atRest = true
      cases r with
      | zero =>
        rw [settle_of_near (hlast current next hcurrent hnext)] at hrest
        cases hrest
        rfl
      | succ r => exact ih (Nat.lt_of_succ_lt_succ hr) (hfall r current next hcurrent hnext) hrest

theorem Report.answer_eq_ok_iff {quantity result : String} {search : Except PoolError Halt}
    {a : Amount} :
    (Report.of quantity result search).answer = .ok a ↔
      ∃ halt, search = .ok halt ∧ halt.atRest = true ∧ a.val = halt.value.val := by
  cases search with
  | error e => simp [Report.of]
  | ok halt =>
    simp only [Report.of, Halt.answer]
    split
    · next h => simp [h, Word.fit_eq_ok_iff]
    · next h => simp [h]

/-- A solver is refused if its repetition is, or if that ends without an amount at rest. -/
theorem Report.answer_eq_error_iff {quantity result : String} {search : Except PoolError Halt}
    {e : PoolError} :
    (Report.of quantity result search).answer = .error e ↔
      search = .error e ∨ ∃ halt, search = .ok halt ∧
        (halt.atRest = true ∧ Word.size 256 ≤ halt.value.val ∧ e = .overflow result ∨
          halt.atRest = false ∧ e = .noConvergence quantity) := by
  cases search with
  | error e' => simp [Report.of]
  | ok halt =>
    simp only [Report.of, Halt.answer, reduceCtorEq, Except.ok.injEq, exists_eq_left', false_or]
    split
    · next h =>
      rw [Word.fit_eq_error_iff]
      simp [h]
    · next h =>
      rw [Except.error.injEq, @eq_comm _ (PoolError.noConvergence quantity)]
      simp [h]

end StableSwap.Curve
