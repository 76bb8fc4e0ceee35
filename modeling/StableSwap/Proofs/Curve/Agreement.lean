import StableSwap.Proofs.Curve.Division
import StableSwap.Proofs.Curve.Reckoning

/-!
# The solvers beside the formulas over the natural numbers

Specification: the two searches as they are written down, over natural numbers
of any size, with everything that they form on the way (`Reckoning`). A search
finds a value if it comes to rest within its passes and everything formed up to
then fits; it runs out if everything fits and the last pass does not bring it to
rest.

Main statements:

* `value_invariantSearch`, `value_balanceSearch`: the passes make the exact steps.
* `fits_invariantSearch`: what has to be in range before the search for an invariant begins.
* `settle_eq_ok_iff_finds`, `settle_eq_ok_iff_runsOut`: a bounded repetition whose
  steps follow the passes comes to rest where the search finds a value, and uses
  up its budget where the search runs out.
* `Solves.refusal`, `Solves.refused_of_not_fits`: what a solver is refused for, and that it
  is if its first pass is out of range.
* `solvers_agree`: both solvers answer exactly with what their search finds, and
  do not converge exactly if it runs out.
-/

namespace StableSwap.Curve

namespace Exact

/-! ## Searches -/

/-- A search at one of its values, with the value before it. -/
structure Search where
  previous : ℕ := 0
  current : ℕ
  /-- What a pass from a value forms to reach the next one. -/
  pass : ℕ → Reckoning ℕ

namespace Search

/-- The search after one more pass. -/
def next (s : Search) : Search :=
  { s with previous := s.current, current := (s.pass s.current).value }

/-- The last two values are at most one unit apart. -/
def AtRest (s : Search) : Prop := s.current ≤ s.previous + 1 ∧ s.previous ≤ s.current + 1

/-- The search makes `t` passes: no value before the last is at rest, and every pass fits. -/
def GoesOn (s : Search) (t : ℕ) : Prop :=
  ∀ k < t, ¬ (next^[k] s).AtRest ∧ (s.pass (next^[k] s).current).Fits

/-- The search comes to rest at the value within the limit. -/
def Finds (s : Search) (limit v : ℕ) : Prop :=
  ∃ t ≤ limit, s.GoesOn t ∧ (next^[t] s).AtRest ∧ (next^[t] s).current = v

/-- The search makes as many passes as the limit allows and does not come to rest. -/
def RunsOut (s : Search) (limit : ℕ) : Prop := s.GoesOn limit ∧ ¬ (next^[limit] s).AtRest

variable {s : Search} {limit t v : ℕ}

theorem goesOn_zero : s.GoesOn 0 := by
  intro k hk
  omega

theorem goesOn_succ :
    s.GoesOn (t + 1) ↔ ¬ s.AtRest ∧ (s.pass s.current).Fits ∧ s.next.GoesOn t := by
  unfold GoesOn
  rw [Nat.forall_lt_succ_left, and_assoc]
  rfl

theorem finds_of_atRest (h : s.AtRest) : s.Finds limit v ↔ s.current = v := by
  constructor
  · intro ⟨t, _, hgoesOn, _, hv⟩
    cases t with
    | zero => exact hv
    | succ t => exact absurd h (goesOn_succ.1 hgoesOn).1
  · intro hv
    exact ⟨0, Nat.zero_le limit, goesOn_zero, h, hv⟩

theorem not_finds_zero (h : ¬ s.AtRest) : ¬ s.Finds 0 v := by
  intro ⟨t, ht, _, hrest, _⟩
  obtain rfl : t = 0 := by omega
  exact h hrest

theorem finds_succ (h : ¬ s.AtRest) :
    s.Finds (limit + 1) v ↔ (s.pass s.current).Fits ∧ s.next.Finds limit v := by
  constructor
  · intro ⟨t, ht, hgoesOn, hrest, hv⟩
    cases t with
    | zero => exact absurd hrest h
    | succ t =>
      obtain ⟨_, hfits, hnext⟩ := goesOn_succ.1 hgoesOn
      exact ⟨hfits, t, by omega, hnext, hrest, hv⟩
  · intro ⟨hfits, t, ht, hgoesOn, hrest, hv⟩
    exact ⟨t + 1, by omega, goesOn_succ.2 ⟨h, hfits, hgoesOn⟩, hrest, hv⟩

theorem not_runsOut_of_atRest (h : s.AtRest) : ¬ s.RunsOut limit := by
  intro ⟨hgoesOn, hfar⟩
  cases limit with
  | zero => exact hfar h
  | succ limit => exact (goesOn_succ.1 hgoesOn).1 h

theorem runsOut_zero : s.RunsOut 0 ↔ ¬ s.AtRest := and_iff_right goesOn_zero

theorem runsOut_succ (h : ¬ s.AtRest) :
    s.RunsOut (limit + 1) ↔ (s.pass s.current).Fits ∧ s.next.RunsOut limit := by
  unfold RunsOut
  rw [goesOn_succ, Function.iterate_succ_apply]
  tauto

end Search

/-! ## The two searches -/

namespace Reckoning

/-- One factor of a product of quotients: `p · d / (n · x)`. -/
def factor (n d p x : ℕ) : Reckoning ℕ := do div (← mul p d) (← mul n x)

/-- The product `p · d/(n·x₀) · d/(n·x₁) · …`, rounded down after every factor. -/
def chain (n d : ℕ) (xs : List ℕ) (p : ℕ) : Reckoning ℕ := xs.foldlM (factor n d) p

/-- The pass `(L·S + P·n)·d / ((L − 1)·d + (n + 1)·P)` of the search for an invariant. -/
def invariantPass (leverageLessOne countPlusOne leveragedSum : ℕ) (xs : List ℕ) (d : ℕ) :
    Reckoning ℕ := do
  let p ← chain xs.length d xs d
  let numerator ← mul (← add leveragedSum (← mul p xs.length)) d
  let denominator ← add (← mul leverageLessOne d) (← mul countPlusOne p)
  div numerator denominator

/-- The search for the invariant of the balances `xs`, from their sum. -/
def invariantSearch (amplification : ℕ) (xs : List ℕ) : Reckoning Search := do
  let leverage ← mul amplification xs.length
  let leverageLessOne ← sub leverage 1
  let countPlusOne ← add xs.length 1
  let sum ← xs.foldlM add 0
  let leveragedSum ← mul leverage sum
  return { current := sum, pass := invariantPass leverageLessOne countPlusOne leveragedSum xs }

/-- The pass `(y² + c) / (2·y + b − d)` of the search for a balance. -/
def balancePass (c b d y : ℕ) : Reckoning ℕ := do
  let numerator ← add (← mul y y) c
  let denominator ← sub (← add (← mul y 2) b) d
  div numerator denominator

/-- The search for the balance of asset `k` beside the others of `xs`, from the invariant `d`. -/
def balanceSearch (amplification : ℕ) (xs : List ℕ) (k d : ℕ) : Reckoning Search := do
  let others := xs.eraseIdx k
  let leverage ← mul amplification xs.length
  let sum ← others.foldlM add 0
  let p ← chain xs.length d others d
  let c ← div (← mul p d) (← mul leverage xs.length)
  let b ← add sum (← div d leverage)
  return { current := d, pass := balancePass c b d }

@[simp] theorem value_chain (n d : ℕ) (xs : List ℕ) (p : ℕ) :
    (chain n d xs p).value = Exact.chain n d xs p := by
  induction xs generalizing p with
  | nil => rfl
  | cons x xs ih => exact ih (p * d / (n * x))

@[simp] theorem value_foldlM_add (xs : List ℕ) (a : ℕ) :
    (xs.foldlM add a).value = a + xs.sum := by
  induction xs generalizing a with
  | nil => rfl
  | cons x xs ih =>
    rw [List.sum_cons, ← Nat.add_assoc]
    exact ih (a + x)

/-- The search for an invariant begins with the sum and makes the exact steps. -/
theorem value_invariantSearch (amplification : ℕ) (xs : List ℕ) :
    (invariantSearch amplification xs).value.current = xs.sum ∧
      ∀ d, ((invariantSearch amplification xs).value.pass d).value =
        invariantStep (amplification * xs.length) xs d := by
  have hsum : (xs.foldlM add 0).value = xs.sum := by simp
  refine ⟨hsum, ?_⟩
  intro d
  rw [invariantStep, ← value_chain, ← hsum]
  rfl

theorem previous_invariantSearch (amplification : ℕ) (xs : List ℕ) :
    (invariantSearch amplification xs).value.previous = 0 := rfl

/-- What a pass of the search for an invariant forms. -/
theorem pass_invariantSearch (amplification : ℕ) (xs : List ℕ) :
    (invariantSearch amplification xs).value.pass =
      invariantPass (amplification * xs.length - 1) (xs.length + 1)
        (amplification * xs.length * xs.sum) xs := by
  have hsum : (xs.foldlM add 0).value = xs.sum := by simp
  rw [← hsum]
  rfl

theorem fits_foldlM_add {a : ℕ} {xs : List ℕ} (h : a + xs.sum < Word.size 512) :
    (xs.foldlM add a).Fits := by
  induction xs generalizing a with
  | nil => exact fits_pure a
  | cons x xs ih =>
    rw [List.sum_cons] at h
    rw [List.foldlM_cons, fits_bind, fits_add]
    exact ⟨by omega, ih (by rw [value_add]; omega)⟩

/-- What has to be in range before the search for an invariant begins. -/
theorem fits_invariantSearch {amplification : ℕ} {xs : List ℕ}
    (hpos : 0 < amplification * xs.length)
    (hleverage : amplification * xs.length < Word.size 512)
    (hcount : xs.length + 1 < Word.size 512) (hsum : xs.sum < Word.size 512)
    (hleveraged : amplification * xs.length * xs.sum < Word.size 512) :
    (invariantSearch amplification xs).Fits := by
  simp only [invariantSearch, fits_bind, fits_mul, fits_add, value_mul, value_foldlM_add,
    Nat.zero_add]
  refine ⟨hleverage, ?_, hcount, fits_foldlM_add ?_, hleveraged, fits_pure _⟩
  · rw [fits_sub hpos]
    omega
  · rwa [Nat.zero_add]

/-- The search for a balance begins with the invariant and makes the exact steps. -/
theorem value_balanceSearch (amplification : ℕ) (xs : List ℕ) (k d : ℕ) :
    (balanceSearch amplification xs k d).value.current = d ∧
      ∀ y, ((balanceSearch amplification xs k d).value.pass y).value =
        balanceStep (coefficientC xs.length (amplification * xs.length) (xs.eraseIdx k) d)
          (coefficientB (amplification * xs.length) (xs.eraseIdx k) d) d y := by
  have hsum : ((xs.eraseIdx k).foldlM add 0).value = (xs.eraseIdx k).sum := by simp
  refine ⟨rfl, ?_⟩
  intro y
  rw [coefficientC, coefficientB, ← value_chain, ← hsum]
  rfl

end Reckoning

end Exact

open Exact

/-! ## Repetitions -/

section Settle

variable {step : Wide → Except PoolError Wide} {s : Search} {budget : ℕ} {previous current : Wide}

/-- The repetition stands where the search does. -/
structure Stands (s : Search) (previous current : Wide) : Prop where
  previous : previous.val = s.previous
  current : current.val = s.current

theorem Stands.near_iff (h : Stands s previous current) :
    near current previous = true ↔ s.AtRest := by
  rw [Curve.near_iff, h.previous, h.current]
  rfl

theorem Stands.near_eq_false (h : Stands s previous current) (hfar : ¬ s.AtRest) :
    near current previous = false := by
  rw [← Bool.not_eq_true, h.near_iff]
  exact hfar

/-- A step from where the search stands is refused if the pass does not fit, and otherwise leads
    to where the search stands next. -/
theorem Stands.next (h : Stands s previous current)
    (hstep : ∀ y, Follows Word.val (step y) (s.pass y.val)) :
    (∃ e, step current = .error e ∧ ¬ (s.pass s.current).Fits ∧ ArithmeticRefusal e) ∨
      ∃ next, step current = .ok next ∧ (s.pass s.current).Fits ∧ Stands s.next current next := by
  have hfollows := hstep current
  rw [h.current] at hfollows
  cases hresult : step current with
  | error e => exact .inl ⟨e, rfl, hfollows.of_error hresult⟩
  | ok next =>
    obtain ⟨hfits, hvalue⟩ := hfollows.of_ok hresult
    exact .inr ⟨next, rfl, hfits, h.current, hvalue⟩

/-- A repetition that makes a pass ends as the rest of it does. -/
theorem exists_settle_succ {next w : Wide} {rest : Bool} (hfar : near current previous = false)
    (hnext : step current = .ok next) :
    (∃ passes, settle step (budget + 1) previous current = .ok ⟨w, passes, rest⟩) ↔
      ∃ passes, settle step budget current next = .ok ⟨w, passes, rest⟩ := by
  simp only [settle_succ_eq_ok_iff hfar, hnext, Except.ok.injEq, exists_eq_left']
  constructor
  · intro ⟨_, halt, hsettle, hhalt⟩
    cases hhalt
    exact ⟨halt.passes, hsettle⟩
  · intro ⟨passes, hsettle⟩
    exact ⟨passes + 1, _, hsettle, rfl⟩

theorem settle_succ_of_refused {e : PoolError} (hfar : near current previous = false)
    (he : step current = .error e) : settle step (budget + 1) previous current = .error e := by
  rw [settle_succ_of_far hfar, he]
  rfl

/-- A repetition comes to rest exactly where the search that it follows finds a value. -/
theorem settle_eq_ok_iff_finds (hstep : ∀ y, Follows Word.val (step y) (s.pass y.val))
    (h : Stands s previous current) {w : Wide} :
    (∃ passes, settle step budget previous current = .ok ⟨w, passes, true⟩) ↔
      s.Finds budget w.val := by
  induction budget generalizing s previous current with
  | zero =>
    by_cases hrest : s.AtRest
    · rw [settle_zero, h.near_iff.2 hrest, Search.finds_of_atRest hrest, ← h.current]
      simp [Word.ext_iff]
    · rw [settle_zero, h.near_eq_false hrest]
      simp [Search.not_finds_zero hrest]
  | succ budget ih =>
    by_cases hrest : s.AtRest
    · rw [settle_of_near (h.near_iff.2 hrest), Search.finds_of_atRest hrest, ← h.current]
      simp [Word.ext_iff]
    · have hfar := h.near_eq_false hrest
      rw [Search.finds_succ hrest]
      obtain ⟨e, he, hfits, _⟩ | ⟨next, hnext, hfits, hstands⟩ := h.next hstep
      · rw [settle_succ_of_refused hfar he]
        simp [hfits]
      · have hstep' : ∀ y, Follows Word.val (step y) (s.next.pass y.val) := hstep
        rw [exists_settle_succ hfar hnext, ih hstep' hstands, and_iff_right hfits]

/-- A repetition uses up its budget exactly where the search that it follows runs out. -/
theorem settle_eq_ok_iff_runsOut (hstep : ∀ y, Follows Word.val (step y) (s.pass y.val))
    (h : Stands s previous current) :
    (∃ w passes, settle step budget previous current = .ok ⟨w, passes, false⟩) ↔
      s.RunsOut budget := by
  induction budget generalizing s previous current with
  | zero =>
    rw [Search.runsOut_zero, settle_zero]
    by_cases hrest : s.AtRest
    · rw [h.near_iff.2 hrest]
      simp [hrest]
    · rw [h.near_eq_false hrest]
      simp [hrest]
  | succ budget ih =>
    by_cases hrest : s.AtRest
    · rw [settle_of_near (h.near_iff.2 hrest)]
      simp [Search.not_runsOut_of_atRest hrest]
    · have hfar := h.near_eq_false hrest
      rw [Search.runsOut_succ hrest]
      obtain ⟨e, he, hfits, _⟩ | ⟨next, hnext, hfits, hstands⟩ := h.next hstep
      · simp only [settle_succ_of_refused hfar he]
        simp [hfits]
      · have hstep' : ∀ y, Follows Word.val (step y) (s.next.pass y.val) := hstep
        simp only [exists_settle_succ hfar hnext]
        rw [ih hstep' hstands, and_iff_right hfits]

end Settle

/-! ## The solvers -/

/-- A set-up that follows a search, and a repetition whose steps follow its passes. -/
structure Solves {τ : Type} (setUp : Except PoolError τ) (step : τ → Wide → Except PoolError Wide)
    (start : τ → Wide) (view : τ → Search) (r : Reckoning Search) : Prop where
  setUp : Follows view setUp r
  step : ∀ t y, Follows Word.val (step t y) ((view t).pass y.val)
  stands : ∀ t, Stands (view t) 0 (start t)

namespace Solves

variable {τ : Type} {setUp : Except PoolError τ} {step : τ → Wide → Except PoolError Wide}
  {start : τ → Wide} {view : τ → Search} {r : Reckoning Search} {quantity result : String}

/-- A search is refused only for what its arithmetic refuses. -/
theorem refusedOnlyFor_search (h : Solves setUp step start view r) :
    RefusedOnlyFor ArithmeticRefusal
      (setUp >>= fun t => settle (step t) passLimit 0 (start t)) := by
  apply h.setUp.refusedOnlyFor.bind
  intro t _
  apply refusedOnlyFor_settle
  intro y _
  exact (h.step t y).refusedOnlyFor

/-- A solver is refused by its arithmetic or for not coming to rest. -/
theorem refusal (h : Solves setUp step start view r) {e : PoolError}
    (he : (Report.of quantity result
      (setUp >>= fun t => settle (step t) passLimit 0 (start t))).answer = .error e) :
    ArithmeticRefusal e ∨ e = .noConvergence quantity := by
  obtain he | ⟨halt, -, ⟨-, -, rfl⟩ | ⟨-, rfl⟩⟩ := Report.answer_eq_error_iff.1 he
  · exact .inl (h.refusedOnlyFor_search e he)
  · exact .inl (.inr ⟨result, rfl⟩)
  · exact .inr rfl

/-- A solver answers with what its search finds. -/
theorem answer_eq_ok_iff (h : Solves setUp step start view r) {v : Amount} :
    (Report.of quantity result
      (setUp >>= fun t => settle (step t) passLimit 0 (start t))).answer = .ok v ↔
        r.Fits ∧ r.value.Finds passLimit v.val := by
  rw [Report.answer_eq_ok_iff]
  constructor
  · intro ⟨⟨w, passes, rest⟩, hsearch, hrest, hv⟩
    obtain rfl : rest = true := hrest
    rw [bind_eq_ok_iff] at hsearch
    obtain ⟨t, ht, hsettle⟩ := hsearch
    obtain ⟨hfits, hvalue⟩ := h.setUp.of_ok ht
    refine ⟨hfits, ?_⟩
    rw [← hvalue, hv]
    exact (settle_eq_ok_iff_finds (h.step t) (h.stands t)).1 ⟨passes, hsettle⟩
  · intro ⟨hfits, hfinds⟩
    obtain ⟨t, ht, hvalue⟩ := h.setUp.exists_ok hfits
    rw [← hvalue, ← Amount.val_wide] at hfinds
    obtain ⟨passes, hsettle⟩ := (settle_eq_ok_iff_finds (h.step t) (h.stands t)).2 hfinds
    exact ⟨_, bind_eq_ok_iff.2 ⟨t, ht, hsettle⟩, rfl, rfl⟩

/-- A solver does not converge exactly if its search runs out. -/
theorem answer_eq_noConvergence_iff (h : Solves setUp step start view r) :
    (Report.of quantity result
      (setUp >>= fun t => settle (step t) passLimit 0 (start t))).answer =
        .error (.noConvergence quantity) ↔
      r.Fits ∧ r.value.RunsOut passLimit := by
  rw [Report.answer_eq_error_iff]
  constructor
  · intro hrefused
    obtain herror | ⟨⟨w, passes, rest⟩, hsearch, ⟨_, _, hoverflow⟩ | ⟨hrest, _⟩⟩ := hrefused
    · -- the arithmetic does not refuse for this
      have hrefusal := h.refusedOnlyFor_search _ herror
      exact absurd hrefusal (not_arithmeticRefusal_noConvergence quantity)
    · cases hoverflow
    · obtain rfl : rest = false := hrest
      rw [bind_eq_ok_iff] at hsearch
      obtain ⟨t, ht, hsettle⟩ := hsearch
      obtain ⟨hfits, hvalue⟩ := h.setUp.of_ok ht
      refine ⟨hfits, ?_⟩
      rw [← hvalue]
      exact (settle_eq_ok_iff_runsOut (h.step t) (h.stands t)).1 ⟨w, passes, hsettle⟩
  · intro ⟨hfits, hruns⟩
    obtain ⟨t, ht, hvalue⟩ := h.setUp.exists_ok hfits
    rw [← hvalue] at hruns
    obtain ⟨w, passes, hsettle⟩ := (settle_eq_ok_iff_runsOut (h.step t) (h.stands t)).2 hruns
    exact .inr ⟨_, bind_eq_ok_iff.2 ⟨t, ht, hsettle⟩, .inr ⟨rfl, rfl⟩⟩

/-- A solver whose first pass is out of range is refused by its arithmetic. -/
theorem refused_of_not_fits (h : Solves setUp step start view r) (hfar : ¬ r.value.AtRest)
    (hfits : ¬ (r.value.pass r.value.current).Fits) :
    ∃ e, (Report.of quantity result
      (setUp >>= fun t => settle (step t) passLimit 0 (start t))).answer = .error e ∧
        ArithmeticRefusal e := by
  cases hanswer : (Report.of quantity result
      (setUp >>= fun t => settle (step t) passLimit 0 (start t))).answer with
  | ok v =>
    have hfinds := (h.answer_eq_ok_iff.1 hanswer).2
    exact absurd ((Search.finds_succ hfar).1 hfinds).1 hfits
  | error e =>
    obtain hrefusal | rfl := h.refusal hanswer
    · exact ⟨e, rfl, hrefusal⟩
    · have hruns := (h.answer_eq_noConvergence_iff.1 hanswer).2
      exact absurd ((Search.runsOut_succ hfar).1 hruns).1 hfits

end Solves

/-- The sum follows the sum. -/
theorem follows_total (term : String) (xs : List Amount) :
    Follows Word.val (total term xs) ((xs.map (·.val)).foldlM Reckoning.add 0) := by
  apply follows_foldlM
  intro a x
  exact follows_add a x.val term

namespace Invariant

/-- The search for the invariant with the terms that stay the same. -/
def Terms.search (t : Terms) : Search where
  current := t.sum.val
  pass := Reckoning.invariantPass t.leverageLessOne.val t.countPlusOne.val t.leveragedSum.val
    (t.balances.map (·.val))

theorem follows_factor (n : ℕ) (d p : Wide) (x : Amount) :
    Follows Word.val (factor n d p x) (Reckoning.factor n d.val p.val x.val) := by
  -- the divisor is formed before the product here
  have h : Follows Word.val (factor n d p x) (do
      let divisor ← Reckoning.mul x.val n
      let product ← Reckoning.mul p.val d.val
      Reckoning.div product divisor) := by
    apply (follows_mul _ _ _).bind
    intro divisor
    apply (follows_mul _ _ _).bind
    intro product
    apply follows_div
  rw [Reckoning.mul_comm x.val n] at h
  apply h.congr
  · simp only [Reckoning.factor, Reckoning.fits_bind]
    exact and_left_comm
  · rfl

theorem follows_product (balances : List Amount) (d : Wide) :
    Follows Word.val (product balances d)
      (Reckoning.chain balances.length d.val (balances.map (·.val)) d.val) :=
  follows_foldlM (follows_factor balances.length d) balances d

theorem follows_terms (balances : List Amount) (amplification : Word 64) :
    Follows Terms.search (terms balances amplification)
      (Reckoning.invariantSearch amplification.val (balances.map (·.val))) := by
  unfold terms Reckoning.invariantSearch
  rw [List.length_map]
  apply (follows_mul _ _ _).bind
  intro leverage
  apply (follows_sub _ _ _).bind
  intro leverageLessOne
  apply (follows_fit _ _).bind
  intro countPlusOne
  apply (follows_total _ _).bind
  intro sum
  apply (follows_mul _ _ _).bind
  intro leveragedSum
  exact follows_pure rfl

theorem follows_step (t : Terms) (d : Wide) :
    Follows Word.val (step t d) (t.search.pass d.val) := by
  unfold step Terms.search Reckoning.invariantPass
  rw [List.length_map]
  apply (follows_product _ _).bind
  intro p
  apply (follows_mul _ _ _).bind
  intro weighted
  apply (follows_add _ _ _).bind
  intro scale
  apply (follows_mul _ _ _).bind
  intro numerator
  apply (follows_mul _ _ _).bind
  intro own
  apply (follows_mul _ _ _).bind
  intro cross
  apply (follows_add _ _ _).bind
  intro denominator
  apply follows_div

/-- The leverage and the number of the assets are in range together, if that number is a machine
    word. -/
theorem leverage_add_lt {n : ℕ} (amplification : Word 64) (h : n < Word.size 64) :
    amplification.val * n + n < Word.size 512 :=
  calc amplification.val * n + n = (amplification.val + 1) * n := by ring
    _ < Word.size 64 * Word.size 64 :=
        Nat.mul_lt_mul_of_le_of_lt amplification.isLt h (Word.size_pos 64)
    _ = Word.size 128 := (Word.size_add 64 64).symm
    _ ≤ Word.size 512 := Word.size_le_size (by decide)

theorem solves (balances : List Amount) (amplification : Word 64) :
    Solves (terms balances amplification) step Terms.sum Terms.search
      (Reckoning.invariantSearch amplification.val (balances.map (·.val))) where
  setUp := follows_terms balances amplification
  step := follows_step
  stands _ := ⟨rfl, rfl⟩

end Invariant

namespace Balance

/-- The search for a balance with the coefficients that stay the same. -/
def Quadratic.search (q : Quadratic) : Search where
  current := q.target.val
  pass := Reckoning.balancePass q.c.val q.b.val q.target.val

theorem follows_factor (n : ℕ) (d c : Wide) (x : Amount) :
    Follows Word.val (factor n d c x) (Reckoning.factor n d.val c.val x.val) := by
  unfold factor Reckoning.factor
  rw [Reckoning.mul_comm n]
  apply (follows_mul _ _ _).bind
  intro product
  apply (follows_mul _ _ _).bind
  intro divisor
  apply follows_div

theorem follows_quadratic (balances : List Amount) (amplification : Word 64) (k : ℕ) (d : Amount) :
    Follows Quadratic.search (quadratic balances amplification k d)
      (Reckoning.balanceSearch amplification.val (balances.map (·.val)) k d.val) := by
  unfold quadratic Reckoning.balanceSearch
  rw [List.length_map, List.eraseIdx_map]
  apply (follows_mul _ _ _).bind
  intro leverage
  apply (follows_total _ _).bind
  intro sum
  apply (follows_foldlM (follows_factor _ d.wide) _ _).bind
  intro partialC
  apply (follows_mul _ _ _).bind
  intro product
  apply (follows_mul _ _ _).bind
  intro divisor
  apply (follows_div _ _).bind
  intro c
  apply (follows_div _ _).bind
  intro share
  apply (follows_add _ _ _).bind
  intro b
  exact follows_pure rfl

theorem follows_step (q : Quadratic) (y : Wide) :
    Follows Word.val (step q y) (q.search.pass y.val) := by
  unfold step Quadratic.search Reckoning.balancePass
  apply (follows_mul _ _ _).bind
  intro square
  apply (follows_add _ _ _).bind
  intro numerator
  apply (follows_mul _ _ _).bind
  intro double
  apply (follows_add _ _ _).bind
  intro shifted
  apply (follows_sub _ _ _).bind
  intro denominator
  apply follows_div

theorem solves (balances : List Amount) (amplification : Word 64) (k : ℕ) (d : Amount) :
    Solves (quadratic balances amplification k d) step Quadratic.target Quadratic.search
      (Reckoning.balanceSearch amplification.val (balances.map (·.val)) k d.val) where
  setUp := follows_quadratic balances amplification k d
  step := follows_step
  stands _ := ⟨rfl, rfl⟩

end Balance

/-- Both solvers agree with their searches over the natural numbers, for all balances, every
    amplification, every asset and every target: an answer is a value at which the search comes to
    rest within its passes, with everything that it has formed up to then in range and no divisor
    of zero, and there is an answer wherever that is so. A solver does not converge exactly if all
    its passes are in range and the last one does not bring it to rest. -/
theorem solvers_agree (balances : List Amount) (amplification : Word 64) (k : ℕ) (d : Amount) :
    let toInvariant := Reckoning.invariantSearch amplification.val (balances.map (·.val))
    let toBalance := Reckoning.balanceSearch amplification.val (balances.map (·.val)) k d.val
    (∀ v : Amount, invariant balances amplification = .ok v ↔
      toInvariant.Fits ∧ toInvariant.value.Finds 255 v.val) ∧
    (invariant balances amplification = .error (.noConvergence "D") ↔
      toInvariant.Fits ∧ toInvariant.value.RunsOut 255) ∧
    (∀ v : Amount, balance balances amplification k d = .ok v ↔
      toBalance.Fits ∧ toBalance.value.Finds 255 v.val) ∧
    (balance balances amplification k d = .error (.noConvergence "y") ↔
      toBalance.Fits ∧ toBalance.value.RunsOut 255) := by
  refine ⟨?_, ?_, ?_, ?_⟩
  · intro v
    exact (Invariant.solves balances amplification).answer_eq_ok_iff
  · exact (Invariant.solves balances amplification).answer_eq_noConvergence_iff
  · intro v
    exact (Balance.solves balances amplification k d).answer_eq_ok_iff
  · exact (Balance.solves balances amplification k d).answer_eq_noConvergence_iff

-- the values go back and forth between two that are more than a unit apart
example : invariant [33, 1] 1 = .error (.noConvergence "D") := by decide +kernel

end StableSwap.Curve
