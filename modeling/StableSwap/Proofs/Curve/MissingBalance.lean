import StableSwap.Proofs.Curve.Agreement
import Mathlib.Data.List.TakeWhile

/-!
# The invariant with a balance of zero

The first pass divides by every balance in turn, and ends at the first one that is zero,
unless it has been refused before for a term that is too large. But whether there is a
pass is decided by the sum alone: a single unit is as near to the zero from which the search
starts as two values have to be, so the solver answers with it, whatever is missing beside it.

Main statements:

* `foldlM_factor_of_missing`: a product goes as far as the first missing balance.
* `invariant_eq_untilMissing`: of balances of more than one in all, the solver does what leads
  there and is refused.
* `invariant_of_missing`: which balances have an invariant although one of them is zero, and for
  what the others are refused.
-/

namespace StableSwap.Curve

open Exact

/-- What the search for the invariant of `xs` forms until it divides by a missing balance. -/
def Exact.Reckoning.untilMissing (amplification : ℕ) (xs : List ℕ) : Reckoning ℕ := do
  let search ← invariantSearch amplification xs
  let p ← chain xs.length search.current (xs.takeWhile (0 < ·)) search.current
  mul p search.current

namespace Invariant

variable {balances : List Amount} {amplification : Word 64}

/-- The steps of a product until it is divided by a missing balance. -/
def productUntilMissing (balances : List Amount) (d : Wide) : Except PoolError Wide := do
  let p ← (balances.takeWhile (0 < ·.val)).foldlM (factor balances.length d) d
  p.mul d "D: D_P·D"

/-- The steps of the search until it divides by a missing balance. -/
def untilMissing (balances : List Amount) (amplification : Word 64) : Except PoolError Wide := do
  let t ← terms balances amplification
  productUntilMissing balances t.sum

theorem factor_missing (n : ℕ) (d p : Wide) :
    factor n d p 0 = (do let _ ← p.mul d "D: D_P·D"; .error .divisionByZero) := by
  obtain ⟨divisor, hdivisor, hzero⟩ :
      ∃ divisor, (0 : Amount).wide.mul n "D: n·x" = .ok divisor ∧ divisor.val = 0 :=
    ⟨0, Word.mul_eq_ok_iff.2 (Nat.zero_mul n).symm, rfl⟩
  have hquotient (w : Wide) : w.div divisor.val = .error .divisionByZero :=
    Word.div_eq_error_iff.2 ⟨hzero, rfl⟩
  unfold factor
  rw [hdivisor, ok_bind]
  simp only [hquotient]

/-- A product over balances of which one is missing goes as far as the first that is. -/
theorem foldlM_factor_of_missing {n : ℕ} {d p : Wide} (hmissing : 0 ∈ balances) :
    balances.foldlM (factor n d) p = (do
      let q ← (balances.takeWhile (0 < ·.val)).foldlM (factor n d) p
      let _ ← q.mul d "D: D_P·D"
      .error .divisionByZero) := by
  induction balances generalizing p with
  | nil => exact absurd hmissing List.not_mem_nil
  | cons x xs ih =>
    rw [List.foldlM_cons]
    by_cases hx : 0 < x.val
    · have hne : (0 : Amount) ≠ x := by
        rintro rfl
        exact absurd hx (Nat.lt_irrefl 0)
      have hrest := List.mem_of_ne_of_mem hne hmissing
      rw [List.takeWhile_cons_of_pos (by exact decide_eq_true hx), List.foldlM_cons, bind_assoc]
      simp only [ih hrest]
    · obtain rfl : x = 0 := Word.ext (Nat.eq_zero_of_not_pos hx)
      rw [List.takeWhile_cons_of_neg (by simp), factor_missing, bind_assoc, List.foldlM_nil,
        pure_bind]
      rfl

/-- A pass over balances of which one is missing goes as far as the first that is. -/
theorem step_of_missing {t : Terms} {d : Wide} (hmissing : 0 ∈ t.balances) :
    step t d = (do let _ ← productUntilMissing t.balances d; .error .divisionByZero) := by
  unfold step product productUntilMissing
  rw [foldlM_factor_of_missing hmissing]
  simp only [bind_assoc, error_bind]

theorem follows_untilMissing (balances : List Amount) (amplification : Word 64) :
    Follows Word.val (untilMissing balances amplification)
      (Reckoning.untilMissing amplification.val (balances.map (·.val))) := by
  unfold untilMissing productUntilMissing Reckoning.untilMissing
  rw [List.length_map, List.takeWhile_map]
  apply (follows_terms _ _).bind
  intro t
  apply (follows_foldlM (follows_factor _ t.sum) _ _).bind
  intro p
  apply follows_mul

theorem refusedOnlyFor_untilMissing (balances : List Amount) (amplification : Word 64) :
    RefusedOnlyFor IsOverflow (untilMissing balances amplification) := by
  unfold untilMissing productUntilMissing
  apply (refusedOnlyFor_terms (fun term _ => isOverflow term) _ _).bind
  intro t ht
  have hlength := Nat.pos_of_mul_pos_left (leverage_pos_of_terms ht)
  apply (refusedOnlyFor_factors (fun term _ => isOverflow term) _).bind
  · intro p _
    exact Word.refusedOnlyFor_mul (isOverflow _)
  · intro x hx hzero
    have hpos := List.mem_takeWhile_imp hx
    exact absurd hzero (Nat.mul_pos (of_decide_eq_true hpos) hlength).ne'

end Invariant

open Invariant

variable {balances : List Amount} {amplification : Word 64}

/-- Of balances of more than one in all of which one is missing, the solver does what leads to the
    division by it, and is refused. -/
theorem invariant_eq_untilMissing (hmissing : 0 ∈ balances)
    (hsum : 1 < (balances.map (·.val)).sum) :
    invariant balances amplification = (do
      let _ ← untilMissing balances amplification
      .error .divisionByZero) := by
  unfold invariant report search untilMissing
  cases hterms : terms balances amplification with
  | error e =>
    rw [error_bind, error_bind, error_bind]
    rfl
  | ok t =>
    obtain ⟨hbalances, -, -, htotal, -⟩ := terms_eq_ok hterms
    have hfar : near t.sum 0 = false := near_zero_eq_false (htotal ▸ hsum)
    have hrefused (e : PoolError) (he : step t t.sum = .error e) :
        settle (step t) passLimit 0 t.sum = .error e := settle_succ_of_refused hfar he
    have hstep := @step_of_missing t t.sum (hbalances.symm ▸ hmissing)
    rw [hbalances] at hstep
    rw [ok_bind, ok_bind]
    cases hformed : productUntilMissing balances t.sum with
    | error e =>
      rw [hformed, error_bind] at hstep
      rw [hrefused e hstep, error_bind]
      rfl
    | ok r =>
      rw [hformed, ok_bind] at hstep
      rw [hrefused _ hstep, ok_bind]
      rfl

/-- Balances of one at most in all have an invariant, which is their sum: no pass is made. -/
theorem invariant_eq_ok_iff_of_sum_le (hnone : balances ≠ []) (hamp : 0 < amplification.val)
    (hlength : balances.length < Word.size 64) (hsum : (balances.map (·.val)).sum ≤ 1)
    {d : Amount} :
    invariant balances amplification = .ok d ↔ d.val = (balances.map (·.val)).sum := by
  constructor
  · intro h
    exact eq_sum_of_invariant h hsum
  · intro hd
    apply (solves balances amplification).answer_eq_ok_iff.2
    have hcurrent := (Reckoning.value_invariantSearch amplification.val (balances.map (·.val))).1
    have hleverage : 0 < amplification.val * balances.length :=
      Nat.mul_pos hamp (List.length_pos_iff.2 hnone)
    have hrange := leverage_add_lt amplification hlength
    have hleveraged : amplification.val * balances.length * (balances.map (·.val)).sum ≤
        amplification.val * balances.length * 1 := Nat.mul_le_mul_left _ hsum
    have hcount : balances.length + 1 < Word.size 512 :=
      (show balances.length + 1 ≤ Word.size 64 from hlength).trans_lt
        (Word.size_lt_size (by decide))
    constructor
    · have hcounted : (balances.map (·.val)).length = balances.length := List.length_map _
      rw [← hcounted] at hleverage hrange hleveraged hcount
      apply Reckoning.fits_invariantSearch
      all_goals omega
    · refine (Search.finds_of_atRest ?_).2 (hcurrent.trans hd.symm)
      rw [Search.AtRest, hcurrent, Reckoning.previous_invariantSearch]
      omega

/-- Balances of which one is missing have an invariant exactly if they are one at most in all, and
    then it is their sum. Of more than that, the solver is refused for the division by the missing
    balance if everything formed before it is in range, and otherwise for a term that is too large;
    it never fails to come to rest. -/
theorem invariant_of_missing (hmissing : 0 ∈ balances) (hamp : 0 < amplification.val)
    (hlength : balances.length < Word.size 64) :
    let sum := (balances.map (·.val)).sum
    let formed := Reckoning.untilMissing amplification.val (balances.map (·.val))
    (∀ d : Amount, invariant balances amplification = .ok d ↔ sum ≤ 1 ∧ d.val = sum) ∧
      (1 < sum →
        (formed.Fits → invariant balances amplification = .error .divisionByZero) ∧
        (¬ formed.Fits → ∃ term, invariant balances amplification = .error (.overflow term))) := by
  intro sum formed
  have hfollows := follows_untilMissing balances amplification
  constructor
  · intro d
    rcases Nat.lt_or_ge 1 sum with hsum | hsum
    · constructor
      · intro h
        exact absurd (pos_of_invariant h hsum 0 hmissing) (Nat.lt_irrefl 0)
      · intro h
        omega
    · rw [and_iff_right hsum]
      exact invariant_eq_ok_iff_of_sum_le (List.ne_nil_of_mem hmissing) hamp hlength hsum
  · intro hsum
    rw [invariant_eq_untilMissing hmissing hsum]
    constructor
    · intro hfits
      obtain ⟨r, hr, -⟩ := hfollows.exists_ok hfits
      rw [hr, ok_bind]
    · intro hfits
      cases hr : untilMissing balances amplification with
      | ok r => exact absurd (hfollows.of_ok hr).1 hfits
      | error e =>
        obtain ⟨term, rfl⟩ := refusedOnlyFor_untilMissing balances amplification e hr
        exact ⟨term, error_bind _ _⟩

/-- Beside a missing balance, a thousand units have no invariant, nor have three balances of half
    the range of an amount; a single unit has one. -/
theorem invariant_of_missing_units :
    let half : Amount := ⟨Word.size 255, Word.size_lt_size (by decide)⟩
    invariant [1000, 0] 100 = .error .divisionByZero ∧
      (∃ term, invariant [half, half, half, 0] 100 = .error (.overflow term)) ∧
      invariant [1, 0] 100 = .ok 1 := by
  intro half
  refine ⟨?_, ?_, ?_⟩
  · apply ((@invariant_of_missing [1000, 0] 100 _ _ _).2 _).1
    all_goals decide +kernel
  · apply ((@invariant_of_missing [half, half, half, 0] 100 _ _ _).2 _).2
    all_goals decide +kernel
  · apply ((@invariant_of_missing [1, 0] 100 _ _ _).1 1).2
    all_goals decide +kernel

end StableSwap.Curve
