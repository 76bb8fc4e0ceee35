import StableSwap.Proofs.Curve.BalanceBound
import Mathlib.Analysis.Real.Sqrt

/-!
# The balance to within one unit

The balance solver stops after a pass that moves the value by one unit at most.
Such a pass is short because the value before it is next to the root, whichever
side it comes from: a pass that goes up began below the root, and one that goes
down by a single unit ended less than a unit above it.

Main statements:

* `not_exceeds_of_step`: what is less than the outcome of a short pass does not lie
  above the root.
* `exists_isGreatest_root`: the quadratic has a largest root, and it is not negative.
* `balance_within_one`: the answer of the solver is the root rounded down, or one
  more.
-/

namespace StableSwap.Curve

namespace Balance

variable {q : Quadratic} {y y' : Wide} {z : ℕ}

/-- What is less than the outcome of a short pass does not lie above the root. -/
theorem not_exceeds_of_step (h : step q y = .ok y') (hnear : near y' y = true)
    (hz : y'.val = z + 1) : ¬ q.Exceeds z := by
  obtain ⟨hy', hdivisor⟩ := eq_balanceStep h
  obtain ⟨hup, hdown⟩ := near_iff.1 hnear
  intro hexceeds
  have hfactor := hexceeds.factor_pos
  have hpos : (0 : ℤ) < z := by exact_mod_cast hexceeds.pos
  have hfloor : (z + 1) * (y.val * 2 + q.b.val - q.target.val) ≤ y.val * y.val + q.c.val := by
    rw [← hz, hy', Exact.balanceStep]
    exact Nat.div_mul_le_self _ _
  have hint : ((z : ℤ) + 1) * (y.val * 2 + (q.b.val - q.target.val)) ≤
      y.val * y.val + q.c.val := by
    have hcast := Nat.cast_sub (R := ℤ) hdivisor.le
    push_cast at hcast
    rw [← add_sub_assoc, ← hcast]
    exact_mod_cast hfloor
  unfold Quadratic.Exceeds at hexceeds
  have hmoved : y.val = z ∨ y.val = z + 1 ∨ y.val = z + 2 := by omega
  rcases hmoved with hy | hy | hy
  · -- a pass up from `z`: it would not go up from above the root
    rw [hy] at hint
    nlinarith
  · -- a pass that stays
    rw [hy] at hint
    push_cast at hint
    nlinarith
  · -- a pass down by one unit: one from above the root leads less than a unit beyond it
    rw [hy] at hint
    push_cast at hint
    nlinarith

/-- What is less than the answer of the solver does not lie above the root. -/
theorem not_exceeds_of_balance {balances : List Amount} {amplification : Word 64} {k : ℕ}
    {d a : Amount} (h : balance balances amplification k d = .ok a)
    (hq : quadratic balances amplification k d = .ok q) (hz : a.val = z + 1) :
    ¬ q.Exceeds z := by
  obtain ⟨q', hq', hlast⟩ := last_pass_of_balance h
  obtain rfl : q = q' := Except.ok.inj (hq.symm.trans hq')
  rcases hlast with ⟨-, hone⟩ | ⟨y, y', hstep, hnear, ha⟩
  · -- nothing is less than an answer of one but zero
    intro hexceeds
    have hpos := hexceeds.pos
    omega
  · exact not_exceeds_of_step hstep hnear (by omega)

end Balance

open Balance

/-- The quadratic `t² + β·t = c` has a largest root, and it is not negative. -/
theorem exists_isGreatest_root (β : ℝ) {c : ℝ} (hc : 0 ≤ c) :
    ∃ root : ℝ, 0 ≤ root ∧ IsGreatest {t : ℝ | t * t + β * t = c} root := by
  have hdiscriminant : 0 ≤ β ^ 2 + 4 * c := by positivity
  have hsquare := Real.mul_self_sqrt hdiscriminant
  have hnonneg := Real.sqrt_nonneg (β ^ 2 + 4 * c)
  have habs : |β| ≤ √(β ^ 2 + 4 * c) := Real.abs_le_sqrt (by linarith)
  generalize √(β ^ 2 + 4 * c) = s at hsquare hnonneg habs
  refine ⟨(s - β) / 2, by linarith [le_abs_self β], ?_, ?_⟩
  · show (s - β) / 2 * ((s - β) / 2) + β * ((s - β) / 2) = c
    linarith
  · intro t ht
    have ht' : t * t + β * t = c := ht
    by_contra hlt
    rw [not_le] at hlt
    nlinarith

/-- A value that is not above the root is at most the largest one. -/
theorem le_of_isGreatest_root {β c root t : ℝ}
    (hroot : IsGreatest {t : ℝ | t * t + β * t = c} root) (ht : t * t + β * t ≤ c) :
    t ≤ root := by
  have heq : root * root + β * root = c := hroot.1
  -- the two roots add up to `-β`
  have hother : -β - root ≤ root := hroot.2 (by show (-β - root) * (-β - root) + _ = c; linarith)
  by_contra hlt
  rw [not_le] at hlt
  nlinarith

/-- A natural number less than a unit away from a real number is that number rounded down, or one
    more. -/
theorem eq_floor_or_succ {root : ℝ} {y : ℕ} (hnonneg : 0 ≤ root) (habove : root < y + 1)
    (hbelow : (y : ℝ) - 1 ≤ root) : y = ⌊root⌋₊ ∨ y = ⌊root⌋₊ + 1 := by
  have hle : ⌊root⌋₊ < y + 1 := (Nat.floor_lt hnonneg).2 (by exact_mod_cast habove)
  have hge : y < ⌊root⌋₊ + 2 := by
    have hfloor := Nat.lt_floor_add_one root
    have hreal : (y : ℝ) < ⌊root⌋₊ + 2 := by linarith
    exact_mod_cast hreal
  omega

/-- The answer of the balance solver is exact to one unit, for all balances, every amplification,
    every asset and every target: one more lies above the root of the quadratic, and one less does
    not. So the answer is the root rounded down, or one more. Of two roots that are not negative,
    which there are only without a `c`, the larger one is meant. -/
theorem balance_within_one {balances : List Amount} {amplification : Word 64} {k : ℕ}
    {d y : Amount} (h : balance balances amplification k d = .ok y) :
    let n := balances.length
    let leverage := amplification.val * n
    let given := (balances.eraseIdx k).map (·.val)
    let c := Exact.coefficientC n leverage given d.val
    let b := Exact.coefficientB leverage given d.val
    (c : ℤ) < ((y.val : ℤ) + 1) ^ 2 + ((b : ℤ) - d.val) * (y.val + 1) ∧
      (y.val = 0 ∨ ((y.val : ℤ) - 1) ^ 2 + ((b : ℤ) - d.val) * (y.val - 1) ≤ c) ∧
      ∃ root : ℝ, 0 ≤ root ∧ IsGreatest {t : ℝ | t * t + ((b : ℝ) - d.val) * t = c} root ∧
        (y.val = ⌊root⌋₊ ∨ y.val = ⌊root⌋₊ + 1) := by
  intro n leverage given c b
  obtain ⟨q, hq, hexceeds⟩ := exceeds_of_balance h
  obtain ⟨htarget, hc, hb⟩ := eq_coefficients hq
  have hbelow : y.val = 0 ∨
      ((y.val : ℤ) - 1) ^ 2 + ((b : ℤ) - d.val) * (y.val - 1) ≤ c := by
    rcases Nat.eq_zero_or_eq_succ_pred y.val with hzero | hsucc
    · exact .inl hzero
    · have hle := not_exceeds_of_balance h hq hsucc
      unfold Quadratic.Exceeds at hle
      have hpred : ((y.val.pred : ℕ) : ℤ) = y.val - 1 := by omega
      rw [hc, hb, htarget, not_lt, hpred, ← sq] at hle
      exact .inr hle
  obtain ⟨root, hnonneg, hroot⟩ :=
    exists_isGreatest_root ((b : ℝ) - d.val) (c := c) (Nat.cast_nonneg c)
  refine ⟨?_, hbelow, root, hnonneg, hroot, ?_⟩
  · unfold Quadratic.Exceeds at hexceeds
    rw [hc, hb, htarget, ← sq] at hexceeds
    exact_mod_cast hexceeds
  · have hlt := hexceeds.root_lt hnonneg (by rw [hc, hb, htarget]; exact hroot.1)
    apply eq_floor_or_succ hnonneg (by exact_mod_cast hlt)
    rcases hbelow with hzero | hbelow
    · rw [hzero, Nat.cast_zero]
      linarith
    · apply le_of_isGreatest_root hroot
      rw [← sq]
      exact_mod_cast hbelow

/-- The root of `t² − 12·t = 132` lies between 18 and 19, and the answer is 19. -/
theorem balance_within_one_unevenTriple :
    balance [2, 7, 3] 2 0 26 = .ok 19 ∧
      (132 : ℤ) < (19 + 1) ^ 2 + (14 - 26) * (19 + 1) ∧
      ((19 : ℕ) = 0 ∨ ((19 : ℤ) - 1) ^ 2 + (14 - 26) * (19 - 1) ≤ 132) ∧
      ∃ root : ℝ, 0 ≤ root ∧
        IsGreatest {t : ℝ | t * t + ((14 : ℕ) - (26 : ℕ)) * t = (132 : ℕ)} root ∧
        (19 = ⌊root⌋₊ ∨ 19 = ⌊root⌋₊ + 1) := by
  have h : balance [2, 7, 3] 2 0 26 = .ok 19 := by decide +kernel
  exact ⟨h, balance_within_one h⟩

end StableSwap.Curve
