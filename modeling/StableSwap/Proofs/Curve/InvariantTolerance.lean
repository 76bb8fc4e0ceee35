import StableSwap.Proofs.Curve.InvariantBound
import Mathlib.Topology.Instances.Real.Lemmas
import Mathlib.Topology.Order.IntermediateValue

/-!
# The invariant beside the root of its equation

The invariant equation of positive balances has one root. The solver never falls
below it by a whole unit, but it may come out above it by more: the power of `d` is
formed as a chain of quotients, and what they lose is made up for by a larger value.
Where the chain loses little, the last pass is a step of Newton's method that moves
by one unit at most, and then the root is near, except that the curve may bend
within the last unit when the value is small against the number of balances.

Main statements:

* `exists_unique_root`: the equation has one root that is not negative.
* `root_lt_invariant_succ`: one more than the invariant lies above it.
* `newton_step_excess`: what a short pass can leave above the curve.
* `invariant_excess_le`: what the invariant can exceed the root by, and balances for
  which one less does not exceed it.
* `invariant_excess_lopsidedPair`: balances for which one less does exceed it.
-/

namespace StableSwap.Curve

namespace Exact

variable {leverage : ℕ} {xs : List ℕ} {d : ℕ}

/-! ## The root -/

/-- The real number solves the invariant equation `L·S + t = L·t + t^(n+1) / (nⁿ·Πx)`. -/
def IsRoot (leverage : ℕ) (xs : List ℕ) (t : ℝ) : Prop :=
  leverage * xs.sum + t =
    leverage * t + t ^ (xs.length + 1) / (xs.length ^ xs.length * xs.prod : ℕ)

/-- What the equation asks to be `L·S`. -/
noncomputable def side (leverage n m : ℕ) (t : ℝ) : ℝ := (leverage - 1) * t + t ^ (n + 1) / m

theorem side_strictMonoOn {n m : ℕ} (hleverage : 0 < leverage) (hm : 0 < m) :
    StrictMonoOn (side leverage n m) (Set.Ici 0) := by
  intro t ht u _ htu
  have hm' : (0 : ℝ) < m := by exact_mod_cast hm
  have hleverage' : (1 : ℝ) ≤ leverage := by exact_mod_cast hleverage
  have hlinear : (leverage - 1 : ℝ) * t ≤ (leverage - 1) * u :=
    mul_le_mul_of_nonneg_left htu.le (by linarith)
  have hpow : t ^ (n + 1) / m < u ^ (n + 1) / m :=
    div_lt_div_of_pos_right (pow_lt_pow_left₀ htu ht (Nat.succ_ne_zero n)) hm'
  unfold side
  linarith

/-- Above the curve more is asked than `L·S`. -/
theorem lt_side_of_not_supports (hleverage : 0 < leverage)
    (hm : 0 < xs.length ^ xs.length * xs.prod) (habove : ¬ Supports leverage xs d) :
    (leverage * xs.sum : ℝ) < side leverage xs.length (xs.length ^ xs.length * xs.prod) d := by
  unfold Supports at habove
  generalize xs.length ^ xs.length * xs.prod = m at hm habove ⊢
  generalize xs.length = n at habove ⊢
  have hm' : (0 : ℝ) < m := by exact_mod_cast hm
  obtain ⟨l, rfl⟩ := Nat.exists_eq_add_of_lt hleverage
  rw [Nat.add_sub_cancel, not_le] at habove
  have hreal : ((0 + l + 1 : ℕ) * xs.sum * m : ℝ) < d ^ (n + 1) + (0 + l : ℕ) * d * m := by
    exact_mod_cast habove
  unfold side
  rw [← mul_lt_mul_iff_of_pos_right hm', add_mul, div_mul_cancel₀ _ hm'.ne']
  push_cast at hreal ⊢
  linarith

theorem isRoot_iff {t : ℝ} :
    IsRoot leverage xs t ↔
      side leverage xs.length (xs.length ^ xs.length * xs.prod) t = leverage * xs.sum := by
  unfold IsRoot side
  constructor
  · intro h
    linarith
  · intro h
    linarith

/-- The equation has one root that is not negative, and a value above the curve is larger. -/
theorem exists_unique_root (hleverage : 0 < leverage) (hne : xs ≠ []) (hpos : ∀ x ∈ xs, 0 < x)
    (habove : ¬ Supports leverage xs d) :
    ∃ root : ℝ, 0 ≤ root ∧ IsRoot leverage xs root ∧
      (∀ t : ℝ, 0 ≤ t → IsRoot leverage xs t → t = root) ∧ root < d := by
  have hm := scaledProduct_pos hne hpos
  have htop := lt_side_of_not_supports hleverage hm habove
  simp only [isRoot_iff]
  generalize xs.length ^ xs.length * xs.prod = m at hm htop ⊢
  have hmono := side_strictMonoOn (n := xs.length) hleverage hm
  generalize xs.length = n at htop hmono ⊢
  have hbottom : side leverage n m 0 ≤ leverage * xs.sum := by
    simp only [side, mul_zero, zero_pow (Nat.succ_ne_zero n), zero_div, add_zero]
    positivity
  have hcontinuous : ContinuousOn (side leverage n m) (Set.Icc 0 d) := by
    unfold side
    fun_prop
  obtain ⟨root, ⟨hnonneg, -⟩, hroot⟩ :=
    intermediate_value_Icc (Nat.cast_nonneg d) hcontinuous ⟨hbottom, htop.le⟩
  refine ⟨root, hnonneg, hroot, ?_, ?_⟩
  · intro t ht heq
    exact hmono.injOn ht hnonneg (heq.trans hroot.symm)
  · apply (hmono.lt_iff_lt hnonneg (Set.mem_Ici.2 (Nat.cast_nonneg d))).1
    rwa [hroot]

/-! ## A short pass -/

/-- A power is convex: its middle one of three values is at most the mean of the others. -/
theorem two_mul_pow_le (m k : ℕ) : 2 * (m + 1) ^ k ≤ m ^ k + (m + 2) ^ k := by
  induction k with
  | zero => simp
  | succ k ih =>
    have hmono : m ^ k ≤ (m + 2) ^ k := Nat.pow_le_pow_left (by omega) k
    calc 2 * (m + 1) ^ (k + 1) = (m + 1) * (2 * (m + 1) ^ k) := by ring
      _ ≤ (m + 1) * (m ^ k + (m + 2) ^ k) := Nat.mul_le_mul_left _ ih
      _ = m ^ (k + 1) + m ^ k + (m + 1) * (m + 2) ^ k := by ring
      _ ≤ m ^ (k + 1) + (m + 2) ^ k + (m + 1) * (m + 2) ^ k := by omega
      _ = m ^ (k + 1) + (m + 2) ^ (k + 1) := by ring

/-- Over two units a power grows by no less than its slope in the middle says. -/
theorem pow_add_slope_le (m k : ℕ) :
    m ^ (k + 1) + 2 * ((k + 1) * (m + 1) ^ k) ≤ (m + 2) ^ (k + 1) := by
  induction k with
  | zero => simp
  | succ k ih =>
    have hconvex := two_mul_pow_le m (k + 1)
    calc m ^ (k + 2) + 2 * ((k + 1 + 1) * (m + 1) ^ (k + 1))
        = m ^ (k + 2) + (m + 1) * (2 * ((k + 1) * (m + 1) ^ k)) + 2 * (m + 1) ^ (k + 1) := by ring
      _ ≤ m ^ (k + 2) + (m + 1) * (2 * ((k + 1) * (m + 1) ^ k)) +
            (m ^ (k + 1) + (m + 2) ^ (k + 1)) := Nat.add_le_add_left hconvex _
      _ = (m + 1) * (m ^ (k + 1) + 2 * ((k + 1) * (m + 1) ^ k)) + (m + 2) ^ (k + 1) := by ring
      _ ≤ (m + 1) * (m + 2) ^ (k + 1) + (m + 2) ^ (k + 1) :=
          Nat.add_le_add_right (Nat.mul_le_mul_left _ ih) _
      _ = (m + 2) ^ (k + 2) := by ring

theorem pred_pow_add_slope_le (hd : 0 < d) (n : ℕ) :
    (d - 1) ^ (n + 1) + 2 * ((n + 1) * d ^ n) ≤ (d + 1) ^ (n + 1) := by
  obtain ⟨k, rfl⟩ := Nat.exists_eq_add_of_lt hd
  rw [Nat.zero_add, Nat.add_sub_cancel]
  exact pow_add_slope_le k n

/-- A power bends by less than its slope where the base is large against the exponent. -/
theorem pow_succ_le_two_mul {n d : ℕ} (h : 2 * n ≤ d + 1) : (d + 1) ^ n ≤ 2 * d ^ n := by
  cases n with
  | zero => simp
  | succ k =>
    have htangent := tangent_le_pow k d (d + 1)
    obtain ⟨j, rfl⟩ := Nat.exists_eq_add_of_le (show 2 * k + 1 ≤ d by omega)
    rw [pow_succ (2 * k + 1 + j + 1) k] at htangent ⊢
    nlinarith [Nat.zero_le (j * (2 * k + 1 + j + 1) ^ k)]

/-- What a value `d` can stand above the curve after a short pass from `e`: what the chain misses of
    the power of `e`, and what the power bends by within the last unit. -/
def overshoot (n e d : ℕ) (xs : List ℕ) : ℕ :=
  shortfall n e xs + (n + 1) * ((d + 1) ^ n - 2 * d ^ n)

/-- What a short pass from `e` can leave above the curve: what the product `p` misses of the power
    of `e`, and what the power bends by within the last unit. -/
theorem newton_step_excess {n l a m p e d : ℕ} (hp : p * m ≤ e ^ (n + 1))
    (hstep : d * (l * e + (n + 1) * p) ≤ (a + p * n) * e) (hd : 0 < d) (he : 0 < e)
    (hup : d ≤ e + 1) (hdown : e ≤ d + 1) :
    (d - 1) ^ (n + 1) + l * d * m ≤
      a * m + (e ^ (n + 1) - p * m) + (n + 1) * ((d + 1) ^ n - 2 * d ^ n) := by
  have hmoved : d = e + 1 ∨ d = e ∨ e = d + 1 := by omega
  rcases hmoved with rfl | rfl | rfl
  · -- a pass up
    have hle : l * (e + 1) + p ≤ a := by
      apply Nat.le_of_mul_le_mul_right _ he
      nlinarith
    have hscaled := Nat.mul_le_mul_right m hle
    rw [Nat.add_mul] at hscaled
    rw [Nat.add_sub_cancel]
    omega
  · -- a pass that stays
    have hle : l * d + p ≤ a := by
      apply Nat.le_of_mul_le_mul_right _ hd
      nlinarith
    have hscaled := Nat.mul_le_mul_right m hle
    have hpow : (d - 1) ^ (n + 1) ≤ d ^ (n + 1) := Nat.pow_le_pow_left (Nat.sub_le d 1) _
    rw [Nat.add_mul] at hscaled
    omega
  · -- a pass down by a unit
    have hle : (d + 1) * (l * d + p) ≤ (d + 1) * a + (n + 1) * p := by nlinarith
    have hscaled : l * d * m + p * m ≤ a * m + (n + 1) * (d + 1) ^ n := by
      apply Nat.le_of_mul_le_mul_left _ he
      have h := Nat.mul_le_mul_right m hle
      have h' := Nat.mul_le_mul_left (n + 1) hp
      calc (d + 1) * (l * d * m + p * m) = (d + 1) * (l * d + p) * m := by ring
        _ ≤ ((d + 1) * a + (n + 1) * p) * m := h
        _ = (d + 1) * (a * m) + (n + 1) * (p * m) := by ring
        _ ≤ (d + 1) * (a * m) + (n + 1) * (d + 1) ^ (n + 1) := Nat.add_le_add_left h' _
        _ = (d + 1) * (a * m + (n + 1) * (d + 1) ^ n) := by ring
    have hslope := pred_pow_add_slope_le hd n
    rw [Nat.mul_sub, Nat.mul_left_comm (n + 1) 2]
    omega

/-- A short pass of the solver, in those terms. -/
theorem invariantStep_excess {e : ℕ} (hd : d = invariantStep leverage xs e) (hup : d ≤ e + 1)
    (hdown : e ≤ d + 1) :
    (d - 1) ^ (xs.length + 1) + (leverage - 1) * d * (xs.length ^ xs.length * xs.prod) ≤
      leverage * xs.sum * (xs.length ^ xs.length * xs.prod) +
        overshoot xs.length e d xs := by
  unfold overshoot
  rw [← Nat.add_assoc]
  rcases Nat.eq_zero_or_pos d with hzero | hpos
  · simp [hzero]
  · have he : 0 < e := by
      by_contra hnot
      obtain rfl : e = 0 := by omega
      simp [invariantStep] at hd
      omega
    apply newton_step_excess _ _ hpos he hup hdown
    · exact roundedPower_le xs.length e xs
    · rw [hd]
      exact Nat.div_mul_le_self _ _

/-- The chain misses little where no balance is small against the value, and a power does not bend
    much where the value is large against the number of balances. -/
theorem overshoot_le {r e : ℕ} (hlarge : 2 * xs.length ≤ d + 1)
    (hr : ∀ x ∈ xs, e ≤ r * (xs.length * x)) :
    overshoot xs.length e d xs ≤
      (∑ j ∈ Finset.range xs.length, r ^ j) * (xs.length ^ xs.length * xs.prod) := by
  unfold overshoot
  rw [Nat.sub_eq_zero_of_le (pow_succ_le_two_mul hlarge), Nat.mul_zero, Nat.add_zero]
  exact shortfall_le hr

/-- Where the overshoot is small, one less than the value does not lie above the curve. -/
theorem le_curve_of_overshoot {n l a m s d : ℕ} (hd : 0 < d)
    (h : (d - 1) ^ (n + 1) + l * d * m ≤ a * m + s) (hs : s ≤ l * m) :
    (d - 1) ^ (n + 1) + l * (d - 1) * m ≤ a * m := by
  obtain ⟨c, rfl⟩ := Nat.exists_eq_add_of_lt hd
  have hone : l * (0 + c + 1) * m = l * (0 + c) * m + l * m := by ring
  rw [Nat.add_sub_cancel] at h ⊢
  omega

/-- In any case the overshoot bounds the distance from the root, as far as that is more than one
    unit. -/
theorem sub_root_le_of_overshoot {s : ℕ} (hleverage : 0 < leverage) (hne : xs ≠ [])
    (hpos : ∀ x ∈ xs, 0 < x) (hd : 0 < d)
    (h : (d - 1) ^ (xs.length + 1) + (leverage - 1) * d * (xs.length ^ xs.length * xs.prod) ≤
      leverage * xs.sum * (xs.length ^ xs.length * xs.prod) + s)
    {root : ℝ} (hnonneg : 0 ≤ root) (hroot : IsRoot leverage xs root) :
    (d : ℝ) - root ≤ 1 ∨
      ((leverage : ℝ) - 1) * (xs.length ^ xs.length * xs.prod : ℕ) * (d - root) ≤ s := by
  have hm := scaledProduct_pos hne hpos
  rw [isRoot_iff] at hroot
  unfold side at hroot
  generalize xs.length ^ xs.length * xs.prod = m at hm h hroot ⊢
  generalize xs.length = n at h hroot ⊢
  have hm' : (0 : ℝ) < m := by exact_mod_cast hm
  by_cases hnear : (d : ℝ) - root ≤ 1
  · exact .inl hnear
  · obtain ⟨l, rfl⟩ := Nat.exists_eq_add_of_lt hleverage
    obtain ⟨c, rfl⟩ := Nat.exists_eq_add_of_lt hd
    rw [Nat.add_sub_cancel, Nat.add_sub_cancel] at h
    have hreal : ((0 + c : ℕ) ^ (n + 1) + (0 + l : ℕ) * (0 + c + 1 : ℕ) * m : ℝ) ≤
        (0 + l + 1 : ℕ) * xs.sum * m + s := by exact_mod_cast h
    have hequation : ((0 + l + 1 : ℕ) : ℝ) * xs.sum * m =
        (((0 + l + 1 : ℕ) : ℝ) - 1) * root * m + root ^ (n + 1) := by
      rw [← hroot, add_mul, div_mul_cancel₀ _ hm'.ne']
    have hpow : root ^ (n + 1) ≤ ((0 + c : ℕ) : ℝ) ^ (n + 1) := by
      apply pow_le_pow_left₀ hnonneg
      push_cast at hnear ⊢
      linarith
    right
    push_cast at hreal hequation hpow ⊢
    linarith

end Exact

open Exact Invariant

variable {balances : List Amount} {amplification : Word 64} {d : Amount}

/-- One more than the invariant of positive balances lies above the curve, and above the root of
    the invariant equation. -/
theorem root_lt_invariant_succ (h : invariant balances amplification = .ok d)
    (hpos : ∀ x ∈ balances, 0 < x.val) :
    let n := balances.length
    let leverage := amplification.val * n
    let xs := balances.map (·.val)
    let product := n ^ n * xs.prod
    (leverage * xs.sum * product : ℤ) <
        (d.val + 1) ^ (n + 1) + (leverage - 1) * (d.val + 1) * product ∧
      ∃ root : ℝ, 0 ≤ root ∧ IsRoot leverage xs root ∧
        (∀ t : ℝ, 0 ≤ t → IsRoot leverage xs t → t = root) ∧ root < d.val + 1 := by
  intro n leverage xs product
  have hlength : xs.length = n := List.length_map _
  have hleverage : 0 < leverage := leverage_pos_of_invariant h
  have hne : xs ≠ [] := ne_nil_of_invariant h
  have habove : ¬ Supports leverage xs (d.val + 1) := by
    intro hsupports
    have hle := le_invariant_of_supports h hsupports
    omega
  obtain ⟨root, hnonneg, hroot, hunique, hlt⟩ :=
    exists_unique_root hleverage hne (by simpa [xs] using hpos) habove
  refine ⟨?_, root, hnonneg, hroot, hunique, by exact_mod_cast hlt⟩
  unfold Supports at habove
  rw [not_le, hlength] at habove
  have hless : ((leverage - 1 : ℕ) : ℤ) = leverage - 1 := Nat.cast_pred hleverage
  rw [← hless]
  exact_mod_cast habove

/-- The root for the balances 34 and 1 without amplification lies below 21. -/
theorem root_lt_invariant_succ_pair :
    invariant [34, 1] 1 = .ok 20 ∧
      (2 * 35 * 136 : ℤ) < (20 + 1) ^ 3 + (2 - 1) * (20 + 1) * 136 ∧
      ∃ root : ℝ, 0 ≤ root ∧ IsRoot 2 [34, 1] root ∧
        (∀ t : ℝ, 0 ≤ t → IsRoot 2 [34, 1] t → t = root) ∧ root < (20 : ℕ) + 1 := by
  have h : invariant [34, 1] 1 = .ok 20 := by decide +kernel
  exact ⟨h, root_lt_invariant_succ h (by decide)⟩

/-- The search ends with a short pass, or without any. -/
theorem exists_overshoot (h : invariant balances amplification = .ok d) :
    let n := balances.length
    let leverage := amplification.val * n
    let xs := balances.map (·.val)
    let product := n ^ n * xs.prod
    ∃ e : ℕ, e ≤ d.val + 1 ∧ d.val ≤ e + 1 ∧
      (d.val - 1) ^ (n + 1) + (leverage - 1) * d.val * product ≤
        leverage * xs.sum * product + overshoot n e d.val xs := by
  intro n leverage xs product
  obtain ⟨t, ht, ⟨hsum, hone⟩ | ⟨e, d', hstep, hnear, hd⟩⟩ := last_pass_of_invariant h
  · have hzero : d.val - 1 = 0 := by omega
    have hle : (leverage - 1) * d.val * product ≤ leverage * xs.sum * product := by
      rw [hsum]
      exact Nat.mul_le_mul_right _ (Nat.mul_le_mul_right _ (Nat.sub_le leverage 1))
    refine ⟨d.val, by omega, by omega, ?_⟩
    rw [hzero, zero_pow (Nat.succ_ne_zero n)]
    omega
  · obtain ⟨hd', -⟩ := eq_invariantStep ht hstep
    obtain ⟨hup, hdown⟩ := near_iff.1 hnear
    have hexcess := invariantStep_excess hd' hup hdown
    rw [List.length_map, ← hd] at hexcess
    exact ⟨e.val, by omega, by omega, hexcess⟩

/-- What the invariant of positive balances can exceed the root by. One less than it lies above the
    curve by no more than the overshoot from a value next to it, and it is more than one unit
    away from the root only as far as the overshoot allows. One less does not lie above the curve
    if the invariant is at least twice the number of balances, and no balance is so small against
    the mean share in the invariant, `1 / r` of it, that the powers of `r` add up to more than
    `L − 1`. -/
theorem invariant_excess_le (h : invariant balances amplification = .ok d)
    (hpos : ∀ x ∈ balances, 0 < x.val) :
    let n := balances.length
    let leverage := amplification.val * n
    let xs := balances.map (·.val)
    let product := n ^ n * xs.prod
    (∃ e : ℕ, e ≤ d.val + 1 ∧ d.val ≤ e + 1 ∧
      (d.val - 1) ^ (n + 1) + (leverage - 1) * d.val * product ≤
        leverage * xs.sum * product + overshoot n e d.val xs ∧
      ∀ root : ℝ, 0 ≤ root → IsRoot leverage xs root →
        d.val - root ≤ 1 ∨ (leverage - 1) * product * (d.val - root) ≤ overshoot n e d.val xs) ∧
    ∀ r : ℕ, 2 * n ≤ d.val + 1 → (∀ x ∈ balances, d.val + 1 ≤ r * (n * x.val)) →
      ∑ j ∈ Finset.range n, r ^ j ≤ leverage - 1 →
      (d.val - 1) ^ (n + 1) + (leverage - 1) * (d.val - 1) * product ≤
        leverage * xs.sum * product := by
  intro n leverage xs product
  have hlength : xs.length = n := List.length_map _
  have hd := invariant_pos h hpos
  obtain ⟨e, hup, hdown, hle⟩ := exists_overshoot h
  refine ⟨⟨e, hup, hdown, hle, ?_⟩, ?_⟩
  · intro root hnonneg hroot
    have hleverage : 0 < leverage := leverage_pos_of_invariant h
    have hne : xs ≠ [] := ne_nil_of_invariant h
    have hdistance := sub_root_le_of_overshoot hleverage hne (by simpa [xs] using hpos) hd
      (by rw [hlength]; exact hle) hnonneg hroot
    rwa [hlength] at hdistance
  · intro r hlarge hfactors hgeom
    have hr : ∀ x ∈ xs, e ≤ r * (xs.length * x) := by
      intro x hx
      obtain ⟨y, hy, rfl⟩ := List.mem_map.1 hx
      rw [hlength]
      exact hup.trans (hfactors y hy)
    have hsmall := overshoot_le (by rw [hlength]; exact hlarge) hr
    rw [hlength] at hsmall
    exact le_curve_of_overshoot hd hle (hsmall.trans (Nat.mul_le_mul_right _ hgeom))

/-- For 1000000000 and 1000 the invariant comes out more than four units above the root, and one
    less than it still lies above the curve; for 3000 and 5000 one less does not. -/
theorem invariant_excess_lopsidedPair :
    (invariant [1000000000, 1000] 100 = .ok 89974527 ∧
      ¬ 89974526 ^ 3 + 199 * 89974526 * 4000000000000 ≤ 200 * 1000001000 * 4000000000000 ∧
      ∃ e : ℕ, e ≤ 89974528 ∧ 89974527 ≤ e + 1 ∧
        89974526 ^ 3 + 199 * 89974527 * 4000000000000 ≤
          200 * 1000001000 * 4000000000000 + overshoot 2 e 89974527 [1000000000, 1000]) ∧
    invariant [3000, 5000] 100 = .ok 7997 ∧
      7996 ^ 3 + 199 * 7996 * 60000000 ≤ 200 * 8000 * 60000000 := by
  have hlopsided : invariant [1000000000, 1000] 100 = .ok 89974527 := by decide +kernel
  have hmild : invariant [3000, 5000] 100 = .ok 7997 := by decide +kernel
  obtain ⟨⟨e, hup, hdown, hexcess, -⟩, -⟩ := invariant_excess_le hlopsided (by decide)
  obtain ⟨-, hbelow⟩ := invariant_excess_le hmild (by decide)
  refine ⟨⟨hlopsided, by norm_num, e, hup, hdown, hexcess⟩, hmild, ?_⟩
  exact hbelow 2 (by decide) (by decide) (by decide)

end StableSwap.Curve
