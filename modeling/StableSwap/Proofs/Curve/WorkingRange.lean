import StableSwap.Proofs.Curve.Agreement
import StableSwap.Proofs.Curve.Enclosure

/-!
# The working range

What the search for the invariant forms on its way grows with the balances and, in the
product of quotients, with a power of their ratio. The values of the search need not fall,
and it need not come to rest; but all of them are enclosed, and that alone bounds what a
pass forms by the numerator of a pass from twice the sum. As long as this numerator is in
range, the solver is refused for nothing but not coming to rest.

Main statements:

* `Reckoning.fits_chain`, `Manageable.fits_pass`: what the product and the pass form is in range.
* `Manageable.refusedOnlyFor_invariant`: balances whose largest numerator is in range are refused
  only for not coming to rest.
* `invariant_in_range`: two to eight balances up to `2 ^ 130` are of that kind, if none of them
  is more than `2 ^ 28` times another.
-/

namespace StableSwap.Curve

namespace Exact

variable {n d r leverage amplification : ℕ} {xs : List ℕ}

/-- The product of quotients is in range if its bound is. -/
theorem Reckoning.fits_chain (hfactor : 0 < r) (hr : ∀ x ∈ xs, d ≤ r * (n * x))
    (hdivisor : ∀ x ∈ xs, n * x ≠ 0 ∧ n * x < Word.size 512) {p : ℕ}
    (hrange : p * r ^ xs.length * d < Word.size 512) : (chain n d xs p).Fits := by
  induction xs generalizing p with
  | nil => exact fits_pure p
  | cons x xs ih =>
    obtain ⟨hne, hfits⟩ := hdivisor x List.mem_cons_self
    have hquotient := quotient_le (hr x List.mem_cons_self) p
    have hproduct : p * d < Word.size 512 := by
      have hone : p ≤ p * r ^ (x :: xs).length := Nat.le_mul_of_pos_right p (Nat.pow_pos hfactor)
      exact (Nat.mul_le_mul_right d hone).trans_lt hrange
    have hrest : p * d / (n * x) * r ^ xs.length * d < Word.size 512 := by
      refine Nat.lt_of_le_of_lt (Nat.mul_le_mul_right d ?_) hrange
      calc p * d / (n * x) * r ^ xs.length ≤ p * r * r ^ xs.length :=
            Nat.mul_le_mul_right _ hquotient
        _ = p * r ^ (xs.length + 1) := by ring
    rw [chain, List.foldlM_cons, fits_bind]
    constructor
    · simp only [factor, fits_bind, fits_mul, fits_div]
      exact ⟨hproduct, hfits, hne⟩
    · exact ih (fun y hy => hr y (List.mem_cons_of_mem x hy))
        (fun y hy => hdivisor y (List.mem_cons_of_mem x hy)) hrest

/-- Balances for which nothing that the search forms is out of range: twice their sum is at most
    `r` times the number of them times any of them, and the numerator of a pass from twice the sum
    is in range, where every quotient enlarges the product by `r`. -/
structure Manageable (leverage r : ℕ) (xs : List ℕ) : Prop where
  two_le_leverage : 2 ≤ leverage
  two_le_length : 2 ≤ xs.length
  pos : ∀ x ∈ xs, 0 < x
  factor_le : ∀ x ∈ xs, 2 * xs.sum ≤ r * (xs.length * x)
  numerator_lt : (leverage * xs.sum + 2 * xs.sum * r ^ xs.length * xs.length) * (2 * xs.sum) <
    Word.size 512

/-- A value that is enclosed is at most twice the sum. -/
theorem Enclosed.le_two_mul_sum (h : Enclosed leverage xs d) (hleverage : 2 ≤ leverage) :
    d ≤ 2 * xs.sum := by
  have hdouble : leverage * xs.sum ≤ (leverage - 1) * (2 * xs.sum) := by
    rw [← Nat.mul_assoc]
    exact Nat.mul_le_mul_right _ (by omega)
  exact Nat.le_of_mul_le_mul_left (h.le_sum.trans hdouble) (by omega)

namespace Manageable

theorem length_le_sum (h : Manageable leverage r xs) : xs.length ≤ xs.sum := by
  have hleast := (enclosed_sum leverage xs).least_le 1 h.pos
  omega

theorem factor_pos (h : Manageable leverage r xs) : 0 < r := by
  have htwo := h.two_le_length
  have hsum := h.length_le_sum
  obtain ⟨x, hx⟩ := List.exists_mem_of_length_pos (by omega : 0 < xs.length)
  have hfactor := h.factor_le x hx
  exact Nat.pos_of_mul_pos_right (by omega : 0 < r * (xs.length * x))

/-- The square of twice the sum is in range, even times the number of the balances and the powers
    of the factor. -/
theorem square_lt (h : Manageable leverage r xs) :
    2 * xs.sum * r ^ xs.length * xs.length * (2 * xs.sum) < Word.size 512 :=
  (Nat.mul_le_mul_right _ (Nat.le_add_left _ _)).trans_lt h.numerator_lt

/-- Every divisor of the product is in range. -/
theorem divisor_lt (h : Manageable leverage r xs) {x : ℕ} (hx : x ∈ xs) :
    xs.length * x ≠ 0 ∧ xs.length * x < Word.size 512 := by
  have htwo := h.two_le_length
  have hcount := h.length_le_sum
  have hx' : x ≤ 2 * xs.sum := by
    have := List.le_sum_of_mem hx
    omega
  have hpow : 0 < 2 * xs.sum * r ^ xs.length :=
    Nat.mul_pos (by omega) (Nat.pow_pos h.factor_pos)
  refine ⟨(Nat.mul_pos (by omega) (h.pos x hx)).ne', ?_⟩
  exact (Nat.mul_le_mul (Nat.le_mul_of_pos_left _ hpow) hx').trans_lt h.square_lt

/-- Twice the sum is an amount. -/
theorem two_mul_sum_lt (h : Manageable leverage r xs) : 2 * xs.sum < Word.size 256 := by
  have htwo := h.two_le_length
  have hpow : 0 < r ^ xs.length := Nat.pow_pos h.factor_pos
  have hsquare : 2 * xs.sum * (2 * xs.sum) < Word.size 256 * Word.size 256 := by
    rw [← Word.size_add]
    refine Nat.lt_of_le_of_lt (Nat.mul_le_mul_right _ ?_) h.square_lt
    exact (Nat.le_mul_of_pos_right _ hpow).trans (Nat.le_mul_of_pos_right _ (by omega))
  exact Nat.mul_self_lt_mul_self_iff.1 hsquare

/-- The search can begin. -/
theorem fits_search (h : Manageable (amplification * xs.length) r xs) :
    (Reckoning.invariantSearch amplification xs).Fits := by
  have htwo := h.two_le_length
  have hleverage := h.two_le_leverage
  have hcount := h.length_le_sum
  have hsum := h.two_mul_sum_lt
  have hwide : Word.size 256 < Word.size 512 := Word.size_lt_size (by decide)
  have hleveraged : amplification * xs.length * xs.sum < Word.size 512 := by
    refine Nat.lt_of_le_of_lt ?_ h.numerator_lt
    exact (Nat.le_add_right _ _).trans (Nat.le_mul_of_pos_right _ (by omega))
  have hlever : amplification * xs.length ≤ amplification * xs.length * xs.sum :=
    Nat.le_mul_of_pos_right _ (by omega)
  apply Reckoning.fits_invariantSearch <;> omega

/-- Everything that a pass from an enclosed value forms is in range. -/
theorem fits_pass (h : Manageable leverage r xs) (hd : Enclosed leverage xs d) :
    (Reckoning.invariantPass (leverage - 1) (xs.length + 1) (leverage * xs.sum) xs d).Fits := by
  have htwo := h.two_le_length
  have hleverage := h.two_le_leverage
  have hleast : 2 ≤ d := by
    have := hd.least_le 1 h.pos
    omega
  have htop := hd.le_two_mul_sum hleverage
  have hfactor : ∀ x ∈ xs, d ≤ r * (xs.length * x) := fun x hx => htop.trans (h.factor_le x hx)
  have hchain := chain_le_mul_pow hfactor d
  have hproduct : d * r ^ xs.length ≤ 2 * xs.sum * r ^ xs.length := Nat.mul_le_mul_right _ htop
  have hfits : (Reckoning.chain xs.length d xs d).Fits := by
    apply Reckoning.fits_chain h.factor_pos hfactor fun x hx => h.divisor_lt hx
    refine Nat.lt_of_le_of_lt (Nat.mul_le_mul ?_ htop) h.square_lt
    exact hproduct.trans (Nat.le_mul_of_pos_right _ (by omega))
  simp only [Reckoning.invariantPass, Reckoning.fits_bind, Reckoning.fits_mul, Reckoning.fits_add,
    Reckoning.fits_div, Reckoning.value_add, Reckoning.value_mul, Reckoning.value_chain]
  have hnumerator : (leverage * xs.sum + chain xs.length d xs d * xs.length) * d <
      Word.size 512 := by
    refine Nat.lt_of_le_of_lt (Nat.mul_le_mul ?_ htop) h.numerator_lt
    exact Nat.add_le_add_left (Nat.mul_le_mul_right _ (hchain.trans hproduct)) _
  have hown := hd.le_sum
  generalize chain xs.length d xs d = p at hnumerator hfits
  -- the divisor is at most twice the scale, and the numerator is the scale times `d`
  have hscale : (leverage * xs.sum + p * xs.length) * 2 ≤ (leverage * xs.sum + p * xs.length) * d :=
    Nat.mul_le_mul_left _ hleast
  have hcount : p * 2 ≤ p * xs.length := Nat.mul_le_mul_left _ htwo
  have hcross : (xs.length + 1) * p = p * xs.length + p := by ring
  have hpositive : 0 < (leverage - 1) * d := Nat.mul_pos (by omega) (by omega)
  refine ⟨hfits, ?_, ?_, hnumerator, ?_, ?_, ?_, ?_⟩ <;> omega

end Manageable

end Exact

open Exact Invariant

variable {balances : List Amount} {amplification : Word 64}

/-- The search for the invariant of such balances is not refused. -/
theorem Exact.Manageable.not_refused_search {r : ℕ}
    (h : Manageable (amplification.val * balances.length) r (balances.map (·.val))) :
    RefusedOnlyFor (fun _ => False) (search balances amplification) := by
  have hlength : (balances.map (·.val)).length = balances.length := List.length_map _
  have hterms := follows_terms balances amplification
  have hsearch := h
  rw [← hlength] at hsearch
  unfold search
  refine (hterms.not_refused hsearch.fits_search).bind ?_
  intro t ht
  apply refusedOnlyFor_settle
  intro d hd
  refine (follows_step t d).not_refused ?_
  rw [(hterms.of_ok ht).2, Reckoning.pass_invariantSearch]
  have hfits := h.fits_pass (enclosed_of_visits ht hd)
  rwa [← hlength] at hfits

/-- The solver is refused for such balances only if its search does not come to rest. -/
theorem Exact.Manageable.refusedOnlyFor_invariant {r : ℕ}
    (h : Manageable (amplification.val * balances.length) r (balances.map (·.val))) :
    RefusedOnlyFor (· = .noConvergence "D") (invariant balances amplification) := by
  intro e he
  rw [invariant, report, Report.answer_eq_error_iff] at he
  obtain hrefused | ⟨halt, hsearch, ⟨-, hlarge, -⟩ | ⟨-, hrest⟩⟩ := he
  · exact (h.not_refused_search e hrefused).elim
  · -- the last value is enclosed as well, so that it is an amount
    rw [search, bind_eq_ok_iff] at hsearch
    obtain ⟨t, ht, hsettle⟩ := hsearch
    have htop := (enclosed_of_settle ht hsettle).le_two_mul_sum h.two_le_leverage
    have hsum := h.two_mul_sum_lt
    omega
  · exact hrest

/-- Two to eight balances within a moderate range and ratio are of that kind. -/
theorem manageable_of_range {least most : ℕ} (htwo : 2 ≤ balances.length)
    (height : balances.length ≤ 8) (hamp : 0 < amplification.val) (hleast : 1 ≤ least)
    (hrange : ∀ x ∈ balances, least ≤ x.val ∧ x.val ≤ most) (hmost : most ≤ 2 ^ 130)
    (hratio : most ≤ 2 ^ 28 * least) :
    Manageable (amplification.val * balances.length) (2 ^ 29) (balances.map (·.val)) := by
  have hlength : (balances.map (·.val)).length = balances.length := List.length_map _
  have hsum : (balances.map (·.val)).sum ≤ balances.length * most := by
    rw [← hlength]
    exact List.sum_le_card_nsmul _ _ (by simpa using fun x hx => (hrange x hx).2)
  constructor
  · exact htwo.trans (Nat.le_mul_of_pos_left _ hamp)
  · rwa [hlength]
  · intro y hy
    obtain ⟨x, hx, rfl⟩ := List.mem_map.1 hy
    exact hleast.trans (hrange x hx).1
  · intro y hy
    obtain ⟨x, hx, rfl⟩ := List.mem_map.1 hy
    rw [hlength]
    calc 2 * (balances.map (·.val)).sum ≤ 2 * (balances.length * most) :=
          Nat.mul_le_mul_left _ hsum
      _ ≤ 2 * (balances.length * (2 ^ 28 * least)) :=
          Nat.mul_le_mul_left _ (Nat.mul_le_mul_left _ hratio)
      _ ≤ 2 * (balances.length * (2 ^ 28 * x.val)) := by
          gcongr
          exact (hrange x hx).1
      _ = 2 ^ 29 * (balances.length * x.val) := by ring
  · have hlever : amplification.val * balances.length ≤ 2 ^ 64 * 8 :=
      Nat.mul_le_mul amplification.isLt.le height
    have hbound : (balances.map (·.val)).sum ≤ 8 * 2 ^ 130 :=
      hsum.trans (Nat.mul_le_mul height hmost)
    have hpow : (2 ^ 29) ^ balances.length ≤ (2 ^ 29) ^ 8 :=
      Nat.pow_le_pow_right (by decide) height
    rw [hlength]
    calc _ ≤ (2 ^ 64 * 8 * (8 * 2 ^ 130) + 2 * (8 * 2 ^ 130) * (2 ^ 29) ^ 8 * 8) *
            (2 * (8 * 2 ^ 130)) := by gcongr
      _ < Word.size 512 := by decide +kernel

/-- The search for the invariant of two to eight positive balances, none of which is more than
    `2 ^ 130` or more than `2 ^ 28` times another, is refused for nothing but not coming to rest,
    for every amplification: no term is out of range, and no divisor is zero. -/
theorem invariant_in_range {least most : ℕ} (htwo : 2 ≤ balances.length)
    (height : balances.length ≤ 8) (hamp : 0 < amplification.val) (hleast : 1 ≤ least)
    (hrange : ∀ x ∈ balances, least ≤ x.val ∧ x.val ≤ most) (hmost : most ≤ 2 ^ 130)
    (hratio : most ≤ 2 ^ 28 * least) :
    (∃ d, invariant balances amplification = .ok d) ∨
      invariant balances amplification = .error (.noConvergence "D") := by
  have h := manageable_of_range htwo height hamp hleast hrange hmost hratio
  cases hanswer : invariant balances amplification with
  | ok d => exact .inl ⟨d, rfl⟩
  | error e => exact .inr (congrArg Except.error (h.refusedOnlyFor_invariant e hanswer))

/-- As far apart as the working range allows: one balance of `2 ^ 130`, and seven that are `2 ^ 28`
    times smaller. -/
def extremeBalances : List Amount :=
  ⟨2 ^ 130, by decide⟩ :: List.replicate 7 ⟨2 ^ 102, by decide⟩

/-- With an amplification of two, the search for their invariant comes to rest; with one, it does
    not. -/
theorem invariant_in_range_extreme :
    (∀ x ∈ extremeBalances, 2 ^ 102 ≤ x.val ∧ x.val ≤ 2 ^ 130) ∧
      ((∃ d, invariant extremeBalances 2 = .ok d) ∨
        invariant extremeBalances 2 = .error (.noConvergence "D")) ∧
      invariant extremeBalances 2 = .ok 3270941245367595096089455349052823 ∧
      ((∃ d, invariant extremeBalances 1 = .ok d) ∨
        invariant extremeBalances 1 = .error (.noConvergence "D")) ∧
      invariant extremeBalances 1 = .error (.noConvergence "D") := by
  have hrange : ∀ x ∈ extremeBalances, 2 ^ 102 ≤ x.val ∧ x.val ≤ 2 ^ 130 := by decide +kernel
  refine ⟨hrange, ?_, by decide +kernel, ?_, by decide +kernel⟩
  · exact invariant_in_range (by decide) (by decide) (by decide) (by decide) hrange le_rfl
      (by decide)
  · exact invariant_in_range (by decide) (by decide) (by decide) (by decide) hrange le_rfl
      (by decide)

end StableSwap.Curve
