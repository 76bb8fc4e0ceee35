import StableSwap.Proofs.Curve.Supports

/-!
# The invariant from below

The passes of the solver are the steps of Newton's method for the convex
function `d^(n+1) + (L − 1) · d · N − L · S · N`, with the product of quotients
taken too small; both facts push the next value up, so that no pass leads below
the root by a whole unit.

Main statements:

* `le_step_of_supports`: a pass never leads below an invariant that the balances
  support.
* `last_pass_of_invariant`: the answer of the solver is the outcome of a pass from a value near to
  it, or the sum.
* `le_invariant_of_supports`: it is not below a supported invariant either.
* `invariant_pos`: the invariant of positive balances is positive.
-/

namespace StableSwap.Curve

namespace Exact

/-- The power `t^(n+1)` lies above its tangent at `e`. -/
theorem tangent_le_pow (n t e : ℕ) : (n + 1) * t * e ^ n ≤ t ^ (n + 1) + n * e ^ (n + 1) := by
  induction n with
  | zero => simp
  | succ n ih =>
    -- `t - e` and `t^(n+1) - e^(n+1)` have the same sign
    have hcross : t * e ^ (n + 1) + t ^ (n + 1) * e ≤ t ^ (n + 2) + e ^ (n + 2) := by
      rcases le_total t e with h | h
      · obtain ⟨k, hk⟩ := Nat.exists_eq_add_of_le (Nat.pow_le_pow_left h (n + 1))
        obtain ⟨l, rfl⟩ := Nat.exists_eq_add_of_le h
        rw [pow_succ t (n + 1), pow_succ (t + l) (n + 1), hk]
        nlinarith [Nat.zero_le (k * l)]
      · obtain ⟨k, hk⟩ := Nat.exists_eq_add_of_le (Nat.pow_le_pow_left h (n + 1))
        obtain ⟨l, rfl⟩ := Nat.exists_eq_add_of_le h
        rw [pow_succ e (n + 1), pow_succ (e + l) (n + 1), hk]
        nlinarith [Nat.zero_le (k * l)]
    have hih := Nat.mul_le_mul_right e ih
    calc (n + 1 + 1) * t * e ^ (n + 1)
        = (n + 1) * t * e ^ n * e + t * e ^ (n + 1) := by ring
      _ ≤ (t ^ (n + 1) + n * e ^ (n + 1)) * e + t * e ^ (n + 1) := by omega
      _ = t * e ^ (n + 1) + t ^ (n + 1) * e + n * e ^ (n + 2) := by ring
      _ ≤ t ^ (n + 2) + e ^ (n + 2) + n * e ^ (n + 2) := by omega
      _ = t ^ (n + 1 + 1) + (n + 1) * e ^ (n + 1 + 1) := by ring

/-- Let `t` be on the curve or below it. Then the step of Newton's method from `e`, with a
    product `p` that may be too small, does not lead below `t`. -/
theorem newton_step_ge {n leverage s prod p e t : ℕ} (hp : p * prod ≤ e ^ (n + 1))
    (ht : t ^ (n + 1) + (leverage - 1) * t * prod ≤ leverage * s * prod) (hprod : 0 < prod) :
    t * ((leverage - 1) * e + (n + 1) * p) ≤ (leverage * s + p * n) * e := by
  by_contra hlt
  rw [not_le] at hlt
  have hscaled := Nat.mul_lt_mul_of_pos_right hlt hprod
  have hcurve := Nat.mul_le_mul_right e ht
  -- what is left of the two sides once the terms with `leverage` are cancelled
  have hleft : t ^ (n + 1) * e + n * e * (p * prod) < (n + 1) * t * (p * prod) := by
    nlinarith
  have hpos : n * e < (n + 1) * t := by
    by_contra hle
    have := Nat.mul_le_mul_right (p * prod) (not_lt.1 hle)
    omega
  obtain ⟨k, hk⟩ := Nat.exists_eq_add_of_lt hpos
  have htangent : (k + 1) * e ^ (n + 1) ≤ t ^ (n + 1) * e := by
    have h := Nat.mul_le_mul_right e (tangent_le_pow n t e)
    rw [hk] at h
    have h1 : (n * e + k + 1) * e ^ n * e = (k + 1) * e ^ (n + 1) + n * e ^ (n + 1) * e := by ring
    rw [h1, Nat.add_mul] at h
    linarith
  have hbound := Nat.mul_le_mul_left (k + 1) hp
  rw [hk, show (n * e + k + 1) * (p * prod) = n * e * (p * prod) + (k + 1) * (p * prod) by ring]
    at hleft
  linarith

/-- The step of the invariant solver, written out, is such a step. -/
theorem Supports.le_invariantStep {leverage e t : ℕ} {xs : List ℕ} (ht : Supports leverage xs t)
    (hdivisor : 0 < (leverage - 1) * e + (xs.length + 1) * chain xs.length e xs e) :
    t ≤ invariantStep leverage xs e := by
  unfold Supports at ht
  rcases Nat.eq_zero_or_pos (xs.length ^ xs.length * xs.prod) with hzero | hpos
  · -- some balance is zero, and zero is the only invariant that is supported
    rw [hzero, Nat.mul_zero, Nat.mul_zero, Nat.add_zero, Nat.le_zero] at ht
    rw [pow_eq_zero_iff (Nat.succ_ne_zero _)] at ht
    omega
  · have hchain := roundedPower_le xs.length e xs
    rw [roundedPower] at hchain
    rw [invariantStep, Nat.le_div_iff_mul_le hdivisor]
    exact newton_step_ge hchain ht hpos

/-- Where the solver makes no pass, it answers with the sum. -/
theorem Supports.le_sum {leverage : ℕ} {xs : List ℕ} {t : ℕ} (ht : Supports leverage xs t)
    (hsum : xs.sum ≤ 1) : t ≤ xs.sum := by
  unfold Supports at ht
  match xs with
  | [] =>
    simp only [List.sum_nil, Nat.mul_zero, Nat.zero_mul, Nat.le_zero] at ht ⊢
    simp only [List.length_nil, Nat.zero_add, pow_one] at ht
    omega
  | [x] =>
    simp only [List.length_singleton, List.sum_singleton, List.prod_singleton, one_pow] at ht hsum ⊢
    obtain rfl | rfl : x = 0 ∨ x = 1 := by omega
    · exact le_of_eq (by simpa using ht)
    · by_contra hlt
      have hlever := Nat.le_mul_of_pos_right (leverage - 1) (show 0 < t by omega)
      have hsquare : 2 * 2 ≤ t * t := Nat.mul_le_mul (by omega) (by omega)
      have hpow : t ^ (1 + 1) = t * t := sq t
      omega
  | x :: y :: zs =>
    -- two balances that are at most one together: one of them is zero
    have hprod : (x :: y :: zs).prod = 0 := by
      simp only [List.sum_cons, List.prod_cons] at hsum ⊢
      obtain rfl | rfl : x = 0 ∨ y = 0 := by omega
      · simp
      · simp
    rw [hprod, Nat.mul_zero, Nat.mul_zero, Nat.add_zero, Nat.mul_zero, Nat.le_zero,
      pow_eq_zero_iff (Nat.succ_ne_zero _)] at ht
    omega

end Exact

namespace Invariant

/-- No pass leads below an invariant that the balances support. -/
theorem le_step_of_supports {balances : List Amount} {amplification : Word 64} {t : Terms}
    (ht : terms balances amplification = .ok t) {d d' : Wide} (h : step t d = .ok d') {s : ℕ}
    (hs : Exact.Supports (amplification.val * balances.length) (balances.map (·.val)) s) :
    s ≤ d'.val := by
  obtain ⟨hd', hdivisor⟩ := eq_invariantStep ht h
  rw [hd']
  apply hs.le_invariantStep
  rwa [List.length_map]

end Invariant

section Answer

open Invariant

variable {balances : List Amount} {amplification : Word 64} {d : Amount}

/-- The solver answers with the value of a repetition that has come to rest. -/
theorem exists_settled_of_invariant (h : invariant balances amplification = .ok d) :
    ∃ t halt, terms balances amplification = .ok t ∧
      settle (step t) passLimit 0 t.sum = .ok halt ∧ halt.atRest = true ∧
        d.val = halt.value.val := by
  rw [invariant, report, Report.answer_eq_ok_iff] at h
  obtain ⟨halt, hsearch, hrest, hd⟩ := h
  rw [search, bind_eq_ok_iff] at hsearch
  obtain ⟨t, ht, hsettle⟩ := hsearch
  exact ⟨t, halt, ht, hsettle, hrest, hd⟩

/-- The answer of the solver is the outcome of a pass from a value near to it, unless no pass was
    made: then it is the sum, which is one at most. -/
theorem last_pass_of_invariant (h : invariant balances amplification = .ok d) :
    ∃ t, terms balances amplification = .ok t ∧
      (d.val = (balances.map (·.val)).sum ∧ d.val ≤ 1 ∨
        ∃ e d' : Wide, step t e = .ok d' ∧ near d' e = true ∧ d.val = d'.val) := by
  obtain ⟨t, halt, ht, hsettle, hrest, hd⟩ := exists_settled_of_invariant h
  refine ⟨t, ht, ?_⟩
  rcases settle_of_atRest hsettle hrest with ⟨hnear, hvalue⟩ | ⟨e, he, hnear⟩
  · left
    rw [near_zero_iff] at hnear
    obtain ⟨-, -, -, hsum, -⟩ := terms_eq_ok ht
    rw [hvalue] at hd
    exact ⟨hd.trans hsum, by omega⟩
  · exact .inr ⟨e, halt.value, he, hnear, hd⟩

/-- The invariant of the balances is at least every invariant that they support. -/
theorem le_invariant_of_supports (h : invariant balances amplification = .ok d) {s : ℕ}
    (hs : Exact.Supports (amplification.val * balances.length) (balances.map (·.val)) s) :
    s ≤ d.val := by
  obtain ⟨t, ht, ⟨hsum, hone⟩ | ⟨e, d', hstep, -, hd⟩⟩ := last_pass_of_invariant h
  · rw [hsum]
    exact hs.le_sum (by omega)
  · rw [hd]
    exact le_step_of_supports ht hstep hs

/-- The solver answers only where the leverage is positive. -/
theorem leverage_pos_of_invariant (h : invariant balances amplification = .ok d) :
    0 < amplification.val * balances.length := by
  obtain ⟨t, -, ht, -⟩ := exists_settled_of_invariant h
  exact leverage_pos_of_terms ht

/-- It answers for some balance at least. -/
theorem ne_nil_of_invariant (h : invariant balances amplification = .ok d) :
    balances.map (·.val) ≠ [] := by
  have hleverage := leverage_pos_of_invariant h
  rw [← List.length_pos_iff, List.length_map]
  exact Nat.pos_of_mul_pos_left hleverage

/-- The invariant of positive balances is positive. -/
theorem invariant_pos (h : invariant balances amplification = .ok d)
    (hpos : ∀ x ∈ balances, 0 < x.val) : 0 < d.val := by
  apply le_invariant_of_supports h
  apply Exact.supports_one (leverage_pos_of_invariant h) (ne_nil_of_invariant h)
  simpa using hpos

end Answer

end StableSwap.Curve
