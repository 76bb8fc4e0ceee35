import StableSwap.Proofs.Curve.Supports
import Mathlib.Data.Real.Basic

/-!
# The balance from below

The balance solver looks for the non-negative root of `t² + (b − d)·t = c`. A
value `z` lies above the root if it makes the left side larger than `c`; it is
then above zero, and so is every larger value.

Main statements:

* `Quadratic.Exceeds.mono`: what is larger than a value above the root lies
  above the root.
* `Quadratic.Exceeds.root_lt`: the real root is less than the value.
* `exceeds_step`: one more than the outcome of a pass lies above the root,
  wherever the pass began.
* `last_pass_of_balance`: the answer of the solver is the outcome of a pass from a value near to
  it, or the target.
* `exceeds_of_balance`: one more than the answer lies above the root, too.
* `balance_set`: the balance that is sought is not read.
* `supports_of_exceeds`: with a value above the root for the missing one, the
  balances support the target, as far as the quotients of `c` keep it.
-/

namespace StableSwap.Curve

namespace Balance

/-- The value lies strictly above the root of the quadratic. -/
def Quadratic.Exceeds (q : Quadratic) (z : ℕ) : Prop :=
  (q.c.val : ℤ) < z * z + ((q.b.val : ℤ) - q.target.val) * z

theorem Quadratic.Exceeds.pos {q : Quadratic} {z : ℕ} (h : q.Exceeds z) : 0 < z := by
  unfold Exceeds at h
  rcases Nat.eq_zero_or_pos z with rfl | hz
  · simp only [Nat.cast_zero, mul_zero, add_zero] at h
    omega
  · exact hz

/-- Above the root the other factor of the left side is positive as well. -/
theorem Quadratic.Exceeds.factor_pos {q : Quadratic} {z : ℕ} (h : q.Exceeds z) :
    0 < (z : ℤ) + (q.b.val - q.target.val) := by
  unfold Exceeds at h
  by_contra hneg
  nlinarith

theorem Quadratic.Exceeds.mono {q : Quadratic} {y z : ℕ} (h : q.Exceeds y) (hyz : y ≤ z) :
    q.Exceeds z := by
  have hy : 0 < y := h.pos
  have hfactor := h.factor_pos
  unfold Exceeds at h ⊢
  obtain ⟨k, rfl⟩ := Nat.exists_eq_add_of_le hyz
  push_cast
  nlinarith

/-- A value above the root is larger than every non-negative real root. -/
theorem Quadratic.Exceeds.root_lt {q : Quadratic} {z : ℕ} (h : q.Exceeds z) {root : ℝ}
    (hnonneg : 0 ≤ root)
    (hroot : root * root + ((q.b.val : ℝ) - q.target.val) * root = q.c.val) : root < z := by
  have hz : (0 : ℝ) < z := by exact_mod_cast h.pos
  have hfactor : 0 < (z : ℝ) + (q.b.val - q.target.val) := by exact_mod_cast h.factor_pos
  have hreal : (q.c.val : ℝ) < z * z + ((q.b.val : ℝ) - q.target.val) * z := by
    unfold Exceeds at h
    exact_mod_cast h
  by_contra hle
  rw [not_lt] at hle
  nlinarith

/-- One more than the outcome of a pass lies above the root: the pass rounds the step of
    Newton's method down, and that step leads to the root or beyond. -/
theorem exceeds_step {q : Quadratic} {y y' : Wide} (h : step q y = .ok y') :
    q.Exceeds (y'.val + 1) := by
  obtain ⟨hy', hdivisor⟩ := eq_balanceStep h
  have hfloor : y.val * y.val + q.c.val <
      (y'.val + 1) * (y.val * 2 + q.b.val - q.target.val) := by
    rw [hy', Exact.balanceStep, Nat.add_mul, Nat.one_mul]
    exact Nat.lt_div_mul_add (Nat.sub_pos_of_lt hdivisor)
  have hint : (y.val * y.val + q.c.val : ℤ) <
      (y'.val + 1) * (y.val * 2 + q.b.val - q.target.val) := by
    have hcast := Nat.cast_sub (R := ℤ) hdivisor.le
    push_cast at hcast
    rw [← hcast]
    exact_mod_cast hfloor
  unfold Quadratic.Exceeds
  push_cast
  nlinarith [sq_nonneg ((y'.val : ℤ) + 1 - y.val)]

/-- With a target of at most one, the coefficient `c` is at most the target. -/
theorem coefficientC_le (n leverage : ℕ) (given : List ℕ) {d : ℕ} (hd : d ≤ 1) :
    Exact.coefficientC n leverage given d ≤ d := by
  have hchain := Exact.chain_le_self n hd given d
  calc Exact.coefficientC n leverage given d
      ≤ Exact.chain n d given d * d := Nat.div_le_self _ _
    _ ≤ Exact.chain n d given d * 1 := Nat.mul_le_mul_left _ hd
    _ ≤ d := by omega

end Balance

open Balance

/-- The answer of the balance solver is the outcome of a pass from a value near to it, unless no
    pass was made: then it is the target, which is one at most. -/
theorem last_pass_of_balance {balances : List Amount} {amplification : Word 64} {k : ℕ}
    {d y : Amount} (h : balance balances amplification k d = .ok y) :
    ∃ q, quadratic balances amplification k d = .ok q ∧
      (y.val = d.val ∧ y.val ≤ 1 ∨
        ∃ e y' : Wide, step q e = .ok y' ∧ near y' e = true ∧ y.val = y'.val) := by
  rw [balance, report, Report.answer_eq_ok_iff] at h
  obtain ⟨halt, hsearch, hrest, hy⟩ := h
  rw [search, bind_eq_ok_iff] at hsearch
  obtain ⟨q, hq, hsettle⟩ := hsearch
  refine ⟨q, hq, ?_⟩
  rcases settle_of_atRest hsettle hrest with ⟨hnear, hvalue⟩ | ⟨e, he, hnear⟩
  · left
    rw [near_zero_iff] at hnear
    obtain ⟨htarget, -, -⟩ := eq_coefficients hq
    rw [hvalue] at hy
    exact ⟨hy.trans htarget, by omega⟩
  · exact .inr ⟨e, halt.value, he, hnear, hy⟩

/-- One more than the answer of the balance solver lies above the root of its quadratic. -/
theorem exceeds_of_balance {balances : List Amount} {amplification : Word 64} {k : ℕ}
    {d y : Amount} (h : balance balances amplification k d = .ok y) :
    ∃ q, quadratic balances amplification k d = .ok q ∧ q.Exceeds (y.val + 1) := by
  obtain ⟨q, hq, ⟨hy, hone⟩ | ⟨e, y', hstep, -, hy⟩⟩ := last_pass_of_balance h
  · refine ⟨q, hq, ?_⟩
    obtain ⟨htarget, hc, -⟩ := eq_coefficients hq
    have hcle := coefficientC_le balances.length (amplification.val * balances.length)
      ((balances.eraseIdx k).map (·.val)) (d := d.val) (by omega)
    rw [← hc] at hcle
    unfold Quadratic.Exceeds
    rw [htarget, ← hy]
    push_cast
    nlinarith
  · rw [hy]
    exact ⟨q, hq, exceeds_step hstep⟩

theorem leverage_pos_of_quadratic {balances : List Amount} {amplification : Word 64} {k : ℕ}
    {d : Amount} {q : Quadratic} (h : quadratic balances amplification k d = .ok q) :
    0 < amplification.val * balances.length * balances.length := by
  simp only [quadratic, bind_eq_ok_iff, leverage_eq_ok_iff, Word.mul_eq_ok_iff,
    Word.div_eq_ok_iff] at h
  obtain ⟨leverage, hleverage, _, _, _, _, _, _, divisor, hdivisor, _, ⟨hne, _⟩, _⟩ := h
  rw [← hleverage, ← hdivisor]
  exact Nat.pos_of_ne_zero hne

/-- The entry of the balance that is sought has no part in the quadratic. -/
theorem quadratic_set (balances : List Amount) (amplification : Word 64) (k : ℕ) (x d : Amount) :
    quadratic (balances.set k x) amplification k d = quadratic balances amplification k d := by
  unfold quadratic
  rw [List.length_set, List.eraseIdx_set_eq]

theorem balance_set (balances : List Amount) (amplification : Word 64) (k : ℕ) (x d : Amount) :
    balance (balances.set k x) amplification k d = balance balances amplification k d := by
  unfold balance report search
  rw [quadratic_set]

/-! ## The curve of the target -/

namespace Exact

/-- The quadratic in a value above its root, without the quotients: the product of quotients over
    the given balances stays, and with it the only rounding that is not on the safe side. -/
theorem lt_of_exceeds {n leverage g p d c b z : ℕ} (hdivisor : 0 < leverage * n)
    (hc : c = p * d / (leverage * n)) (hb : b = g + d / leverage)
    (hz : (c : ℤ) < z * z + ((b : ℤ) - d) * z) :
    p * d + (leverage - 1) * d * (n * z) < leverage * (z + g) * (n * z) := by
  have hleverage : 0 < leverage := Nat.pos_of_mul_pos_right hdivisor
  have hceil : p * d < (c + 1) * (leverage * n) := by
    rw [hc, Nat.add_mul, Nat.one_mul]
    exact Nat.lt_div_mul_add hdivisor
  have hshare : leverage * b ≤ leverage * g + d := by
    rw [hb, Nat.mul_add]
    exact Nat.add_le_add_left (Nat.mul_div_le _ _) _
  have hroot : ((c : ℤ) + 1) * (leverage * n) ≤
      (z * z + ((b : ℤ) - d) * z) * (leverage * n) :=
    mul_le_mul_of_nonneg_right hz (by positivity)
  have hfactor : (leverage * b : ℤ) * (n * z) ≤ (leverage * g + d) * (n * z) :=
    mul_le_mul_of_nonneg_right (by exact_mod_cast hshare) (by positivity)
  obtain ⟨l, rfl⟩ := Nat.exists_eq_add_of_lt hleverage
  have hceil' : (p * d : ℤ) < (c + 1) * ((0 + l + 1 : ℕ) * n) := by exact_mod_cast hceil
  rw [Nat.add_sub_cancel]
  zify
  push_cast at hroot hfactor hceil' ⊢
  linarith

/-- With a value above the root beside the given balances, the balances support every invariant up
    to the target whose power the chain still reaches. -/
theorem supports_cons {leverage d t z : ℕ} {given : List ℕ}
    (hlt : chain (given.length + 1) d given d * d + (leverage - 1) * d * ((given.length + 1) * z) <
      leverage * (z + given.sum) * ((given.length + 1) * z))
    (htd : t ≤ d) (hpow : t ^ (given.length + 1) ≤ roundedPower (given.length + 1) d given) :
    Supports leverage (z :: given) t := by
  have hfirst : t ^ (given.length + 1) * t ≤ roundedPower (given.length + 1) d given * d :=
    Nat.mul_le_mul hpow htd
  have hsecond : (leverage - 1) * t ≤ (leverage - 1) * d := Nat.mul_le_mul_left _ htd
  rw [roundedPower] at hfirst
  unfold Supports
  rw [List.length_cons, List.prod_cons, List.sum_cons]
  generalize chain (given.length + 1) d given d = p at hlt hfirst
  generalize given.length = m at hlt hfirst ⊢
  calc t ^ (m + 1 + 1) + (leverage - 1) * t * ((m + 1) ^ (m + 1) * (z * given.prod))
      = t ^ (m + 1) * t +
          (leverage - 1) * t * ((m + 1) ^ m * given.prod * ((m + 1) * z)) := by ring
    _ ≤ p * ((m + 1) ^ m * given.prod) * d +
          (leverage - 1) * d * ((m + 1) ^ m * given.prod * ((m + 1) * z)) :=
        Nat.add_le_add hfirst (Nat.mul_le_mul_right _ hsecond)
    _ = (m + 1) ^ m * given.prod * (p * d + (leverage - 1) * d * ((m + 1) * z)) := by ring
    _ ≤ (m + 1) ^ m * given.prod * (leverage * (z + given.sum) * ((m + 1) * z)) :=
        Nat.mul_le_mul_left _ hlt.le
    _ = leverage * (z + given.sum) * ((m + 1) ^ (m + 1) * (z * given.prod)) := by ring

end Exact

/-- With a value above the root for the missing balance, the balances support every invariant up
    to the target whose power the quotients of `c` still reach. -/
theorem supports_of_exceeds {balances : List Amount} {amplification : Word 64} {k : ℕ}
    {d : Amount} {q : Quadratic} (hq : quadratic balances amplification k d = .ok q)
    (hk : k < balances.length) {z t : ℕ} (hz : q.Exceeds z) (htd : t ≤ d.val)
    (hpow : t ^ balances.length ≤
      Exact.roundedPower balances.length d.val ((balances.eraseIdx k).map (·.val))) :
    Exact.Supports (amplification.val * balances.length) ((balances.map (·.val)).set k z) t := by
  obtain ⟨htarget, hc, hb⟩ := eq_coefficients hq
  have hlength : ((balances.eraseIdx k).map (·.val)).length + 1 = balances.length := by
    rw [List.length_map, List.length_eraseIdx_of_lt hk]
    omega
  have hdivisor := leverage_pos_of_quadratic hq
  unfold Quadratic.Exceeds at hz
  rw [htarget] at hz
  have hperm := (List.set_perm_cons_eraseIdx (l := balances.map (·.val)) (by simpa using hk) z).symm
  rw [List.eraseIdx_map] at hperm
  refine Exact.Supports.perm ?_ hperm
  rw [← hlength] at hpow ⊢
  have hlt := Exact.lt_of_exceeds hdivisor hc hb hz
  rw [← hlength] at hlt
  exact Exact.supports_cons hlt htd hpow

end StableSwap.Curve
