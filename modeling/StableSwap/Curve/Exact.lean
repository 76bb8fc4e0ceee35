import StableSwap.Curve.Balance
import StableSwap.Curve.Invariant
import Mathlib.Algebra.Order.Ring.Nat

/-!
# The curve equations over the natural numbers

The formulas of both solvers without a bound on what they form. Here nothing is
refused: a difference stops at zero and a quotient by zero is zero, so the
formulas speak about a solver only where the bounded arithmetic answers.

Main statements:

* `sum_eq_ok_iff`: a bounded sum answers exactly if it is in range.
* `eq_chain_of_factor`: a bounded product of quotients that answers is the
  chain of the exact quotients.
* `eq_invariantStep`: a pass of the invariant solver that answers makes the
  exact step.
* `eq_coefficients`, `eq_balanceStep`: the same for the quadratic of the balance
  solver and for its passes.
-/

namespace StableSwap.Curve

namespace Exact

/-- The product `p · d/(n·x₀) · d/(n·x₁) · …`, rounded down after every factor. -/
def chain (n d : Nat) (xs : List Nat) (p : Nat) : Nat :=
  xs.foldl (fun p x => p * d / (n * x)) p

/-- The value after `d` in the search for the invariant of the balances `xs`. -/
def invariantStep (leverage : Nat) (xs : List Nat) (d : Nat) : Nat :=
  let n := xs.length
  let p := chain n d xs d
  (leverage * xs.sum + p * n) * d / ((leverage - 1) * d + (n + 1) * p)

/-- The coefficient `c` of the quadratic for a balance among `n`, the others being `given`. -/
def coefficientC (n leverage : Nat) (given : List Nat) (d : Nat) : Nat :=
  chain n d given d * d / (leverage * n)

/-- The coefficient `b` of the quadratic, before the target is taken off. -/
def coefficientB (leverage : Nat) (given : List Nat) (d : Nat) : Nat := given.sum + d / leverage

/-- The value after `y` in the search for a balance. -/
def balanceStep (c b d y : Nat) : Nat := (y * y + c) / (y * 2 + b - d)

@[simp] theorem chain_nil (n d p : Nat) : chain n d [] p = p := rfl

@[simp] theorem chain_cons (n d x p : Nat) (xs : List Nat) :
    chain n d (x :: xs) p = chain n d xs (p * d / (n * x)) := rfl

end Exact

/-! ## Sums and products -/

/-- A step that divides by `n · x`, repeated along a list, makes the exact chain. -/
theorem eq_chain_of_factor {n : Nat} {d : Wide} {factor : Wide → Amount → Except PoolError Wide}
    (hfactor : ∀ p x q, factor p x = .ok q → q.val = p.val * d.val / (n * x.val))
    {xs : List Amount} {p q : Wide} (h : xs.foldlM factor p = .ok q) :
    q.val = Exact.chain n d.val (xs.map (·.val)) p.val := by
  induction xs generalizing p with
  | nil =>
    cases h
    rfl
  | cons x xs ih =>
    rw [List.foldlM_cons, bind_eq_ok_iff] at h
    obtain ⟨r, hr, h⟩ := h
    rw [ih h, List.map_cons, Exact.chain_cons, hfactor p x r hr]

/-- A sum that is formed step by step is the sum. -/
theorem eq_sum_of_add {term : String} {xs : List Amount} {s t : Wide}
    (h : xs.foldlM (fun sum (x : Amount) => sum.add x term) s = .ok t) :
    t.val = s.val + (xs.map (·.val)).sum := by
  induction xs generalizing s with
  | nil =>
    cases h
    simp
  | cons x xs ih =>
    rw [List.foldlM_cons, bind_eq_ok_iff] at h
    obtain ⟨r, hr, h⟩ := h
    have hr := Word.add_eq_ok_iff.1 hr
    have ht := ih h
    simp only [List.map_cons, List.sum_cons]
    omega

/-- The sum is formed exactly if it is in range. -/
theorem sum_eq_ok_iff {term : String} {xs : List Amount} {s t : Wide} :
    xs.foldlM (fun sum (x : Amount) => sum.add x term) s = .ok t ↔
      t.val = s.val + (xs.map (·.val)).sum := by
  refine ⟨eq_sum_of_add, fun ht => ?_⟩
  induction xs generalizing s with
  | nil => exact congrArg Except.ok (Word.ext ht.symm)
  | cons x xs ih =>
    rw [List.map_cons, List.sum_cons, ← Nat.add_assoc] at ht
    obtain ⟨r, hr⟩ : ∃ r : Wide, r.val = s.val + x.val :=
      ⟨⟨_, Nat.lt_of_le_of_lt (Nat.le_add_right _ _) (ht ▸ t.isLt)⟩, rfl⟩
    rw [List.foldlM_cons, bind_eq_ok_iff]
    exact ⟨r, Word.add_eq_ok_iff.2 hr, ih (by rw [hr, ht])⟩

theorem total_eq_ok_iff {term : String} {xs : List Amount} {s : Wide} :
    total term xs = .ok s ↔ s.val = (xs.map (·.val)).sum := by
  rw [total, sum_eq_ok_iff, Word.val_zero, Nat.zero_add]

/-! ## The invariant -/

namespace Invariant

theorem factor_eq_ok {n : Nat} {d p q : Wide} {x : Amount} (h : factor n d p x = .ok q) :
    q.val = p.val * d.val / (n * x.val) := by
  simp only [factor, bind_eq_ok_iff, Word.mul_eq_ok_iff, Word.div_eq_ok_iff, Amount.val_wide] at h
  obtain ⟨divisor, hdivisor, r, hr, _, hq⟩ := h
  rw [hq, hr, hdivisor, Nat.mul_comm x.val n]

theorem product_eq_ok {balances : List Amount} {d p : Wide} (h : product balances d = .ok p) :
    p.val = Exact.chain balances.length d.val (balances.map (·.val)) d.val :=
  eq_chain_of_factor (fun _ _ _ hf => factor_eq_ok hf) h

theorem terms_eq_ok {balances : List Amount} {amplification : Word 64} {t : Terms}
    (h : terms balances amplification = .ok t) :
    t.balances = balances ∧
      t.leverageLessOne.val + 1 = amplification.val * balances.length ∧
      t.countPlusOne.val = balances.length + 1 ∧
      t.sum.val = (balances.map (·.val)).sum ∧
      t.leveragedSum.val = amplification.val * balances.length * t.sum.val := by
  simp only [terms, bind_eq_ok_iff, Word.mul_eq_ok_iff, Word.sub_eq_ok_iff, Word.fit_eq_ok_iff,
    leverage_eq_ok_iff, pure, Except.pure, Except.ok.injEq] at h
  obtain ⟨leverage, hleverage, less, hless, count, hcount, s, hs, ls, hls, rfl⟩ := h
  have hsum := total_eq_ok_iff.1 hs
  refine ⟨rfl, ?_, hcount, hsum, ?_⟩
  · show less.val + 1 = amplification.val * balances.length
    rw [← hleverage, hless]
  · show ls.val = amplification.val * balances.length * s.val
    rw [hls, hleverage]

/-- The search begins only with a positive leverage. -/
theorem leverage_pos_of_terms {balances : List Amount} {amplification : Word 64} {t : Terms}
    (ht : terms balances amplification = .ok t) : 0 < amplification.val * balances.length := by
  have hless := (terms_eq_ok ht).2.1
  omega

/-- A pass that answers makes the exact step, and its divisor is not zero. -/
theorem eq_invariantStep {balances : List Amount} {amplification : Word 64} {t : Terms}
    (ht : terms balances amplification = .ok t) {d d' : Wide} (h : step t d = .ok d') :
    d'.val = Exact.invariantStep (amplification.val * balances.length)
        (balances.map (·.val)) d.val ∧
      0 < (amplification.val * balances.length - 1) * d.val +
        (balances.length + 1) *
          Exact.chain balances.length d.val (balances.map (·.val)) d.val := by
  obtain ⟨hbalances, hless, hcount, hsum, hls⟩ := terms_eq_ok ht
  simp only [step, bind_eq_ok_iff, Word.mul_eq_ok_iff, Word.add_eq_ok_iff,
    Word.div_eq_ok_iff] at h
  obtain ⟨p, hp, weighted, hweighted, scale, hscale, numerator, hnumerator, own, hown, cross,
    hcross, denominator, hdenominator, hne, hd'⟩ := h
  rw [hbalances] at hp hweighted
  have hp := product_eq_ok hp
  have hlever : t.leverageLessOne.val = amplification.val * balances.length - 1 := by omega
  simp only [Exact.invariantStep, List.length_map]
  rw [← hp, hd', hnumerator, hdenominator, hscale, hweighted, hown, hcross, hls, hsum, hlever,
    hcount]
  refine ⟨rfl, ?_⟩
  rw [hdenominator, hown, hcross, hlever, hcount] at hne
  exact Nat.pos_of_ne_zero hne

end Invariant

/-! ## The balance -/

namespace Balance

theorem factor_eq_ok {n : Nat} {d c q : Wide} {x : Amount} (h : factor n d c x = .ok q) :
    q.val = c.val * d.val / (n * x.val) := by
  simp only [factor, bind_eq_ok_iff, Word.mul_eq_ok_iff, Word.div_eq_ok_iff, Amount.val_wide] at h
  obtain ⟨r, hr, divisor, hdivisor, _, hq⟩ := h
  rw [hq, hr, hdivisor, Nat.mul_comm x.val n]

/-- The quadratic of a search that begins has the exact coefficients. -/
theorem eq_coefficients {balances : List Amount} {amplification : Word 64} {k : Nat}
    {d : Amount} {q : Quadratic} (h : quadratic balances amplification k d = .ok q) :
    q.target.val = d.val ∧
      q.c.val = Exact.coefficientC balances.length (amplification.val * balances.length)
        ((balances.eraseIdx k).map (·.val)) d.val ∧
      q.b.val = Exact.coefficientB (amplification.val * balances.length)
        ((balances.eraseIdx k).map (·.val)) d.val := by
  simp only [quadratic, bind_eq_ok_iff, Word.mul_eq_ok_iff, Word.add_eq_ok_iff,
    Word.div_eq_ok_iff, leverage_eq_ok_iff, pure, Except.pure, Except.ok.injEq] at h
  obtain ⟨leverage, hleverage, s, hs, partialC, hpartial, product, hproduct, divisor, hdivisor,
    c, ⟨_, hc⟩, share, ⟨_, hshare⟩, b, hb, rfl⟩ := h
  have hs := total_eq_ok_iff.1 hs
  have hpartial := eq_chain_of_factor (fun _ _ _ hf => factor_eq_ok hf) hpartial
  refine ⟨rfl, ?_, ?_⟩
  · simp only [Exact.coefficientC]
    rw [hc, hproduct, hdivisor, hpartial, hleverage, Amount.val_wide]
  · simp only [Exact.coefficientB]
    rw [hb, hs, hshare, hleverage, Amount.val_wide]

/-- A pass that answers makes the exact step, and its divisor is positive. -/
theorem eq_balanceStep {q : Quadratic} {y y' : Wide} (h : step q y = .ok y') :
    y'.val = Exact.balanceStep q.c.val q.b.val q.target.val y.val ∧
      q.target.val < y.val * 2 + q.b.val := by
  simp only [step, bind_eq_ok_iff, Word.mul_eq_ok_iff, Word.add_eq_ok_iff, Word.sub_eq_ok_iff,
    Word.div_eq_ok_iff] at h
  obtain ⟨square, hsquare, numerator, hnumerator, double, hdouble, shifted, hshifted,
    denominator, hdenominator, hne, hy'⟩ := h
  have hden : denominator.val = y.val * 2 + q.b.val - q.target.val := by omega
  refine ⟨?_, by omega⟩
  simp only [Exact.balanceStep]
  rw [hy', hnumerator, hsquare, hden]

end Balance

end StableSwap.Curve
