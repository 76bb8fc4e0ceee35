import StableSwap.Curve.Exact
import Mathlib.Algebra.BigOperators.Group.Finset.Basic
import Mathlib.Algebra.BigOperators.Ring.List
import Mathlib.Tactic.Linarith
import Mathlib.Tactic.Ring

/-!
# Quotients rounded down one after the other

Both curve equations form a power of `d` over a product of balances as a chain
of quotients, each rounded down before the next factor is applied.

Main statements:

* `chain_mul_le`: the chain never exceeds the single quotient that it stands for.
* `chain_le_self`, `chain_le_mul_pow`: how much the chain grows at most.
* `chain_mono`: the chain grows with `d` and falls with the balances.
* `mul_pow_le_chain`: what the chain loses against the single quotient.
* `roundedPower_le`, `shortfall_le`: the power of `d` that a chain stands for, and what is missing
  of it.
-/

namespace StableSwap.Curve.Exact

/-- The chain `p · d/(n·x₀) · d/(n·x₁) · …` is at most `p · d^k / (n^k · Πxᵢ)`. -/
theorem chain_mul_le (n d : ℕ) (xs : List ℕ) (p : ℕ) :
    chain n d xs p * (n ^ xs.length * xs.prod) ≤ p * d ^ xs.length := by
  induction xs generalizing p with
  | nil => simp
  | cons x xs ih =>
    rw [chain_cons, List.length_cons, List.prod_cons]
    have hfloor : p * d / (n * x) * (n * x) ≤ p * d := Nat.div_mul_le_self _ _
    calc chain n d xs (p * d / (n * x)) * (n ^ (xs.length + 1) * (x * xs.prod))
        = chain n d xs (p * d / (n * x)) * (n ^ xs.length * xs.prod) * (n * x) := by ring
      _ ≤ p * d / (n * x) * d ^ xs.length * (n * x) := Nat.mul_le_mul_right _ (ih _)
      _ = p * d / (n * x) * (n * x) * d ^ xs.length := by ring
      _ ≤ p * d * d ^ xs.length := Nat.mul_le_mul_right _ hfloor
      _ = p * d ^ (xs.length + 1) := by ring

theorem chain_le_self (n : ℕ) {d : ℕ} (hd : d ≤ 1) (xs : List ℕ) (p : ℕ) :
    chain n d xs p ≤ p := by
  induction xs generalizing p with
  | nil => exact le_rfl
  | cons x xs ih =>
    have hstep : p * d / (n * x) ≤ p := by
      calc p * d / (n * x) ≤ p * d := Nat.div_le_self _ _
        _ ≤ p * 1 := Nat.mul_le_mul_left _ hd
        _ = p := Nat.mul_one p
    exact (ih _).trans hstep

/-- A quotient enlarges what it is formed of at most by its factor `d/(n·x)`. -/
theorem quotient_le {n d r x : ℕ} (hx : d ≤ r * (n * x)) (p : ℕ) : p * d / (n * x) ≤ p * r := by
  apply Nat.div_le_of_le_mul
  calc p * d ≤ p * (r * (n * x)) := Nat.mul_le_mul_left _ hx
    _ = n * x * (p * r) := by ring

/-- The chain is enlarged by no more than that with every quotient. -/
theorem chain_le_mul_pow {n d r : ℕ} {xs : List ℕ} (hr : ∀ x ∈ xs, d ≤ r * (n * x)) (p : ℕ) :
    chain n d xs p ≤ p * r ^ xs.length := by
  induction xs generalizing p with
  | nil => simp
  | cons x xs ih =>
    have hquotient := quotient_le (hr x List.mem_cons_self) p
    have hrest : ∀ y ∈ xs, d ≤ r * (n * y) := fun y hy => hr y (List.mem_cons_of_mem x hy)
    rw [chain_cons, List.length_cons]
    calc chain n d xs (p * d / (n * x)) ≤ p * d / (n * x) * r ^ xs.length := ih hrest _
      _ ≤ p * r * r ^ xs.length := Nat.mul_le_mul_right _ hquotient
      _ = p * r ^ (xs.length + 1) := by ring

/-- The chain grows with `d` and falls with the balances: so does each of its quotients. -/
theorem chain_mono {n d e p q : ℕ} {xs ys : List ℕ} (hn : 0 < n) (hde : d ≤ e) (hpq : p ≤ q)
    (hpos : ∀ y ∈ ys, 0 < y) (hle : List.Forall₂ (fun x y => y ≤ x) xs ys) :
    chain n d xs p ≤ chain n e ys q := by
  induction hle generalizing p q with
  | nil => exact hpq
  | @cons x y xs ys hyx _ ih =>
    have hdivisor : n * y ≠ 0 := (Nat.mul_pos hn (hpos y List.mem_cons_self)).ne'
    have hquotient : p * d / (n * x) ≤ q * e / (n * y) :=
      Nat.div_le_div (Nat.mul_le_mul hpq hde) (Nat.mul_le_mul_left n hyx) hdivisor
    exact ih hquotient fun z hz => hpos z (List.mem_cons_of_mem y hz)

/-- The divisor of the single quotient, with as many factors `n` as there are balances. -/
theorem scaledProduct_pos {xs : List ℕ} (hne : xs ≠ []) (hpos : ∀ x ∈ xs, 0 < x) :
    0 < xs.length ^ xs.length * xs.prod := by
  apply Nat.mul_pos (Nat.pow_pos (List.length_pos_iff.2 hne))
  exact Nat.pos_of_ne_zero (List.prod_ne_zero fun h => absurd (hpos 0 h) (lt_irrefl 0))

/-- What the chain over the given balances stands for, with the denominator cleared: the power of
    `d` with one more factor than there are balances, as far as the quotients keep it. -/
def roundedPower (n d : ℕ) (given : List ℕ) : ℕ :=
  chain n d given d * (n ^ given.length * given.prod)

theorem roundedPower_le (n d : ℕ) (given : List ℕ) :
    roundedPower n d given ≤ d ^ (given.length + 1) := by
  rw [roundedPower, pow_succ']
  exact chain_mul_le n d given d

/-! ## What is lost -/

/-- The power of `d` in the single quotient, where no factor `d/(n·x)` is larger than `r`. -/
theorem pow_le_of_factors {n d r : ℕ} {xs : List ℕ} (hr : ∀ x ∈ xs, d ≤ r * (n * x)) :
    d ^ xs.length ≤ r ^ xs.length * (n ^ xs.length * xs.prod) := by
  induction xs with
  | nil => simp
  | cons x xs ih =>
    have hx : d ≤ r * (n * x) := hr x List.mem_cons_self
    have hrest := ih fun y hy => hr y (List.mem_cons_of_mem x hy)
    rw [List.length_cons, List.prod_cons]
    calc d ^ (xs.length + 1) = d * d ^ xs.length := pow_succ' d xs.length
      _ ≤ r * (n * x) * (r ^ xs.length * (n ^ xs.length * xs.prod)) := Nat.mul_le_mul hx hrest
      _ = r ^ (xs.length + 1) * (n ^ (xs.length + 1) * (x * xs.prod)) := by ring

/-- The single quotient exceeds the chain by less than a geometric sum, where no factor `d/(n·x)` is
    larger than `r`: a quotient loses less than one, which the factors after it enlarge. -/
theorem mul_pow_le_chain {n d r : ℕ} {xs : List ℕ} (hd : 0 < d)
    (hr : ∀ x ∈ xs, d ≤ r * (n * x)) (p : ℕ) :
    p * d ^ xs.length ≤
      (chain n d xs p + ∑ j ∈ Finset.range xs.length, r ^ j) * (n ^ xs.length * xs.prod) := by
  induction xs generalizing p with
  | nil => simp
  | cons x xs ih =>
    have hx : d ≤ r * (n * x) := hr x List.mem_cons_self
    have hrest : ∀ x ∈ xs, d ≤ r * (n * x) := fun y hy => hr y (List.mem_cons_of_mem x hy)
    have hdivisor : 0 < n * x := Nat.pos_of_mul_pos_left (Nat.lt_of_lt_of_le hd hx)
    have hpow := pow_le_of_factors hrest
    rw [chain_cons, List.length_cons, List.prod_cons, Finset.sum_range_succ]
    have hfloor : p * d ≤ (p * d / (n * x) + 1) * (n * x) := by
      rw [Nat.add_mul, Nat.one_mul]
      exact (Nat.lt_div_mul_add hdivisor).le
    generalize p * d / (n * x) = q at hfloor ⊢
    have hq := ih hrest q
    calc p * d ^ (xs.length + 1) = p * d * d ^ xs.length := by ring
      _ ≤ (q + 1) * (n * x) * d ^ xs.length := Nat.mul_le_mul_right _ hfloor
      _ = n * x * (q * d ^ xs.length) + n * x * d ^ xs.length := by ring
      _ ≤ n * x * ((chain n d xs q + ∑ j ∈ Finset.range xs.length, r ^ j) *
            (n ^ xs.length * xs.prod)) + n * x * (r ^ xs.length * (n ^ xs.length * xs.prod)) :=
          Nat.add_le_add (Nat.mul_le_mul_left _ hq) (Nat.mul_le_mul_left _ hpow)
      _ = (chain n d xs q + (∑ j ∈ Finset.range xs.length, r ^ j + r ^ xs.length)) *
            (n ^ (xs.length + 1) * (x * xs.prod)) := by ring

/-- What is missing of the power of `d` in the chain over all balances. -/
def shortfall (n d : ℕ) (xs : List ℕ) : ℕ := d ^ (xs.length + 1) - roundedPower n d xs

/-- The chain misses less than a geometric sum of the factors. -/
theorem shortfall_le {n d r : ℕ} {xs : List ℕ} (hr : ∀ x ∈ xs, d ≤ r * (n * x)) :
    shortfall n d xs ≤
      (∑ j ∈ Finset.range xs.length, r ^ j) * (n ^ xs.length * xs.prod) := by
  unfold shortfall roundedPower
  rcases Nat.eq_zero_or_pos d with rfl | hd
  · simp
  · have hchain := mul_pow_le_chain hd hr d
    rw [Nat.add_mul, ← pow_succ'] at hchain
    omega

end StableSwap.Curve.Exact
