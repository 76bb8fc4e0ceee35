import StableSwap.Proofs.Curve.Chain
import Mathlib.Algebra.Order.Floor.Semifield
import Mathlib.Data.Rat.Floor

/-!
# What the product of the invariant equation loses

The product `P` that belongs to a value `d` is formed as a chain of quotients, and the
residual of the equation divides `d^(n+1)` by `nⁿ·Πx` in one. Every quotient of the
chain loses less than one unit, and what it loses passes through the factors `d/(n·x)`
of the balances after it, which enlarge it for small balances and reduce it for large
ones. So the order of the balances decides how much is lost, but not the bounds.

Main statements:

* `growth_eq`: the factors together make the single quotient.
* `mul_growth_sub_chain_lt`: what a chain loses, whatever it begins with.
* `product_le_quotient`, `product_mono`, `product_anti`: the product lies below the single
  quotient, grows with `d` and falls with the balances.
* `product_loss_lt`: all of this for the product that the solver forms.
-/

namespace StableSwap.Curve

namespace Exact

variable {n d : ℕ} {xs : List ℕ}

/-- The product `P` that belongs to `d`, rounded down after every factor. -/
def product (xs : List ℕ) (d : ℕ) : ℕ := chain xs.length d xs d

/-- What the factors `d/(n·x)` of the balances make of one unit, without rounding. -/
def growth (n d : ℕ) (xs : List ℕ) : ℚ := (xs.map fun x : ℕ => (d : ℚ) / (n * x)).prod

@[simp] theorem growth_nil (n d : ℕ) : growth n d [] = 1 := rfl

theorem growth_cons (n d x : ℕ) (xs : List ℕ) :
    growth n d (x :: xs) = d / (n * x) * growth n d xs := by
  rw [growth, List.map_cons, List.prod_cons, growth]

theorem growth_nonneg (n d : ℕ) (xs : List ℕ) : 0 ≤ growth n d xs := by
  induction xs with
  | nil => exact zero_le_one
  | cons x xs ih =>
    rw [growth_cons]
    positivity

theorem growth_eq (n d : ℕ) (xs : List ℕ) :
    growth n d xs = (d : ℚ) ^ xs.length / (n ^ xs.length * xs.prod : ℕ) := by
  induction xs with
  | nil => simp
  | cons x xs ih =>
    rw [growth_cons, ih, div_mul_div_comm, List.length_cons, List.prod_cons]
    push_cast
    ring

/-! ## What is lost -/

/-- A quotient loses less than one unit. -/
theorem mul_factor_lt (n d p x : ℕ) :
    (p : ℚ) * (d / (n * x)) < (p * d / (n * x) : ℕ) + 1 := by
  have hfloor := Nat.lt_floor_add_one ((p * d : ℕ) / (n * x : ℕ) : ℚ)
  rw [Nat.floor_div_eq_div] at hfloor
  push_cast at hfloor
  rwa [mul_div_assoc] at hfloor

/-- A chain loses less than what the units of its quotients become in the factors after them. -/
theorem mul_growth_sub_chain_lt (hne : xs ≠ []) (p : ℕ) :
    p * growth n d xs - chain n d xs p <
      ∑ k ∈ Finset.range xs.length, growth n d (xs.drop (k + 1)) := by
  induction xs generalizing p with
  | nil => exact absurd rfl hne
  | cons x xs ih =>
    have hfloor := mul_factor_lt n d p x
    rw [chain_cons, growth_cons, List.length_cons, Finset.sum_range_succ']
    simp only [List.drop_succ_cons, List.drop_zero]
    generalize p * d / (n * x) = q at hfloor ⊢
    rw [← mul_assoc]
    rcases eq_or_ne xs [] with rfl | hrest
    · simp only [growth_nil, chain_nil, List.length_nil, Finset.range_zero, Finset.sum_empty]
      linarith
    · -- a factor of zero may leave nothing of the first loss: the bound is strict by the rest
      have hlost := mul_le_mul_of_nonneg_right hfloor.le (growth_nonneg n d xs)
      have hq := ih hrest q
      linarith

/-! ## The product -/

/-- The bounded product is this one where it answers. -/
theorem val_eq_product {balances : List Amount} {d p : Wide}
    (h : Invariant.product balances d = .ok p) : p.val = product (balances.map (·.val)) d.val := by
  rw [Invariant.product_eq_ok h, product, List.length_map]

theorem product_le_quotient (hne : xs ≠ []) (hpos : ∀ x ∈ xs, 0 < x) (d : ℕ) :
    product xs d ≤ d ^ (xs.length + 1) / (xs.length ^ xs.length * xs.prod) := by
  rw [Nat.le_div_iff_mul_le (scaledProduct_pos hne hpos)]
  exact roundedPower_le xs.length d xs

theorem quotient_sub_product_lt (hne : xs ≠ []) (d : ℕ) :
    (d ^ (xs.length + 1) / (xs.length ^ xs.length * xs.prod : ℕ) : ℚ) - product xs d <
      ∑ k ∈ Finset.range xs.length, growth xs.length d (xs.drop (k + 1)) := by
  have hloss := mul_growth_sub_chain_lt (n := xs.length) (d := d) hne d
  rwa [growth_eq, ← mul_div_assoc, ← pow_succ'] at hloss

/-- The product grows with the value that it belongs to. -/
theorem product_mono (hne : xs ≠ []) (hpos : ∀ x ∈ xs, 0 < x) {e : ℕ} (hde : d ≤ e) :
    product xs d ≤ product xs e :=
  chain_mono (List.length_pos_iff.2 hne) hde hde hpos (List.forall₂_same.2 fun _ _ => le_rfl)

/-- The product falls with every balance. -/
theorem product_anti (hne : xs ≠ []) (hpos : ∀ x ∈ xs, 0 < x) {ys : List ℕ}
    (hle : List.Forall₂ (· ≤ ·) xs ys) (d : ℕ) : product ys d ≤ product xs d := by
  unfold product
  rw [← hle.length_eq]
  exact chain_mono (List.length_pos_iff.2 hne) le_rfl le_rfl hpos hle.flip

end Exact

open Exact

/-- What the product `P` of the invariant equation is beside the single quotient, for all balances
    and every value. It never exceeds the quotient rounded down, and the exact quotient exceeds it
    by less than a sum with one term for each balance: what the factors of the balances after it
    make of one unit. It grows with the value and falls with the balances. It is what the solver
    forms, as far as that is in range. -/
theorem product_loss_lt {xs : List ℕ} (hne : xs ≠ []) (hpos : ∀ x ∈ xs, 0 < x) (d : ℕ) :
    product xs d ≤ d ^ (xs.length + 1) / (xs.length ^ xs.length * xs.prod) ∧
      (d ^ (xs.length + 1) / (xs.length ^ xs.length * xs.prod : ℕ) : ℚ) - product xs d <
        ∑ k ∈ Finset.range xs.length, growth xs.length d (xs.drop (k + 1)) ∧
      (∀ e, d ≤ e → product xs d ≤ product xs e) ∧
      (∀ ys, List.Forall₂ (· ≤ ·) xs ys → product ys d ≤ product xs d) ∧
      ∀ (balances : List Amount) (wide p : Wide), balances.map (·.val) = xs → wide.val = d →
        Invariant.product balances wide = .ok p → p.val = product xs d := by
  refine ⟨product_le_quotient hne hpos d, quotient_sub_product_lt hne d, ?_, ?_, ?_⟩
  · intro e hde
    exact product_mono hne hpos hde
  · intro ys hle
    exact product_anti hne hpos hle d
  · rintro balances wide p rfl rfl h
    exact val_eq_product h

/-- For 2, 3 and 4 at the value 9 the exact quotient is 81/8, and the chain comes out at 9: it loses
    more than one unit, but less than the two and a half that its three quotients may lose. -/
theorem product_loss_lt_triple :
    [2, 3, 4] ≠ [] ∧ (∀ x ∈ [2, 3, 4], 0 < x) ∧ product [2, 3, 4] 9 = 9 ∧
      product [2, 3, 4] 9 ≤ 9 ^ 4 / (3 ^ 3 * 24) ∧ (81 / 8 : ℚ) - product [2, 3, 4] 9 < 5 / 2 ∧
      product [2, 3, 4] 9 ≤ product [2, 3, 4] 10 ∧ product [2, 5, 4] 9 ≤ product [2, 3, 4] 9 := by
  have hne : [2, 3, 4] ≠ [] := by decide
  have hpos : ∀ x ∈ [2, 3, 4], 0 < x := by decide
  have hquotient : (81 / 8 : ℚ) = (9 : ℕ) ^ 4 / (3 ^ 3 * [2, 3, 4].prod : ℕ) := by norm_num
  have hsum : ∑ k ∈ Finset.range 3, growth 3 9 ([2, 3, 4].drop (k + 1)) = 5 / 2 := by
    norm_num [Finset.sum_range_succ, growth]
  obtain ⟨hle, hloss, hmono, hanti, -⟩ := product_loss_lt hne hpos 9
  refine ⟨hne, hpos, by decide, hle, ?_, hmono 10 (by decide), hanti [2, 5, 4] (by decide)⟩
  rw [hquotient, ← hsum]
  exact hloss

end StableSwap.Curve
