import StableSwap.Proofs.Curve.Chain
import Mathlib.Algebra.BigOperators.Ring.List
import Mathlib.Algebra.Order.BigOperators.Group.List
import Mathlib.Data.List.Perm.Basic

/-!
# Balances on the curve of an invariant

With the denominators cleared, the balances `x₀ … xₙ₋₁` lie on the curve of the
invariant `d` if

    d^(n+1) + (L − 1) · d · N = L · S · N        where N = nⁿ · Πxᵢ

and above it if the left side is smaller. They *support* the invariant in both
cases. Every term is of the degree `n + 1` in the balances and `d` together, so
that balances of `a / b` times the size support `a / b` times the invariant.

Main statements:

* `supports_least`: balances of at least `m` support their number times `m`.
* `Supports.perm`: the order of the balances does not matter.
* `Supports.scale`: balances that are at least `a / b` of others support the
  same part of their invariant.
* `Supports.mono`: larger balances support what smaller ones do, and less.
* `supports_one`: positive balances support an invariant of one.
-/

namespace StableSwap.Curve.Exact

/-- The balances lie on the curve of the invariant `d` or above it. -/
def Supports (leverage : ℕ) (xs : List ℕ) (d : ℕ) : Prop :=
  d ^ (xs.length + 1) + (leverage - 1) * d * (xs.length ^ xs.length * xs.prod) ≤
    leverage * xs.sum * (xs.length ^ xs.length * xs.prod)

variable {leverage : ℕ} {xs ys : List ℕ} {d e : ℕ}

/-- As many balances support so many times any that none of them falls below. -/
theorem supports_least (hleverage : 0 < leverage) {m : ℕ} (hm : ∀ x ∈ xs, m ≤ x) :
    Supports leverage xs (xs.length * m) := by
  have hsum : xs.length * m ≤ xs.sum := List.card_nsmul_le_sum xs m hm
  have hprod : (xs.length * m) ^ xs.length ≤ xs.length ^ xs.length * xs.prod := by
    rw [mul_pow]
    exact Nat.mul_le_mul_left _ (List.pow_card_le_prod xs m hm)
  unfold Supports
  generalize xs.length ^ xs.length * xs.prod = k at hprod ⊢
  obtain ⟨l, rfl⟩ := Nat.exists_eq_add_of_lt hleverage
  rw [Nat.add_sub_cancel]
  calc (xs.length * m) ^ (xs.length + 1) + (0 + l) * (xs.length * m) * k
      = (xs.length * m) ^ xs.length * (xs.length * m) + (0 + l) * (xs.length * m) * k := by
        rw [pow_succ]
    _ ≤ k * (xs.length * m) + (0 + l) * (xs.length * m) * k :=
        Nat.add_le_add_right (Nat.mul_le_mul_right _ hprod) _
    _ = (0 + l + 1) * (xs.length * m) * k := by ring
    _ ≤ (0 + l + 1) * xs.sum * k := Nat.mul_le_mul_right _ (Nat.mul_le_mul_left _ hsum)

theorem Supports.perm (h : Supports leverage xs d) (hperm : xs.Perm ys) :
    Supports leverage ys d := by
  unfold Supports at h ⊢
  rwa [← hperm.length_eq, ← hperm.prod_eq, ← hperm.sum_eq]

/-- The inequality of the curve, in its invariant `u`, its sum `s` and its product `m`, holds for
    a smaller invariant, a larger sum and a larger product as well. -/
theorem curve_mono {n u v s s' m m' : ℕ}
    (h : u ^ (n + 1) + (leverage - 1) * u * m ≤ leverage * s * m) (hvu : v ≤ u) (hs : s ≤ s')
    (hm : m ≤ m') : v ^ (n + 1) + (leverage - 1) * v * m' ≤ leverage * s' * m' := by
  have hpow : v ^ (n + 1) ≤ u ^ (n + 1) := Nat.pow_le_pow_left hvu _
  have hlinear : (leverage - 1) * v * m ≤ (leverage - 1) * u * m :=
    Nat.mul_le_mul_right _ (Nat.mul_le_mul_left _ hvu)
  obtain ⟨k, rfl⟩ := Nat.exists_eq_add_of_le hm
  rcases Nat.eq_zero_or_pos m with rfl | hpos
  · -- a curve without a product has no invariant but zero
    have hu : u ^ (n + 1) = 0 := by omega
    have hzero : v = 0 := by
      have := (pow_eq_zero_iff (Nat.succ_ne_zero n)).1 hu
      omega
    rw [hzero, zero_pow (Nat.succ_ne_zero n), Nat.mul_zero, Nat.zero_mul]
    exact Nat.zero_le _
  · have hfactor : (leverage - 1) * v ≤ leverage * s := by
      apply Nat.le_of_mul_le_mul_right _ hpos
      omega
    have hsum : leverage * s ≤ leverage * s' := Nat.mul_le_mul_left _ hs
    have hold : leverage * s * m ≤ leverage * s' * m := Nat.mul_le_mul_right _ hsum
    have hnew : (leverage - 1) * v * k ≤ leverage * s' * k :=
      Nat.mul_le_mul_right _ (hfactor.trans hsum)
    rw [Nat.mul_add, Nat.mul_add]
    omega

/-! ## Larger and smaller balances -/

theorem sum_le_of_forall₂ {a b : ℕ} (h : List.Forall₂ (fun x y => a * y ≤ b * x) xs ys) :
    a * ys.sum ≤ b * xs.sum := by
  induction h with
  | nil => simp
  | cons hxy _ ih =>
    rw [List.sum_cons, List.sum_cons, Nat.mul_add, Nat.mul_add]
    exact Nat.add_le_add hxy ih

theorem prod_le_of_forall₂ {a b : ℕ} (h : List.Forall₂ (fun x y => a * y ≤ b * x) xs ys) :
    a ^ ys.length * ys.prod ≤ b ^ xs.length * xs.prod := by
  induction h with
  | nil => simp
  | @cons x y xs ys hxy _ ih =>
    rw [List.length_cons, List.length_cons, List.prod_cons, List.prod_cons]
    calc a ^ (ys.length + 1) * (y * ys.prod) = a * y * (a ^ ys.length * ys.prod) := by ring
      _ ≤ b * x * (b ^ xs.length * xs.prod) := Nat.mul_le_mul hxy ih
      _ = b ^ (xs.length + 1) * (x * xs.prod) := by ring

/-- Balances of which each is at least `a / b` of its counterpart support that part of the
    invariant. -/
theorem Supports.scale {a b : ℕ} (h : Supports leverage ys d) (hb : 0 < b)
    (hle : List.Forall₂ (fun x y => a * y ≤ b * x) xs ys) : Supports leverage xs (a * d / b) := by
  have hlength : xs.length = ys.length := hle.length_eq
  have hsum := sum_le_of_forall₂ hle
  have hprod := Nat.mul_le_mul_left (ys.length ^ ys.length) (prod_le_of_forall₂ hle)
  have hfloor : b * (a * d / b) ≤ a * d := Nat.mul_div_le _ _
  unfold Supports at h ⊢
  rw [hlength] at hprod ⊢
  have hscaled : (a * d) ^ (ys.length + 1) +
      (leverage - 1) * (a * d) * (ys.length ^ ys.length * (a ^ ys.length * ys.prod)) ≤
        leverage * (a * ys.sum) * (ys.length ^ ys.length * (a ^ ys.length * ys.prod)) := by
    calc (a * d) ^ (ys.length + 1) +
          (leverage - 1) * (a * d) * (ys.length ^ ys.length * (a ^ ys.length * ys.prod))
        = a ^ (ys.length + 1) * (d ^ (ys.length + 1) +
            (leverage - 1) * d * (ys.length ^ ys.length * ys.prod)) := by ring
      _ ≤ a ^ (ys.length + 1) * (leverage * ys.sum * (ys.length ^ ys.length * ys.prod)) :=
          Nat.mul_le_mul_left _ h
      _ = leverage * (a * ys.sum) * (ys.length ^ ys.length * (a ^ ys.length * ys.prod)) := by
          ring
  have hlarger := curve_mono hscaled hfloor hsum hprod
  -- both sides contain the factor `b^(n+1)`
  apply Nat.le_of_mul_le_mul_left _ (Nat.pow_pos hb : 0 < b ^ (ys.length + 1))
  calc b ^ (ys.length + 1) * ((a * d / b) ^ (ys.length + 1) +
        (leverage - 1) * (a * d / b) * (ys.length ^ ys.length * xs.prod))
      = (b * (a * d / b)) ^ (ys.length + 1) + (leverage - 1) * (b * (a * d / b)) *
          (ys.length ^ ys.length * (b ^ ys.length * xs.prod)) := by ring
    _ ≤ leverage * (b * xs.sum) * (ys.length ^ ys.length * (b ^ ys.length * xs.prod)) := hlarger
    _ = b ^ (ys.length + 1) * (leverage * xs.sum * (ys.length ^ ys.length * xs.prod)) := by ring

/-- Larger balances support what smaller ones do, and every smaller invariant. -/
theorem Supports.mono (h : Supports leverage ys d) (hle : List.Forall₂ (fun x y => y ≤ x) xs ys)
    (hed : e ≤ d) : Supports leverage xs e := by
  have hscale : Supports leverage xs (1 * d / 1) :=
    h.scale Nat.one_pos (hle.imp fun x y hyx => by rwa [Nat.one_mul, Nat.one_mul])
  rw [Nat.one_mul, Nat.div_one] at hscale
  unfold Supports at hscale ⊢
  exact curve_mono hscale hed le_rfl le_rfl

/-- Positive balances support an invariant of one. -/
theorem supports_one (hleverage : 0 < leverage) (hne : xs ≠ []) (hpos : ∀ x ∈ xs, 0 < x) :
    Supports leverage xs 1 := by
  have hleast := supports_least hleverage hpos
  have hlength : 1 ≤ xs.length * 1 := by
    rw [Nat.mul_one]
    exact List.length_pos_iff.2 hne
  exact hleast.mono (List.forall₂_refl xs) hlength

end StableSwap.Curve.Exact
