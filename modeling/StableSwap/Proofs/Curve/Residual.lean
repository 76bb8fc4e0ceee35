import StableSwap.Curve.Exact
import StableSwap.Curve.Residual
import StableSwap.Proofs.Curve.Chain
import Mathlib.Algebra.Order.BigOperators.GroupWithZero.List

/-!
# The residual as a measure

The residual at `d` is the distance between the two sides of the invariant equation. It
hides on which side of the solution `d` lies, but the difference of the sides shows it:
from one `d` to the next the right side grows by the leverage at least, and the left one
by one unit. So with a leverage of two or more the difference falls strictly, although
its last term is rounded down, and the residual falls up to the solution and grows from
there on. What is formed on the way grows with `d`, so that the residual is answered for
every value below one for which it is.

Main statements:

* `difference_lt`: the difference of the sides falls strictly.
* `ResidualFits.mono`: what is in range for a value is so for every smaller one.
* `power_eq_ok_iff`, `eq_of_scaledProduct`, `exists_scaledProduct`: the two products that the last
  term is made of.
* `residual_eq_ok`, `exists_residual`: where the residual is answered, and with what.
* `residual_lt_max`: between two values the residual is smaller than the larger of theirs.
-/

namespace StableSwap.Curve

namespace Exact

/-- The left side of the invariant equation. -/
def leftSide (leverage : ℕ) (xs : List ℕ) (d : ℕ) : ℕ := leverage * xs.sum + d

/-- The last term of the right side, one division rounded down. -/
def lastTerm (xs : List ℕ) (d : ℕ) : ℕ :=
  d ^ (xs.length + 1) / (xs.length ^ xs.length * xs.prod)

/-- The right side of the invariant equation. -/
def rightSide (leverage : ℕ) (xs : List ℕ) (d : ℕ) : ℕ := leverage * d + lastTerm xs d

/-- The left side less the right one: it is positive below the solution and negative above it. -/
def difference (leverage : ℕ) (xs : List ℕ) (d : ℕ) : ℤ :=
  (leftSide leverage xs d : ℤ) - rightSide leverage xs d

/-- All that the residual is formed of is among the wide numbers, and there is something of every
    asset. -/
structure ResidualFits (leverage : ℕ) (xs : List ℕ) (d : ℕ) : Prop where
  pos : ∀ x ∈ xs, 0 < x
  leverage_lt : leverage < Word.size 512
  sum_lt : xs.sum < Word.size 512
  product_lt : xs.length ^ xs.length * xs.prod < Word.size 512
  power_lt : d ^ (xs.length + 1) < Word.size 512
  left_lt : leftSide leverage xs d < Word.size 512
  right_lt : rightSide leverage xs d < Word.size 512

variable {leverage d e : ℕ} {xs : List ℕ}

theorem lastTerm_mono (xs : List ℕ) : Monotone (lastTerm xs) :=
  fun _ _ hde => Nat.div_le_div_right (Nat.pow_le_pow_left hde _)

theorem leftSide_mono (leverage : ℕ) (xs : List ℕ) : Monotone (leftSide leverage xs) :=
  fun _ _ hde => Nat.add_le_add_left hde _

theorem rightSide_mono (leverage : ℕ) (xs : List ℕ) : Monotone (rightSide leverage xs) :=
  fun _ _ hde => Nat.add_le_add (Nat.mul_le_mul_left _ hde) (lastTerm_mono xs hde)

/-- What fits for a value fits for every smaller one. -/
theorem ResidualFits.mono (h : ResidualFits leverage xs e) (hde : d ≤ e) :
    ResidualFits leverage xs d :=
  { h with
    power_lt := (Nat.pow_le_pow_left hde _).trans_lt h.power_lt
    left_lt := (leftSide_mono leverage xs hde).trans_lt h.left_lt
    right_lt := (rightSide_mono leverage xs hde).trans_lt h.right_lt }

/-- With a leverage of two or more the difference of the sides falls strictly: the rounded term
    does not fall, and `L·d` grows faster than `d`. -/
theorem difference_lt (hleverage : 2 ≤ leverage) (hlt : d < e) :
    difference leverage xs e < difference leverage xs d := by
  have hlast : lastTerm xs d ≤ lastTerm xs e := lastTerm_mono xs hlt.le
  have hlinear : leverage * d + e < leverage * e + d := by
    obtain ⟨m, rfl⟩ := Nat.exists_eq_add_of_lt hlt
    have hgrowth : 2 * (m + 1) ≤ leverage * (m + 1) := Nat.mul_le_mul_right _ hleverage
    rw [Nat.add_assoc d m 1, Nat.mul_add leverage d]
    omega
  unfold difference leftSide rightSide
  omega

/-- So it has no value twice. -/
theorem difference_injective (hleverage : 2 ≤ leverage)
    (h : difference leverage xs d = difference leverage xs e) : d = e := by
  rcases Nat.lt_trichotomy d e with hlt | heq | hgt
  · exact absurd h (difference_lt hleverage hlt).ne'
  · exact heq
  · exact absurd h (difference_lt hleverage hgt).ne

/-- Of three numbers in order the middle one is closer to zero than one of the others. -/
theorem natAbs_lt_max {x y z : ℤ} (hxy : y < x) (hyz : z < y) :
    y.natAbs < max x.natAbs z.natAbs := by
  omega

end Exact

open Exact

/-! ## What the residual forms -/

namespace Residual

theorem power_eq_ok_iff {d p : Wide} {k : ℕ} : power d k = .ok p ↔ p.val = d.val ^ (k + 1) := by
  induction k generalizing p with
  | zero => rw [power, Nat.zero_add, pow_one, Except.ok.injEq, eq_comm, Word.ext_iff]
  | succ k ih =>
    simp only [power, bind_eq_ok_iff, ih, Word.mul_eq_ok_iff]
    constructor
    · rintro ⟨q, hq, hp⟩
      rw [hp, hq, ← pow_succ]
    · intro hp
      have hle : d.val ^ (k + 1) ≤ d.val ^ (k + 1 + 1) := by
        rcases Nat.eq_zero_or_pos d.val with hzero | hpos
        · rw [hzero, zero_pow (Nat.succ_ne_zero k)]
          exact Nat.zero_le _
        · exact Nat.pow_le_pow_right hpos (Nat.le_succ _)
      obtain ⟨q, hq⟩ : ∃ q : Wide, q.val = d.val ^ (k + 1) :=
        ⟨⟨_, hle.trans_lt (hp ▸ p.isLt)⟩, rfl⟩
      exact ⟨q, hq, by rw [hp, hq, pow_succ]⟩

theorem factor_eq_ok_iff {n : ℕ} {p q : Wide} {x : Amount} :
    factor n p x = .ok q ↔ p.val * n < Word.size 512 ∧ q.val = p.val * n * x.val := by
  simp only [factor, bind_eq_ok_iff, Word.mul_eq_ok_iff]
  constructor
  · rintro ⟨r, hr, hq⟩
    rw [← hr]
    exact ⟨r.isLt, hq⟩
  · rintro ⟨hlt, hq⟩
    exact ⟨⟨_, hlt⟩, rfl, hq⟩

theorem eq_of_foldlM_factor {n : ℕ} {xs : List Amount} {p q : Wide}
    (h : xs.foldlM (factor n) p = .ok q) :
    q.val = p.val * (n ^ xs.length * (xs.map (·.val)).prod) := by
  induction xs generalizing p with
  | nil =>
    cases h
    simp
  | cons x xs ih =>
    rw [List.foldlM_cons, bind_eq_ok_iff] at h
    obtain ⟨r, hr, h⟩ := h
    rw [ih h, (factor_eq_ok_iff.1 hr).2, List.length_cons, List.map_cons, List.prod_cons]
    ring

/-- Without a factor of zero the product is in range at every stage if it is at the end. -/
theorem exists_foldlM_factor {n : ℕ} (hn : 0 < n) {xs : List Amount} (hpos : ∀ x ∈ xs, 0 < x.val)
    {p : Wide} (hlt : p.val * (n ^ xs.length * (xs.map (·.val)).prod) < Word.size 512) :
    ∃ q, xs.foldlM (factor n) p = .ok q := by
  induction xs generalizing p with
  | nil => exact ⟨p, rfl⟩
  | cons x xs ih =>
    have hx : 0 < x.val := hpos x List.mem_cons_self
    have hrest : ∀ y ∈ xs, 0 < y.val := fun y hy => hpos y (List.mem_cons_of_mem x hy)
    have hprod : 0 < (xs.map (·.val)).prod := List.prod_pos (by simpa using hrest)
    have hfactors : 0 < n ^ xs.length * (xs.map (·.val)).prod := Nat.mul_pos (Nat.pow_pos hn) hprod
    rw [List.length_cons, List.map_cons, List.prod_cons,
      show p.val * (n ^ (xs.length + 1) * (x.val * (xs.map (·.val)).prod)) =
        p.val * n * x.val * (n ^ xs.length * (xs.map (·.val)).prod) by ring] at hlt
    have hsecond := (Nat.le_mul_of_pos_right _ hfactors).trans_lt hlt
    have hfirst := (Nat.le_mul_of_pos_right _ hx).trans_lt hsecond
    obtain ⟨q, hq⟩ := ih (p := ⟨p.val * n * x.val, hsecond⟩) hrest hlt
    have hfactor : factor n p x = .ok ⟨p.val * n * x.val, hsecond⟩ :=
      factor_eq_ok_iff.2 ⟨hfirst, rfl⟩
    exact ⟨q, by rw [List.foldlM_cons, hfactor, ok_bind, hq]⟩

theorem eq_of_scaledProduct {balances : List Amount} {k : Wide}
    (h : scaledProduct balances = .ok k) :
    k.val = balances.length ^ balances.length * (balances.map (·.val)).prod := by
  rw [eq_of_foldlM_factor h, Word.val_one, Nat.one_mul]

theorem exists_scaledProduct {balances : List Amount} (hpos : ∀ x ∈ balances, 0 < x.val)
    (hlt : balances.length ^ balances.length * (balances.map (·.val)).prod < Word.size 512) :
    ∃ k, scaledProduct balances = .ok k := by
  rcases eq_or_ne balances [] with rfl | hne
  · exact ⟨_, rfl⟩
  · apply exists_foldlM_factor (List.length_pos_iff.2 hne) hpos
    rwa [Word.val_one, Nat.one_mul]

end Residual

open Residual

/-! ## The residual -/

variable {balances : List Amount} {amplification : Word 64}

/-- What a residual that is answered is formed of is in range, and it is the distance of the two
    sides. -/
theorem residual_eq_ok {d : Amount} {r : Wide} (h : residual balances amplification d = .ok r) :
    ResidualFits (amplification.val * balances.length) (balances.map (·.val)) d.val ∧
      r.val = (difference (amplification.val * balances.length) (balances.map (·.val))
        d.val).natAbs := by
  simp only [residual, bind_eq_ok_iff, leverage_eq_ok_iff, total_eq_ok_iff, power_eq_ok_iff,
    Word.mul_eq_ok_iff, Word.add_eq_ok_iff, Word.div_eq_ok_iff, pure, Except.pure,
    Except.ok.injEq] at h
  obtain ⟨l, hl, s, hs, k, hk, p, hp, ls, hls, left, hleft, ld, hld, last, ⟨hne, hlast⟩, right,
    hright, rfl⟩ := h
  have hk := eq_of_scaledProduct hk
  have hleft : left.val = leftSide (amplification.val * balances.length)
      (balances.map (·.val)) d.val := by
    rw [leftSide, hleft, hls, hl, hs, Amount.val_wide]
  have hright : right.val = rightSide (amplification.val * balances.length)
      (balances.map (·.val)) d.val := by
    rw [rightSide, lastTerm, hright, hld, hlast, hl, hp, hk, List.length_map, Amount.val_wide]
  constructor
  · exact
      { pos := by
          intro x hx
          apply Nat.pos_of_ne_zero
          rintro rfl
          rw [hk, List.prod_eq_zero hx, Nat.mul_zero] at hne
          exact hne rfl
        leverage_lt := hl ▸ l.isLt
        sum_lt := hs ▸ s.isLt
        product_lt := by
          rw [List.length_map, ← hk]
          exact k.isLt
        power_lt := by
          rw [List.length_map, ← Amount.val_wide, ← hp]
          exact p.isLt
        left_lt := hleft ▸ left.isLt
        right_lt := hright ▸ right.isLt }
  · rw [Word.val_distance, difference, ← hleft, ← hright]
    omega

/-- A residual is answered if all that it is formed of is in range. -/
theorem exists_residual {d : Amount}
    (h : ResidualFits (amplification.val * balances.length) (balances.map (·.val)) d.val) :
    ∃ r, residual balances amplification d = .ok r := by
  have hpos : ∀ x ∈ balances, 0 < x.val := by simpa using h.pos
  have hproduct := h.product_lt
  have hpower := h.power_lt
  have hright := h.right_lt
  rw [List.length_map] at hproduct hpower
  obtain ⟨k, hk⟩ := exists_scaledProduct hpos hproduct
  have hvalue := eq_of_scaledProduct hk
  have hne : k.val ≠ 0 := by
    rw [hvalue]
    exact (Nat.mul_pos Nat.pow_self_pos (List.prod_pos h.pos)).ne'
  rw [rightSide, lastTerm, List.length_map, ← hvalue] at hright
  have hleveraged := (Nat.le_add_right _ _).trans_lt hright
  have hlast := (Nat.le_add_left _ _).trans_lt hright
  have hsum := (Nat.le_add_right _ _).trans_lt h.left_lt
  simp only [residual, bind_eq_ok_iff, leverage_eq_ok_iff, total_eq_ok_iff, power_eq_ok_iff,
    Word.mul_eq_ok_iff, Word.add_eq_ok_iff, Word.div_eq_ok_iff, pure, Except.pure,
    Except.ok.injEq]
  exact ⟨_, ⟨_, h.leverage_lt⟩, rfl, ⟨_, h.sum_lt⟩, rfl, k, hk, ⟨_, hpower⟩, rfl, ⟨_, hsum⟩, rfl,
    ⟨_, h.left_lt⟩, rfl, ⟨_, hleveraged⟩, rfl, ⟨_, hlast⟩, ⟨hne, rfl⟩, ⟨_, hright⟩, rfl, rfl⟩

/-- Between two values for which it is answered the residual is answered as well, and it is smaller
    than the larger of the two, for all balances and every amplification with a leverage of two or
    more. So it is zero for one value at most. That no balance is zero need not be assumed: a
    residual that is answered says so. -/
theorem residual_lt_max (hleverage : 2 ≤ amplification.val * balances.length) :
    (∀ (a b c : Amount) (ra rc : Wide), a.val < b.val → b.val < c.val →
      residual balances amplification a = .ok ra → residual balances amplification c = .ok rc →
      ∃ rb, residual balances amplification b = .ok rb ∧ rb.val < max ra.val rc.val) ∧
    ∀ a b : Amount, residual balances amplification a = .ok 0 →
      residual balances amplification b = .ok 0 → a = b := by
  constructor
  · intro a b c ra rc hab hbc ha hc
    obtain ⟨-, hra⟩ := residual_eq_ok ha
    obtain ⟨hfits, hrc⟩ := residual_eq_ok hc
    obtain ⟨rb, hb⟩ := exists_residual (hfits.mono hbc.le)
    refine ⟨rb, hb, ?_⟩
    rw [hra, (residual_eq_ok hb).2, hrc]
    exact natAbs_lt_max (difference_lt hleverage hab) (difference_lt hleverage hbc)
  · intro a b ha hb
    have hra := (residual_eq_ok ha).2
    have hrb := (residual_eq_ok hb).2
    have hsame : difference (amplification.val * balances.length) (balances.map (·.val)) a.val =
        difference (amplification.val * balances.length) (balances.map (·.val)) b.val := by
      rw [Word.val_zero] at hra hrb
      omega
    exact Word.ext (difference_injective hleverage hsame)

/-- For 3 and 7 the residual falls from five at 9 to one at 10 and is eight at 11; for 5 and 5 it is
    zero at 10 and nowhere else. -/
theorem residual_lt_max_unevenPair :
    (2 ≤ (2 : Word 64).val * ([3, 7] : List Amount).length ∧
      residual [3, 7] 2 9 = .ok 5 ∧ residual [3, 7] 2 11 = .ok 8 ∧
      ∃ r, residual [3, 7] 2 10 = .ok r ∧ r.val < max (5 : Wide).val (8 : Wide).val) ∧
    2 ≤ (1 : Word 64).val * ([5, 5] : List Amount).length ∧ residual [5, 5] 1 10 = .ok 0 ∧
      ∀ d, residual [5, 5] 1 d = .ok 0 → d = 10 := by
  have huneven : 2 ≤ (2 : Word 64).val * ([3, 7] : List Amount).length := by decide
  have heven : 2 ≤ (1 : Word 64).val * ([5, 5] : List Amount).length := by decide
  have hbelow : residual [3, 7] 2 9 = .ok 5 := by decide +kernel
  have habove : residual [3, 7] 2 11 = .ok 8 := by decide +kernel
  have hroot : residual [5, 5] 1 10 = .ok 0 := by decide +kernel
  obtain ⟨hbetween, -⟩ := residual_lt_max huneven
  obtain ⟨-, hunique⟩ := residual_lt_max heven
  refine ⟨⟨huneven, hbelow, habove, ?_⟩, heven, hroot, ?_⟩
  · exact hbetween 9 10 11 5 8 (by decide) (by decide) hbelow habove
  · intro d hd
    exact hunique d 10 hd hroot

end StableSwap.Curve
