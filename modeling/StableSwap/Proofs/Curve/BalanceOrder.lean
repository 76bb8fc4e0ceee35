import StableSwap.Proofs.Curve.BalanceTolerance
import StableSwap.Proofs.Curve.Division

/-!
# Two balances compared

The balance solver makes its passes towards the root of a quadratic, and two
quadratics have nothing in common that the passes would keep: they begin with
other values and may come to rest on different sides of their roots. But each
answer is known to one unit by its own quadratic. So it is enough to compare the
quadratics: one whose `c` is no larger and whose linear coefficient `b - d` is no
smaller has no larger root.

Main statements:

* `Quadratic.Undercuts.exceeds`: what lies above the root of a quadratic lies above that of
  one that undercuts it.
* `balance_le_succ_of_undercuts`: the answers then are in that order, up to one unit.
* `undercuts_of_le`: the quadratic beside larger balances and for a smaller target undercuts the
  other one.
* `balance_le_succ_of_le`, `balance_le_succ_of_target_le`: larger given balances and a smaller
  target never need a larger balance, up to one unit.
-/

namespace StableSwap

/-- Two lists related entry by entry stay so when an entry is left out of both. -/
theorem forall₂_eraseIdx {α β : Type} {R : α → β → Prop} {as : List α} {bs : List β}
    (h : List.Forall₂ R as bs) (k : ℕ) : List.Forall₂ R (as.eraseIdx k) (bs.eraseIdx k) := by
  induction h generalizing k with
  | nil => exact .nil
  | cons hab hrest ih =>
    cases k with
    | zero => exact hrest
    | succ k => exact .cons hab (ih k)

namespace Curve

namespace Balance

variable {p q : Quadratic}

/-- The quadratic has no larger `c` than the other one and no smaller linear coefficient. -/
structure Quadratic.Undercuts (p q : Quadratic) : Prop where
  c_le : p.c.val ≤ q.c.val
  linear_le : q.b.val + p.target.val ≤ p.b.val + q.target.val

/-- What lies above the root of a quadratic lies above that of one that undercuts it. -/
theorem Quadratic.Undercuts.exceeds (h : p.Undercuts q) {z : ℕ} (hz : q.Exceeds z) :
    p.Exceeds z := by
  have hc : (p.c.val : ℤ) ≤ q.c.val := by exact_mod_cast h.c_le
  have hlinear : (q.b.val : ℤ) - q.target.val ≤ p.b.val - p.target.val := by
    have := h.linear_le
    omega
  unfold Exceeds at hz ⊢
  calc (p.c.val : ℤ) ≤ q.c.val := hc
    _ < z * z + ((q.b.val : ℤ) - q.target.val) * z := hz
    _ ≤ z * z + ((p.b.val : ℤ) - p.target.val) * z := by gcongr

/-- The answers of two solvers are in the order of their quadratics, up to one unit: one more than
    the larger answer lies above both roots, and what is less than an answer does not lie above its
    own. -/
theorem balance_le_succ_of_undercuts {xs ys : List Amount} {amplification : Word 64} {k : ℕ}
    {d e y z : Amount} (hp : quadratic xs amplification k d = .ok p)
    (hq : quadratic ys amplification k e = .ok q) (hle : p.Undercuts q)
    (hy : balance xs amplification k d = .ok y) (hz : balance ys amplification k e = .ok z) :
    y.val ≤ z.val + 1 := by
  obtain ⟨q', hq', hexceeds⟩ := exceeds_of_balance hz
  obtain rfl : q = q' := eq_of_eq_ok hq hq'
  by_contra hlt
  obtain ⟨w, hw⟩ : ∃ w, y.val = w + 1 := ⟨y.val - 1, by omega⟩
  apply not_exceeds_of_balance hy hp hw
  exact (hle.exceeds hexceeds).mono (by omega)

/-! ## Which quadratics undercut which -/

variable {balances others : List Amount} {amplification : Word 64} {k : ℕ} {d e : Amount}

/-- A quadratic that could be formed has no divisor of zero. -/
theorem pos_of_quadratic (h : quadratic balances amplification k d = .ok q) {x : Amount}
    (hx : x ∈ balances.eraseIdx k) : 0 < x.val := by
  simp only [quadratic, bind_eq_ok_iff] at h
  obtain ⟨_, _, _, _, partialC, hpartial, _⟩ := h
  obtain ⟨c, c', hfactor⟩ := exists_step_of_foldlM hpartial hx
  simp only [factor, bind_eq_ok_iff, Word.mul_eq_ok_iff, Word.div_eq_ok_iff, Amount.val_wide]
    at hfactor
  obtain ⟨_, _, divisor, hdivisor, hne, _⟩ := hfactor
  rw [hdivisor] at hne
  exact Nat.pos_of_ne_zero (Nat.ne_zero_of_mul_ne_zero_left hne)

/-- Beside larger balances and for a smaller target the quadratic undercuts the other one: its `c`
    divides by the balances and its `b` adds them up, and the target has a larger part in `b - d`
    than the quotient in `b`. -/
theorem undercuts_of_le (hp : quadratic others amplification k d = .ok p)
    (hq : quadratic balances amplification k e = .ok q)
    (hgiven : List.Forall₂ (fun x y => y.val ≤ x.val) others balances) (htarget : d.val ≤ e.val) :
    p.Undercuts q := by
  obtain ⟨hptarget, hpc, hpb⟩ := eq_coefficients hp
  obtain ⟨hqtarget, hqc, hqb⟩ := eq_coefficients hq
  have hlever := leverage_pos_of_quadratic hq
  have hn : 0 < balances.length := Nat.pos_of_mul_pos_left hlever
  have hleverage : 0 < amplification.val * balances.length := Nat.pos_of_mul_pos_right hlever
  have hrest : List.Forall₂ (fun x y => y ≤ x) ((others.eraseIdx k).map (·.val))
      ((balances.eraseIdx k).map (·.val)) := by
    rw [List.forall₂_map_left_iff, List.forall₂_map_right_iff]
    exact forall₂_eraseIdx hgiven k
  have hpos : ∀ y ∈ (balances.eraseIdx k).map (·.val), 0 < y := by
    simpa using fun y hy => pos_of_quadratic hq hy
  rw [hgiven.length_eq] at hpc hpb
  constructor
  · have hchain := Exact.chain_mono hn htarget htarget hpos hrest
    rw [hpc, hqc]
    exact Nat.div_le_div_right (Nat.mul_le_mul hchain htarget)
  · have hsum : ((balances.eraseIdx k).map (·.val)).sum ≤
        ((others.eraseIdx k).map (·.val)).sum := by
      have := Exact.sum_le_of_forall₂ (a := 1) (b := 1) (hrest.imp fun x y h => by omega)
      omega
    obtain ⟨m, hm⟩ := Nat.exists_eq_add_of_le htarget
    have hshare : e.val / (amplification.val * balances.length) ≤
        d.val / (amplification.val * balances.length) + m := by
      rw [hm, ← Nat.add_mul_div_right _ _ hleverage]
      apply Nat.div_le_div_right
      exact Nat.add_le_add_left (Nat.le_mul_of_pos_right m hleverage) _
    rw [hptarget, hqtarget, hpb, hqb]
    unfold Exact.coefficientB
    omega

end Balance

open Balance

variable {balances others : List Amount} {amplification : Word 64} {k : ℕ} {d e y z : Amount}

/-- Beside larger balances and for a smaller target no larger balance is needed, up to one unit. -/
theorem balance_le_succ_of_le (hgiven : List.Forall₂ (fun x y => y.val ≤ x.val) others balances)
    (htarget : d.val ≤ e.val) (hy : balance others amplification k d = .ok y)
    (hz : balance balances amplification k e = .ok z) : y.val ≤ z.val + 1 := by
  obtain ⟨p, hp, -⟩ := exceeds_of_balance hy
  obtain ⟨q, hq, -⟩ := exceeds_of_balance hz
  exact balance_le_succ_of_undercuts hp hq (undercuts_of_le hp hq hgiven htarget) hy hz

/-- A smaller target never needs a larger balance, up to one unit, for all balances, every
    amplification and every asset. -/
theorem balance_le_succ_of_target_le {balances : List Amount} {amplification : Word 64} {k : ℕ}
    {d e y z : Amount} (hle : d.val ≤ e.val) (hy : balance balances amplification k d = .ok y)
    (hz : balance balances amplification k e = .ok z) : y.val ≤ z.val + 1 := by
  have hsame : List.Forall₂ (fun x y : Amount => y.val ≤ x.val) balances balances :=
    List.forall₂_same.2 fun _ _ => le_rfl
  exact balance_le_succ_of_le hsame hle hy hz

/-- The unit is needed: of the targets one and two, the smaller one is its own balance without a
    pass. -/
theorem balance_le_succ_of_target_le_pair :
    balance [2, 3] 2 0 1 = .ok 1 ∧ balance [2, 3] 2 0 2 = .ok 0 ∧ (1 : ℕ) ≤ 0 + 1 := by
  have hsmall : balance [2, 3] 2 0 1 = .ok 1 := by decide +kernel
  have hlarge : balance [2, 3] 2 0 2 = .ok 0 := by decide +kernel
  exact ⟨hsmall, hlarge, balance_le_succ_of_target_le (by decide) hsmall hlarge⟩

end Curve

end StableSwap
