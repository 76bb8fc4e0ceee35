import StableSwap.Proofs.Curve.InvariantBound
import StableSwap.Proofs.Pool.Scaling

/-!
# What a share is worth

A share stands for the part `D / supply` of the invariant. Two pools are compared
by the cross products, so that nothing is rounded; the virtual price, which is
the same fraction in whole units, follows the comparison.

Main statements:

* `invariant_pos_of_pos`: a pool in which no asset is missing is worth something.
* `cross_le_trans`: how fractions are compared one after the other.
* `SharesKeep.trans`: the comparison carries over from one pool to the next.
* `SharesKeep.virtualPrice_le`: the virtual price does not fall where a share
  keeps its worth.
-/

namespace StableSwap.Pool

variable {p q r : Pool}

/-! ## The invariant and the virtual price -/

theorem invariantOf_eq_ok_iff {balances : List Amount} {d : Amount} :
    p.invariantOf balances = .ok d ↔
      ∃ xs, p.scale balances = .ok xs ∧ Curve.invariant xs p.amplification = .ok d := by
  rw [invariantOf, bind_eq_ok_iff]

theorem virtualPrice_eq_ok_iff {v : Amount} :
    p.virtualPrice = .ok v ↔
      0 < p.supply.val ∧
        ∃ d, p.invariant = .ok d ∧ v.val = d.val * Amount.unit.val / p.supply.val := by
  simp only [virtualPrice, checkSupply, bind_eq_ok_iff, require_eq_ok_iff, Word.mulDiv_eq_ok_iff]
  constructor
  · rintro ⟨_, hpos, d, hd, -, hv⟩
    exact ⟨hpos, d, hd, hv⟩
  · rintro ⟨hpos, d, hd, hv⟩
    exact ⟨(), hpos, d, hd, Nat.ne_of_gt hpos, hv⟩

/-- If there is something of every asset, the invariant is positive. -/
theorem WellFormed.invariant_pos_of_pos (hp : p.WellFormed) {balances : List Amount} {d : Amount}
    (h : p.invariantOf balances = .ok d) (hpos : ∀ b ∈ balances, 0 < b.val) : 0 < d.val := by
  obtain ⟨xs, hxs, hd⟩ := invariantOf_eq_ok_iff.1 h
  exact Curve.invariant_pos hd (hp.scale_pos hxs hpos)

/-! ## Comparing two pools -/

/-- Three fractions, of which each is at most the next by their cross products: so is the first at
    most the last. -/
theorem cross_le_trans {x y z a b c : ℕ} (hb : 0 < b) (hxy : x * b ≤ y * a)
    (hyz : y * c ≤ z * b) : x * c ≤ z * a := by
  -- both comparisons multiplied up to the three denominators, and the middle one cancelled
  apply Nat.le_of_mul_le_mul_right _ hb
  calc x * c * b = x * b * c := by ring
    _ ≤ y * a * c := Nat.mul_le_mul_right _ hxy
    _ = y * c * a := by ring
    _ ≤ z * b * a := Nat.mul_le_mul_right _ hyz
    _ = z * a * b := by ring

/-- Both pools have an invariant, and a share of the second stands for no less of it than a
    share of the first. -/
def SharesKeep (p q : Pool) : Prop :=
  ∃ d d' : Amount, p.invariant = .ok d ∧ q.invariant = .ok d' ∧
    d.val * q.supply.val ≤ d'.val * p.supply.val

theorem SharesKeep.trans (hpq : SharesKeep p q) (hqr : SharesKeep q r)
    (hpos : 0 < q.supply.val) : SharesKeep p r := by
  obtain ⟨d, e, hd, he, hde⟩ := hpq
  obtain ⟨e', f, he', hf, hef⟩ := hqr
  obtain rfl : e = e' := eq_of_eq_ok he he'
  exact ⟨d, f, hd, hf, cross_le_trans hpos hde hef⟩

/-- Where a share keeps its worth, the virtual price does not fall. -/
theorem SharesKeep.virtualPrice_le (h : SharesKeep p q) {v w : Amount}
    (hv : p.virtualPrice = .ok v) (hw : q.virtualPrice = .ok w) : v.val ≤ w.val := by
  obtain ⟨d, e, hd, he, hde⟩ := h
  obtain ⟨hp, d', hd', hv⟩ := virtualPrice_eq_ok_iff.1 hv
  obtain ⟨hq, e', he', hw⟩ := virtualPrice_eq_ok_iff.1 hw
  obtain rfl : d = d' := eq_of_eq_ok hd hd'
  obtain rfl : e = e' := eq_of_eq_ok he he'
  have hfloor : v.val * p.supply.val ≤ d.val * Amount.unit.val := by
    rw [hv]
    exact Nat.div_mul_le_self _ _
  rw [hw, Nat.le_div_iff_mul_le hq]
  exact cross_le_trans hp hfloor hde

end StableSwap.Pool
