import StableSwap.Fee
import StableSwap.Proofs.Refusal
import Mathlib.Tactic.Ring

/-!
# How much a fee takes

A rate takes the part of an amount that its fraction says, rounded down. The rate on
the imbalance of two assets or more is at most half of the rate on trades.

Main statements:

* `FeeRate.part_le`, `FeeRate.fee_le`: a valid rate takes at most the whole.
* `FeeRate.mul_fee_le`: a rate of at most the `k`-th part takes at most that part.
* `FeeRate.fee_mono`, `FeeRate.add_fee_le`: of a larger amount a larger fee is taken, and more
  is left.
* `FeeRate.sub_fee_le_succ`: one unit of the amount is at most one unit of what is left.
* `FeeSchedule.val_imbalanceFee`, `FeeSchedule.imbalanceRate_lt`: the fee on imbalance, and its
  rate.
* `FeeSchedule.two_mul_imbalanceFee_le`: no more than half of an asset's distance from its share
  is charged for imbalance.
* `FeeRate.refusedOnlyFor_fee`, `FeeSchedule.refusedOnlyFor_imbalanceFee`: a fee is refused only
  where the amount times the rate is out of range.
* `FeeRate.fee_of_isZero`, `FeeSchedule.imbalanceFee_eq_ok_iff`: a rate of zero takes nothing.
-/

namespace StableSwap

/-- The part of an amount that is proportional to a part of a whole. -/
theorem mul_div_le_of_le {part whole : ℕ} (h : part ≤ whole) (amount : ℕ) :
    amount * part / whole ≤ amount := by
  apply Nat.div_le_of_le_mul
  rw [Nat.mul_comm]
  exact Nat.mul_le_mul_right _ h

/-- A valid rate takes at most the whole of an amount. -/
theorem FeeRate.part_le {r : FeeRate} (hvalid : r.isValid = true) (amount : ℕ) :
    amount * r.numerator.val / denominator ≤ amount :=
  mul_div_le_of_le (of_decide_eq_true hvalid) amount

theorem FeeRate.fee_le {r : FeeRate} {amount fee : Amount} (hvalid : r.isValid = true)
    (h : r.fee amount = .ok fee) : fee.val ≤ amount.val := by
  rw [(fee_eq_ok_iff.1 h).2]
  exact part_le hvalid amount.val

/-- A rate of at most the `k`-th part takes at most the `k`-th part of an amount. -/
theorem FeeRate.mul_fee_le {r : FeeRate} {amount fee : Amount} {k : ℕ}
    (h : r.fee amount = .ok fee) (hr : k * r.numerator.val ≤ denominator) :
    k * fee.val ≤ amount.val := by
  obtain ⟨-, hfee⟩ := fee_eq_ok_iff.1 h
  have hpos : 0 < denominator := by decide
  have hfloor : fee.val * denominator ≤ amount.val * r.numerator.val := by
    rw [hfee]
    exact Nat.div_mul_le_self _ _
  apply Nat.le_of_mul_le_mul_right _ hpos
  calc k * fee.val * denominator = k * (fee.val * denominator) := Nat.mul_assoc _ _ _
    _ ≤ k * (amount.val * r.numerator.val) := Nat.mul_le_mul_left _ hfloor
    _ = amount.val * (k * r.numerator.val) := Nat.mul_left_comm _ _ _
    _ ≤ amount.val * denominator := Nat.mul_le_mul_left _ hr

section Order

variable {r : FeeRate} {amount larger fee fee' : Amount}

/-- Of a larger amount the fee is not smaller. -/
theorem FeeRate.fee_mono (h : r.fee amount = .ok fee) (h' : r.fee larger = .ok fee')
    (hle : amount.val ≤ larger.val) : fee.val ≤ fee'.val := by
  rw [(fee_eq_ok_iff.1 h).2, (fee_eq_ok_iff.1 h').2]
  exact Nat.div_le_div_right (Nat.mul_le_mul_right _ hle)

/-- Of a larger amount not less is left: the fee grows by at most as much as the amount. -/
theorem FeeRate.add_fee_le (hvalid : r.isValid = true) (h : r.fee amount = .ok fee)
    (h' : r.fee larger = .ok fee') (hle : amount.val ≤ larger.val) :
    amount.val + fee'.val ≤ larger.val + fee.val := by
  have hwhole : r.numerator.val ≤ denominator := of_decide_eq_true hvalid
  have hpos : 0 < denominator := by decide
  obtain ⟨m, hm⟩ := Nat.exists_eq_add_of_le hle
  have hgrowth : fee'.val ≤ fee.val + m := by
    rw [(fee_eq_ok_iff.1 h).2, (fee_eq_ok_iff.1 h').2, ← Nat.add_mul_div_right _ _ hpos, hm,
      Nat.add_mul]
    exact Nat.div_le_div_right (Nat.add_le_add_left (Nat.mul_le_mul_left m hwhole) _)
  omega

/-- Of an amount that is larger by one unit at most, at most one unit more is left. -/
theorem FeeRate.sub_fee_le_succ (hvalid : r.isValid = true) (h : r.fee amount = .ok fee)
    (h' : r.fee larger = .ok fee') (hle : amount.val ≤ larger.val + 1) :
    amount.val - fee.val ≤ larger.val - fee'.val + 1 := by
  rcases Nat.lt_or_ge larger.val amount.val with hmore | hless
  · have hfee := fee_mono h' h hmore.le
    omega
  · have hleft := add_fee_le hvalid h h' hless
    omega

end Order

theorem FeeRate.forImbalance_eq_ok_iff {r s : FeeRate} {n : ℕ} :
    r.forImbalance n = .ok s ↔
      2 ≤ n ∧ s.numerator.val = r.numerator.val * n / (4 * (n - 1)) := by
  simp only [forImbalance, bind_eq_ok_iff, require_eq_ok_iff, Word.fit_eq_ok_iff, pure, Except.pure,
    Except.ok.injEq]
  constructor
  · intro h
    obtain ⟨_, hn, scaled, hscaled, rfl⟩ := h
    exact ⟨hn, hscaled⟩
  · intro h
    obtain ⟨hn, hscaled⟩ := h
    exact ⟨(), hn, s.numerator, hscaled, rfl⟩

/-- The rate on imbalance is at most half of the rate that it is derived from. -/
theorem FeeRate.two_mul_forImbalance_le {r s : FeeRate} {n : ℕ} (h : r.forImbalance n = .ok s) :
    2 * s.numerator.val ≤ r.numerator.val := by
  obtain ⟨hn, hs⟩ := forImbalance_eq_ok_iff.1 h
  have hpos : 0 < 2 * (n - 1) := by omega
  have hfloor : s.numerator.val * (4 * (n - 1)) ≤ r.numerator.val * n := by
    rw [hs]
    exact Nat.div_mul_le_self _ _
  have hfactor : n ≤ 2 * (n - 1) := by omega
  apply Nat.le_of_mul_le_mul_right _ hpos
  calc 2 * s.numerator.val * (2 * (n - 1)) = s.numerator.val * (4 * (n - 1)) := by ring
    _ ≤ r.numerator.val * n := hfloor
    _ ≤ r.numerator.val * (2 * (n - 1)) := Nat.mul_le_mul_left _ hfactor

/-- Two assets or more have a rate on imbalance: it is at most the one it is derived from. -/
theorem FeeRate.exists_forImbalance (r : FeeRate) {n : ℕ} (hn : 2 ≤ n) :
    ∃ s, r.forImbalance n = .ok s := by
  have hfactor : n ≤ 4 * (n - 1) := by omega
  have hlt : r.numerator.val * n / (4 * (n - 1)) < Word.size 64 :=
    Nat.lt_of_le_of_lt (mul_div_le_of_le hfactor _) r.numerator.isLt
  exact ⟨⟨⟨_, hlt⟩⟩, forImbalance_eq_ok_iff.2 ⟨hn, rfl⟩⟩

/-- The numerator of the rate on the imbalance of `n` assets. -/
def FeeSchedule.imbalanceRate (f : FeeSchedule) (n : ℕ) : ℕ :=
  f.trade.numerator.val * n / (4 * (n - 1))

/-- The rate on imbalance takes less than the whole amount: at most half of it. -/
theorem FeeSchedule.imbalanceRate_lt {f : FeeSchedule} (hvalid : f.trade.isValid = true) {n : ℕ}
    (hn : 2 ≤ n) : f.imbalanceRate n < FeeRate.denominator := by
  obtain ⟨s, hs⟩ := f.trade.exists_forImbalance hn
  have hhalf := FeeRate.two_mul_forImbalance_le hs
  have hwhole : f.trade.numerator.val ≤ FeeRate.denominator := of_decide_eq_true hvalid
  have hpos : 0 < FeeRate.denominator := by decide
  rw [imbalanceRate, ← (FeeRate.forImbalance_eq_ok_iff.1 hs).2]
  omega

/-- The fee on imbalance. -/
theorem FeeSchedule.val_imbalanceFee {f : FeeSchedule} {n : ℕ} {distance fee : Amount}
    (h : f.imbalanceFee n distance = .ok fee) :
    fee.val = distance.val * f.imbalanceRate n / FeeRate.denominator := by
  rw [imbalanceFee, bind_eq_ok_iff] at h
  obtain ⟨s, hs, hfee⟩ := h
  rw [(FeeRate.fee_eq_ok_iff.1 hfee).2, (FeeRate.forImbalance_eq_ok_iff.1 hs).2, imbalanceRate]

/-- No more than half of the distance from its share is charged to an asset. -/
theorem FeeSchedule.two_mul_imbalanceFee_le {f : FeeSchedule} {n : ℕ} {distance fee : Amount}
    (hvalid : f.trade.isValid = true) (h : f.imbalanceFee n distance = .ok fee) :
    2 * fee.val ≤ distance.val := by
  rw [imbalanceFee, bind_eq_ok_iff] at h
  obtain ⟨s, hs, hfee⟩ := h
  have hhalf := FeeRate.two_mul_forImbalance_le hs
  have hwhole : f.trade.numerator.val ≤ FeeRate.denominator := of_decide_eq_true hvalid
  exact FeeRate.mul_fee_le hfee (hhalf.trans hwhole)

/-! ## Refused fees -/

section Refusal

variable {causes : PoolError → Prop}

theorem FeeRate.refusedOnlyFor_fee {r : FeeRate} {amount : Amount}
    (h : causes (.overflow "fee: amount·rate")) : RefusedOnlyFor causes (r.fee amount) := by
  unfold fee
  apply (Word.refusedOnlyFor_mul h).bind
  intro product _
  exact Word.refusedOnlyFor_div_of_pos (by decide)

theorem FeeSchedule.refusedOnlyFor_imbalanceFee {f : FeeSchedule} {n : ℕ} (hn : 2 ≤ n)
    {distance : Amount} (h : causes (.overflow "fee: amount·rate")) :
    RefusedOnlyFor causes (f.imbalanceFee n distance) := by
  obtain ⟨s, hs⟩ := f.trade.exists_forImbalance hn
  rw [imbalanceFee, hs, ok_bind]
  exact FeeRate.refusedOnlyFor_fee h

end Refusal

/-! ## No fee -/

theorem FeeRate.fee_of_isZero {r : FeeRate} (h : r.isZero = true) (amount : Amount) :
    r.fee amount = .ok 0 := by
  have hzero : r.numerator.val = 0 := of_decide_eq_true h
  rw [fee_eq_ok_iff, hzero, Nat.mul_zero]
  exact ⟨Word.size_pos 256, (Nat.zero_div _).symm⟩

/-- Without a fee on trades there is none on imbalance. -/
theorem FeeSchedule.imbalanceFee_eq_ok_iff {f : FeeSchedule} (h : f.trade.isZero = true) {n : ℕ}
    {distance fee : Amount} : f.imbalanceFee n distance = .ok fee ↔ 2 ≤ n ∧ fee = 0 := by
  have hzero : f.trade.numerator.val = 0 := of_decide_eq_true h
  simp only [imbalanceFee, bind_eq_ok_iff, FeeRate.forImbalance_eq_ok_iff, hzero, Nat.zero_mul,
    Nat.zero_div]
  constructor
  · intro h
    obtain ⟨rate, ⟨hn, hrate⟩, hfee⟩ := h
    rw [FeeRate.fee_of_isZero (decide_eq_true hrate), Except.ok.injEq] at hfee
    exact ⟨hn, hfee.symm⟩
  · intro h
    obtain ⟨hn, rfl⟩ := h
    exact ⟨.zero, ⟨hn, rfl⟩, FeeRate.fee_of_isZero rfl _⟩

end StableSwap
