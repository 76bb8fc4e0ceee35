import StableSwap.Proofs.Fee

/-!
# The rate on imbalance

The rate on the imbalance of `n` assets is the rate that it is derived from times
`n / (4·(n − 1))`, rounded down. The factor is one half for two assets and falls
towards one quarter with their number, so that the rate is never refused, and a
valid one takes at most half of an asset's distance from its share.

Main statements:

* `FeeRate.quarter_le_forImbalance`, `FeeRate.forImbalance_le_half`: the rate lies between a
  quarter and a half of the one it is derived from.
* `FeeRate.forImbalance_anti`: more assets have no larger rate.
* `FeeRate.forImbalance_products_lt`: what the rate is formed of has 128 bits.
* `FeeSchedule.exists_imbalanceFee`, `FeeSchedule.imbalanceFee_of_le`: when the fee is answered and
  when it is refused.
* `FeeSchedule.imbalanceFee_mono`: of a larger distance a larger fee is taken.
* `FeeSchedule.imbalance_charged_at_most_half`: all of this for every rate and every schedule.
-/

namespace StableSwap

namespace FeeRate

variable {r s t : FeeRate} {n m : ℕ}

theorem quarter_le_forImbalance (h : r.forImbalance n = .ok s) :
    r.numerator.val / 4 ≤ s.numerator.val := by
  obtain ⟨hn, hs⟩ := forImbalance_eq_ok_iff.1 h
  have hfloor : r.numerator.val / 4 * 4 ≤ r.numerator.val := Nat.div_mul_le_self _ _
  rw [hs, Nat.le_div_iff_mul_le (by omega)]
  calc r.numerator.val / 4 * (4 * (n - 1)) = r.numerator.val / 4 * 4 * (n - 1) := by ring
    _ ≤ r.numerator.val * (n - 1) := Nat.mul_le_mul_right _ hfloor
    _ ≤ r.numerator.val * n := Nat.mul_le_mul_left _ (Nat.sub_le n 1)

theorem forImbalance_le_half (h : r.forImbalance n = .ok s) :
    s.numerator.val ≤ r.numerator.val / 2 := by
  have hhalf := two_mul_forImbalance_le h
  omega

/-- More assets have no larger rate: the factor `n / (n − 1)` falls with their number. -/
theorem forImbalance_anti (hs : r.forImbalance n = .ok s) (ht : r.forImbalance m = .ok t)
    (hnm : n ≤ m) : t.numerator.val ≤ s.numerator.val := by
  obtain ⟨hn, hs⟩ := forImbalance_eq_ok_iff.1 hs
  obtain ⟨hm, ht⟩ := forImbalance_eq_ok_iff.1 ht
  have hfloor : t.numerator.val * (4 * (m - 1)) ≤ r.numerator.val * m := by
    rw [ht]
    exact Nat.div_mul_le_self _ _
  have hfactor : m * (n - 1) ≤ n * (m - 1) := by
    rw [Nat.mul_sub, Nat.mul_sub, Nat.mul_comm n m]
    omega
  rw [hs, Nat.le_div_iff_mul_le (by omega)]
  apply Nat.le_of_mul_le_mul_right _ (show 0 < m - 1 by omega)
  calc t.numerator.val * (4 * (n - 1)) * (m - 1)
      = t.numerator.val * (4 * (m - 1)) * (n - 1) := by ring
    _ ≤ r.numerator.val * m * (n - 1) := Nat.mul_le_mul_right _ hfloor
    _ = r.numerator.val * (m * (n - 1)) := Nat.mul_assoc _ _ _
    _ ≤ r.numerator.val * (n * (m - 1)) := Nat.mul_le_mul_left _ hfactor
    _ = r.numerator.val * n * (m - 1) := (Nat.mul_assoc _ _ _).symm

/-- For a number of assets that is a machine word the two products that are divided have 128
    bits. -/
theorem forImbalance_products_lt (r : FeeRate) (hn : n < Word.size 64) :
    r.numerator.val * n < Word.size 128 ∧ 4 * (n - 1) < Word.size 128 := by
  have hsize : Word.size 64 * Word.size 64 = Word.size 128 := (Word.size_add 64 64).symm
  constructor
  · rw [← hsize]
    exact Nat.mul_lt_mul'' r.numerator.isLt hn
  · calc 4 * (n - 1) ≤ 4 * n := Nat.mul_le_mul_left 4 (Nat.sub_le n 1)
      _ < 4 * Word.size 64 := Nat.mul_lt_mul_of_pos_left hn (by decide)
      _ ≤ Word.size 64 * Word.size 64 := Nat.mul_le_mul_right _ (by decide)
      _ = Word.size 128 := hsize

end FeeRate

namespace FeeSchedule

variable {f : FeeSchedule} {n : ℕ} {distance larger fee fee' : Amount}

/-- The fee of two assets or more is charged at the rate on their imbalance. -/
theorem exists_imbalanceRate (f : FeeSchedule) (hn : 2 ≤ n) :
    ∃ s : FeeRate, s.numerator.val = f.imbalanceRate n ∧
      ∀ distance, f.imbalanceFee n distance = s.fee distance := by
  obtain ⟨s, hs⟩ := f.trade.exists_forImbalance hn
  refine ⟨s, (FeeRate.forImbalance_eq_ok_iff.1 hs).2, fun distance => ?_⟩
  rw [imbalanceFee, hs, ok_bind]

/-- It is answered if the distance times that rate is in range. -/
theorem exists_imbalanceFee (hn : 2 ≤ n) (h : distance.val * f.imbalanceRate n < Word.size 256) :
    ∃ fee, f.imbalanceFee n distance = .ok fee := by
  obtain ⟨s, hs, hfee⟩ := f.exists_imbalanceRate hn
  rw [← hs] at h
  have hlt := (Nat.div_le_self _ FeeRate.denominator).trans_lt h
  exact ⟨⟨_, hlt⟩, (hfee distance).trans (FeeRate.fee_eq_ok_iff.2 ⟨h, rfl⟩)⟩

/-- Otherwise it is refused for that product. -/
theorem imbalanceFee_of_le (hn : 2 ≤ n) (h : Word.size 256 ≤ distance.val * f.imbalanceRate n) :
    f.imbalanceFee n distance = .error (.overflow "fee: amount·rate") := by
  obtain ⟨s, hs, hfee⟩ := f.exists_imbalanceRate hn
  rw [← hs] at h
  exact (hfee distance).trans (FeeRate.fee_eq_error_iff.2 ⟨h, rfl⟩)

/-- For a larger distance the fee is not smaller. -/
theorem imbalanceFee_mono (h : f.imbalanceFee n distance = .ok fee)
    (h' : f.imbalanceFee n larger = .ok fee') (hle : distance.val ≤ larger.val) :
    fee.val ≤ fee'.val := by
  rw [val_imbalanceFee h, val_imbalanceFee h']
  exact Nat.div_le_div_right (Nat.mul_le_mul_right _ hle)

/-- The rate on imbalance and the fee at it, for every rate, every valid schedule and any number of
    assets from two on. Every rate has one on imbalance, between a quarter and a half of it, which
    does not grow with the number of assets, and what it is formed of has 128 bits. A valid schedule
    charges at most half of an asset's distance from its share, and no less for a larger distance;
    it refuses to only where the distance times the rate is out of range. -/
theorem imbalance_charged_at_most_half (hn : 2 ≤ n) :
    (∀ r : FeeRate, ∃ s, r.forImbalance n = .ok s ∧
      r.numerator.val / 4 ≤ s.numerator.val ∧ s.numerator.val ≤ r.numerator.val / 2 ∧
      (∀ m t, n ≤ m → r.forImbalance m = .ok t → t.numerator.val ≤ s.numerator.val) ∧
      (n < Word.size 64 → r.numerator.val * n < Word.size 128 ∧ 4 * (n - 1) < Word.size 128)) ∧
    ∀ f : FeeSchedule, f.validate = .ok () →
      (∀ distance : Amount,
        (distance.val * f.imbalanceRate n < Word.size 256 ∧
          ∃ fee, f.imbalanceFee n distance = .ok fee ∧ 2 * fee.val ≤ distance.val) ∨
        (Word.size 256 ≤ distance.val * f.imbalanceRate n ∧
          f.imbalanceFee n distance = .error (.overflow "fee: amount·rate"))) ∧
      ∀ distance larger fee fee' : Amount, distance.val ≤ larger.val →
        f.imbalanceFee n distance = .ok fee → f.imbalanceFee n larger = .ok fee' →
        fee.val ≤ fee'.val := by
  constructor
  · intro r
    obtain ⟨s, hs⟩ := r.exists_forImbalance hn
    refine ⟨s, hs, FeeRate.quarter_le_forImbalance hs, FeeRate.forImbalance_le_half hs, ?_,
      r.forImbalance_products_lt⟩
    intro m t hnm ht
    exact FeeRate.forImbalance_anti hs ht hnm
  · intro f hvalid
    have htrade : f.trade.isValid = true := (validate_eq_ok_iff.1 hvalid).1
    constructor
    · intro distance
      rcases Nat.lt_or_ge (distance.val * f.imbalanceRate n) (Word.size 256) with hlt | hge
      · obtain ⟨fee, hfee⟩ := exists_imbalanceFee hn hlt
        exact .inl ⟨hlt, fee, hfee, two_mul_imbalanceFee_le htrade hfee⟩
      · exact .inr ⟨hge, imbalanceFee_of_le hn hge⟩
    · intro distance larger fee fee' hle h h'
      exact imbalanceFee_mono h h' hle

/-- Of three assets the standard rate is one of 1500000 on imbalance. It takes one unit of 7000 and
    three of 20000, and it is refused for the largest amount there is. -/
theorem imbalance_charged_at_most_half_three :
    let largest : Amount := ⟨Word.size 256 - 1, by decide⟩
    2 ≤ 3 ∧ standard.validate = .ok () ∧
      (∃ s, standard.trade.forImbalance 3 = .ok s ∧ 4000000 / 4 ≤ s.numerator.val ∧
        s.numerator.val ≤ 4000000 / 2 ∧
        ∀ t, standard.trade.forImbalance 4 = .ok t → t.numerator.val ≤ s.numerator.val) ∧
      (∃ fee, standard.imbalanceFee 3 20000 = .ok fee ∧ 2 * fee.val ≤ (20000 : Amount).val) ∧
      standard.imbalanceFee 3 7000 = .ok 1 ∧ standard.imbalanceFee 3 20000 = .ok 3 ∧
      (1 : Amount).val ≤ (3 : Amount).val ∧
      standard.imbalanceFee 3 largest = .error (.overflow "fee: amount·rate") := by
  intro largest
  have hvalid : standard.validate = .ok () := by decide +kernel
  have hsmall : standard.imbalanceFee 3 7000 = .ok 1 := by decide +kernel
  have hlarge : standard.imbalanceFee 3 20000 = .ok 3 := by decide +kernel
  obtain ⟨hrates, hfees⟩ := imbalance_charged_at_most_half (n := 3) (by decide)
  obtain ⟨s, hs, hquarter, hhalf, hanti, -⟩ := hrates standard.trade
  obtain ⟨hanswers, hmono⟩ := hfees standard hvalid
  refine ⟨by decide, hvalid, ⟨s, hs, hquarter, hhalf, ?_⟩, ?_, hsmall, hlarge,
    hmono 7000 20000 1 3 (by decide) hsmall hlarge, ?_⟩
  · intro t ht
    exact hanti 4 t (by decide) ht
  · obtain ⟨-, hanswer⟩ | ⟨hrange, -⟩ := hanswers 20000
    · exact hanswer
    · exact absurd hrange (by decide +kernel)
  · obtain ⟨hrange, -⟩ | ⟨-, hrefused⟩ := hanswers largest
    · exact absurd hrange (by decide +kernel)
    · exact hrefused

end FeeSchedule

end StableSwap
