import StableSwap.Proofs.Fee
import StableSwap.Proofs.Pool.SharePrice
import StableSwap.Proofs.Shares.Derivation

/-!
# Deposits in proportion to the balances

A deposit of a multiple of the balances leads to a multiple of them, and the exact
invariant grows by the same factor. So each asset would hold what the growth of the
invariant allots to it, and would not be charged. But the two invariants are computed,
and rounded, on their own: the one after the deposit drifts off the multiple of the one
before it. What the growth allots to an asset then misses its balance by the drift times
the balance over the invariant, which is many units where the pool holds more of the
asset than its invariant counts, and the fee is taken on that.

Main statements:

* `entry_imbalanceFees`: what is charged to each asset.
* `distance_ideal`: by how much the ideal balance of an asset misses a multiple of its balance.
* `Curve.invariant_of_multiple`: the drift of invariants that are exact to within a unit.
* `Derivation.free_iff`, `Derivation.free_of_drift_le`: when nothing is charged.
* `proportional_deposit`: what a proportional deposit is charged, when it is charged nothing,
  and what it earns then.
-/

namespace StableSwap

/-! ## The drift -/

/-- How far an invariant is from `factor` times another. -/
def drift (factor : ℕ) (before after : Amount) : ℤ := after.val - factor * before.val

/-- Balances of `m` times the size have `m` times the invariant, up to `m` units, if both invariants
    are exact to within one unit. -/
theorem Curve.invariant_of_multiple {xs ys : List Amount} {amplification : Word 64}
    {d d' : Amount} {m : ℕ} (hm : 0 < m) (hd : invariant xs amplification = .ok d)
    (hd' : invariant ys amplification = .ok d')
    (hys : List.Forall₂ (fun x y => y.val = m * x.val) xs ys)
    (hexact : Exact.Supports (amplification.val * xs.length) (xs.map (·.val)) (d.val - 1))
    (hexact' : Exact.Supports (amplification.val * xs.length) (ys.map (·.val)) (d'.val - 1)) :
    m * d.val ≤ d'.val + m ∧ d'.val ≤ m * d.val + m := by
  have hlength : ys.length = xs.length := hys.length_eq.symm
  constructor
  · have hlarger : List.Forall₂ (fun y x => m * x ≤ 1 * y) (ys.map (·.val)) (xs.map (·.val)) := by
      rw [List.forall₂_map_left_iff, List.forall₂_map_right_iff]
      exact hys.flip.imp fun y x h => by rw [h, Nat.one_mul]
    have hsupports := hexact.scale Nat.one_pos hlarger
    rw [← hlength, Nat.div_one] at hsupports
    have hle := le_invariant_of_supports hd' hsupports
    rw [Nat.mul_sub, Nat.mul_one] at hle
    omega
  · have hsmaller : List.Forall₂ (fun x y => 1 * y ≤ m * x) (xs.map (·.val)) (ys.map (·.val)) := by
      rw [List.forall₂_map_left_iff, List.forall₂_map_right_iff]
      exact hys.imp fun x y h => by rw [h, Nat.one_mul]
    have hle := le_invariant_of_supports hd (hexact'.scale hm hsmaller)
    rw [Nat.one_mul] at hle
    have hceil : d'.val - 1 < (d.val + 1) * m := by
      rw [← Nat.div_lt_iff_lt_mul hm]
      exact Nat.lt_succ_of_le hle
    rw [Nat.add_mul, Nat.one_mul, Nat.mul_comm] at hceil
    omega

namespace Pool

variable {p : Pool} {amounts : List Amount}

/-! ## The charges -/

/-- The distance of each asset from its ideal balance, times the rate on imbalance. -/
theorem entry_imbalanceFees {old new fees : List Amount} {before after : Amount}
    (hlength : old.length = new.length) (h : p.imbalanceFees old new before after = .ok fees) :
    fees.length = old.length ∧ ∀ k,
      let ideal := after.val * (entry old k).val / before.val
      let changed := (entry new k).val
      (entry fees k).val = ((ideal - changed) + (changed - ideal)) *
        p.fees.imbalanceRate p.assetCount / FeeRate.denominator := by
  unfold imbalanceFees at h
  rw [mapM_eq_ok_iff_forall₂] at h
  have hcharged := h.imp fun x fee hstep => by
    rw [bind_eq_ok_iff] at hstep
    obtain ⟨ideal, hideal, hfee⟩ := hstep
    have hvalue := FeeSchedule.val_imbalanceFee hfee
    rw [Word.val_distance, (Word.mulDiv_eq_ok_iff.1 hideal).2] at hvalue
    exact hvalue
  rw [forall₂_zip_iff_entry (R := fun b c f => f =
    ((after.val * b / before.val - c) + (c - after.val * b / before.val)) *
      p.fees.imbalanceRate p.assetCount / FeeRate.denominator) (by simp) hlength] at hcharged
  exact hcharged

/-- The ideal balance of an asset whose balance has grown to `m` times misses it by the drift of the
    invariant, times the balance over the invariant, rounded down. -/
theorem distance_ideal {m b : ℕ} {before after : Amount} (hpos : 0 < before.val) :
    (after.val * b / before.val - m * b) + (m * b - after.val * b / before.val) =
      (drift m before after * b / before.val).natAbs := by
  have hne : (before.val : ℤ) ≠ 0 := by omega
  have hsplit : (after.val : ℤ) * b = drift m before after * b + m * b * before.val := by
    unfold drift
    ring
  have hfloor : ((after.val * b / before.val : ℕ) : ℤ) =
      drift m before after * b / before.val + m * b := by
    rw [Int.natCast_ediv, Nat.cast_mul, hsplit, Int.add_mul_ediv_right _ _ hne]
  have hcast : ((m * b : ℕ) : ℤ) = m * b := Nat.cast_mul m b
  omega

/-- A value of at most `d` units, in whole multiples of `d`. -/
theorem natAbs_ediv_le_one {x : ℤ} {d : ℕ} (hd : 0 < d) (hle : x.natAbs ≤ d) :
    (x / d).natAbs ≤ 1 := by
  have hd' : (0 : ℤ) < d := by omega
  have hupper : x / d ≤ 1 := Int.ediv_le_of_le_mul hd' (by omega)
  have hlower : -1 ≤ x / d := Int.le_ediv_of_mul_le hd' (by omega)
  omega

/-! ## Deposits of a multiple of the balances -/

namespace AdditionTerms.Derivation

variable {t : AdditionTerms} {o : Deposit}

/-- A deposit that is charged nothing leads to the balances with the amounts added, and earns
    shares for all that the invariant grows by. -/
theorem answer_of_free (h : t.Derivation p amounts o)
    (hfree : o.fees = List.replicate p.assetCount 0) :
    o.balances = t.credited ∧ o.invariantAfter = t.ideal ∧
      o.minted.val =
        p.supply.val * (t.ideal.val - o.invariantBefore.val) / o.invariantBefore.val := by
  obtain ⟨hcount, -⟩ := (credited_eq_ok_iff_entry h.length).1 h.credited
  have hbalances : o.balances = t.credited := by
    have hdebited := h.balances
    rw [hfree, ← hcount] at hdebited
    exact eq_of_eq_ok hdebited (debitAll_replicate_zero t.credited)
  have hafter : o.invariantAfter = t.ideal := by
    have hinvariant := h.after
    rw [hbalances] at hinvariant
    exact eq_of_eq_ok hinvariant h.ideal
  exact ⟨hbalances, hafter, hafter ▸ h.minted⟩

section Multiple

variable {multiple : ℕ}
  (hamounts : ∀ k < p.assetCount, (entry amounts k).val = multiple * (entry p.balances k).val)
include hamounts

/-- The balances with the amounts added. -/
theorem entry_credited (h : t.Derivation p amounts o) (k : ℕ) :
    (entry t.credited k).val = (multiple + 1) * (entry p.balances k).val := by
  obtain ⟨hcount, hcredited⟩ := (credited_eq_ok_iff_entry h.length).1 h.credited
  by_cases hk : k < p.assetCount
  · rw [hcredited k, hamounts k hk, Nat.add_mul, Nat.one_mul, Nat.add_comm]
  · rw [entry_of_ge (by omega), entry_of_ge (Nat.not_lt.1 hk), Word.val_zero, Nat.mul_zero]

/-- What is charged. -/
theorem entry_fees (h : t.Derivation p amounts o) (k : ℕ) :
    (entry o.fees k).val =
      (drift (multiple + 1) o.invariantBefore t.ideal * (entry p.balances k).val /
        o.invariantBefore.val).natAbs * p.fees.imbalanceRate p.assetCount /
          FeeRate.denominator := by
  obtain ⟨hcount, -⟩ := (credited_eq_ok_iff_entry h.length).1 h.credited
  have hcharged := (entry_imbalanceFees hcount.symm h.fees).2 k
  dsimp only at hcharged
  rw [hcharged, h.entry_credited hamounts k, distance_ideal h.before_pos]

/-- Nothing is charged exactly if the rate makes less than a unit of every miss. -/
theorem free_iff (h : t.Derivation p amounts o) :
    o.fees = List.replicate p.assetCount 0 ↔ ∀ k < p.assetCount,
      (drift (multiple + 1) o.invariantBefore t.ideal * (entry p.balances k).val /
        o.invariantBefore.val).natAbs * p.fees.imbalanceRate p.assetCount <
          FeeRate.denominator := by
  obtain ⟨hcount, -⟩ := (credited_eq_ok_iff_entry h.length).1 h.credited
  have hlength : o.fees.length = p.assetCount := (entry_imbalanceFees hcount.symm h.fees).1
  rw [eq_replicate_zero_iff hlength]
  refine forall₂_congr fun k _ => ?_
  rw [h.entry_fees hamounts k, Nat.div_eq_zero_iff_lt (by decide)]

/-- Where no balance times the drift exceeds the invariant, at most one unit is missed, and the rate
    takes nothing of it. -/
theorem free_of_drift_le (h : t.Derivation p amounts o) (hp : p.WellFormed)
    (hdrift : ∀ k < p.assetCount, (drift (multiple + 1) o.invariantBefore t.ideal).natAbs *
      (entry p.balances k).val ≤ o.invariantBefore.val) :
    o.fees = List.replicate p.assetCount 0 := by
  rw [h.free_iff hamounts]
  intro k hk
  have hone : (drift (multiple + 1) o.invariantBefore t.ideal * (entry p.balances k).val /
      o.invariantBefore.val).natAbs ≤ 1 := by
    apply natAbs_ediv_le_one h.before_pos
    rw [Int.natAbs_mul, Int.natAbs_natCast]
    exact hdrift k hk
  apply Nat.lt_of_le_of_lt (Nat.mul_le_mul_right _ hone)
  rw [Nat.one_mul]
  exact FeeSchedule.imbalanceRate_lt hp.trade_valid hp.two_le

/-- The drift is at most the factor if both invariants are exact to within one unit. -/
theorem natAbs_drift_le (h : t.Derivation p amounts o) {xs ys : List Amount}
    (hxs : p.scaled = .ok xs) (hys : p.scale t.credited = .ok ys)
    (hexact : Curve.Exact.Supports (p.amplification.val * xs.length) (xs.map (·.val))
      (o.invariantBefore.val - 1))
    (hexact' : Curve.Exact.Supports (p.amplification.val * xs.length) (ys.map (·.val))
      (t.ideal.val - 1)) :
    (drift (multiple + 1) o.invariantBefore t.ideal).natAbs ≤ multiple + 1 := by
  obtain ⟨hcount, -⟩ := (credited_eq_ok_iff_entry h.length).1 h.credited
  obtain ⟨xs', hxs', hbefore⟩ := invariantOf_eq_ok_iff.1 h.before
  obtain rfl : xs = xs' := eq_of_eq_ok hxs hxs'
  obtain ⟨ys', hys', hideal⟩ := invariantOf_eq_ok_iff.1 h.ideal
  obtain rfl : ys = ys' := eq_of_eq_ok hys hys'
  obtain ⟨hlength, hentry⟩ := scale_eq_ok_iff_entry.1 hys
  have hmultiple : List.Forall₂ (fun x y => y.val = (multiple + 1) * x.val) xs ys := by
    rw [forall₂_iff_entry (R := fun x y => y = (multiple + 1) * x) (Nat.mul_zero _).symm]
    constructor
    · rw [hlength, hcount, (scale_eq_ok_iff_entry.1 hxs).1]
      rfl
    · intro k
      rw [hentry, h.entry_credited hamounts, entry_scaled hxs, Nat.mul_assoc]
  have hpos : 0 < multiple + 1 := Nat.succ_pos multiple
  obtain ⟨hlower, hupper⟩ :=
    Curve.invariant_of_multiple hpos hbefore hideal hmultiple hexact hexact'
  unfold drift
  have hcast : (((multiple + 1) * o.invariantBefore.val : ℕ) : ℤ) =
      ((multiple + 1 : ℕ) : ℤ) * o.invariantBefore.val := Nat.cast_mul _ _
  omega

end Multiple

end AdditionTerms.Derivation

/-- What a deposit of a multiple of the balances is charged. Each asset pays on its balance times
    the drift of the invariant over the invariant, rounded down, and so the deposit is free exactly
    if nowhere the rate on imbalance makes a unit of that. If it is free, the balances are those
    with the amounts added, and the shares that are issued are to the supply what the growth of the
    invariant is to the invariant. It is free wherever no balance times the drift exceeds the
    invariant; in particular, if both invariants are exact to within a unit, where the balances in
    their own units, times the factor by which they grow, do not exceed the invariant. -/
theorem proportional_deposit (hp : p.WellFormed) (hsupply : 0 < p.supply.val) {o : Deposit}
    (h : p.previewDeposit amounts = .ok o) {multiple : ℕ}
    (hamounts : ∀ k < p.assetCount,
      (entry amounts k).val = multiple * (entry p.balances k).val) :
    ∃ (credited : List Amount) (ideal : Amount),
      p.credited amounts = .ok credited ∧
      (∀ k, (entry credited k).val = (multiple + 1) * (entry p.balances k).val) ∧
      p.invariant = .ok o.invariantBefore ∧
      p.invariantOf credited = .ok ideal ∧
      let d := o.invariantBefore.val
      let change := drift (multiple + 1) o.invariantBefore ideal
      let rate := p.fees.trade.numerator.val * p.assetCount / (4 * (p.assetCount - 1))
      let free := o.fees = List.replicate p.assetCount 0
      (∀ k, (entry o.fees k).val =
        (change * (entry p.balances k).val / d).natAbs * rate / 10 ^ 10) ∧
      (free ↔ ∀ k < p.assetCount,
        (change * (entry p.balances k).val / d).natAbs * rate < 10 ^ 10) ∧
      (free → o.balances = credited ∧ o.invariantAfter = ideal ∧
        o.minted.val = p.supply.val * (ideal.val - d) / d) ∧
      ((∀ k < p.assetCount, change.natAbs * (entry p.balances k).val ≤ d) → free) ∧
      ∀ xs ys, p.scaled = .ok xs → p.scale credited = .ok ys →
        Curve.Exact.Supports (p.amplification.val * xs.length) (xs.map (·.val)) (d - 1) →
        Curve.Exact.Supports (p.amplification.val * xs.length) (ys.map (·.val)) (ideal.val - 1) →
        (∀ k < p.assetCount, (multiple + 1) * (entry p.balances k).val ≤ d) → free := by
  obtain ⟨t, ht⟩ := exists_addition_derivation h hsupply
  refine ⟨t.credited, t.ideal, ht.credited, ht.entry_credited hamounts, ht.before, ht.ideal,
    ht.entry_fees hamounts, ht.free_iff hamounts, ht.answer_of_free,
    ht.free_of_drift_le hamounts hp, ?_⟩
  intro xs ys hxs hys hexact hexact' hle
  apply ht.free_of_drift_le hamounts hp
  intro k hk
  have hdrift := ht.natAbs_drift_le hamounts hxs hys hexact hexact'
  exact (Nat.mul_le_mul_right _ hdrift).trans (hle k hk)

/-! ## A deposit that is charged -/

/-- A pool with more of one asset than its invariant, and a fee of the whole amount on trades. -/
def skewedPair : Pool where
  amplification := 1
  balances := [9, 1]
  rates := [1, 1]
  fees := ⟨.whole, .zero⟩
  supply := 100

theorem wellFormed_skewedPair : skewedPair.WellFormed where
  two_le := by decide
  length_rates := by decide
  rates_pos := by decide
  trade_valid := by decide
  withdraw_valid := by decide

/-- The outcome of depositing as much as there is. -/
def skewedAddition : Deposit where
  minted := 87
  fees := [1, 0]
  invariantBefore := 8
  invariantAfter := 15
  balances := [17, 2]

/-- The pool with the rates of one that sets none. -/
def sparedPair : Pool := { skewedPair with fees := .standard }

theorem wellFormed_sparedPair : sparedPair.WellFormed where
  two_le := by decide
  length_rates := by decide
  rates_pos := by decide
  trade_valid := by decide
  withdraw_valid := by decide

/-- The outcome of the same deposit. -/
def sparedAddition : Deposit := { skewedAddition with fees := [0, 0], balances := [18, 2] }

/-- The invariant of 8 becomes 15 where the balances double. The unit that is missing makes two
    units of the first asset, and the rate on imbalance takes half of them, so that the deposit is
    not free; the rate of the other pool takes nothing of them, and there it is. -/
theorem proportional_deposit_skewedPair :
    skewedPair.previewDeposit [9, 1] = .ok skewedAddition ∧
      (entry skewedAddition.fees 0).val = 1 ∧
      ¬ (∀ k < 2, (drift 2 8 15 * (entry skewedPair.balances k).val / (8 : ℕ)).natAbs *
        5000000000 < 10 ^ 10) ∧
      sparedPair.previewDeposit [9, 1] = .ok sparedAddition ∧
      sparedAddition.fees = List.replicate 2 0 ∧
      sparedAddition.minted.val = 100 * (15 - 8) / 8 := by
  have hcharged : skewedPair.previewDeposit [9, 1] = .ok skewedAddition := by decide +kernel
  have hspared : sparedPair.previewDeposit [9, 1] = .ok sparedAddition := by decide +kernel
  have hcredited : skewedPair.credited [9, 1] = .ok [18, 2] := by decide +kernel
  have hideal : skewedPair.invariantOf [18, 2] = .ok 15 := by decide +kernel
  have hideal' : sparedPair.invariantOf [18, 2] = .ok 15 := by decide +kernel
  have hamounts : ∀ k < 2, (entry [9, 1] k).val = 1 * (entry [9, 1] k).val := by decide
  obtain ⟨credited, ideal, hc, -, -, hi, hfees, hfree, -⟩ :=
    proportional_deposit wellFormed_skewedPair (by decide) hcharged hamounts
  obtain rfl := eq_of_eq_ok hcredited hc
  obtain rfl := eq_of_eq_ok hideal hi
  have hsome : skewedAddition.fees ≠ List.replicate skewedPair.assetCount 0 := by decide
  obtain ⟨credited, ideal, hc', -, -, hi', -, hfree', hanswer, -⟩ :=
    proportional_deposit wellFormed_sparedPair (by decide) hspared hamounts
  obtain rfl := eq_of_eq_ok hcredited hc'
  obtain rfl := eq_of_eq_ok hideal' hi'
  have hnone : sparedAddition.fees = List.replicate sparedPair.assetCount 0 :=
    hfree'.2 (by decide)
  exact ⟨hcharged, hfees 0, fun h => hsome (hfree.2 h), hspared, hnone, (hanswer hnone).2.2⟩

end Pool

end StableSwap
