import StableSwap.Proofs.Fee
import StableSwap.Proofs.Shares.Derivation
import Mathlib.Tactic.Ring

/-!
# A deposit taken back

In a pool without fees the amounts of a deposit can be withdrawn again, and the balances
are then what they were. The deposit rounds the shares that it issues down, against the
invariant before it. The withdrawal rounds the shares that it retires down as well,
against the invariant after the deposit and with the new shares outstanding, and adds
one. The change of the invariant is the same, and among more shares it stands for no
fewer of them, so that the depositor never keeps a share.

Main statements:

* `FeeFree.imbalanceFees_eq_ok_iff`: a pool without fees charges nothing for imbalance.
* `exists_withdrawal_of_feeFree`: which withdrawals such a pool answers.
* `issued_le_retired`: the shares issued against the shares retired.
* `deposit_undone`: the withdrawal answers, restores the balances, and retires more
  shares than the deposit has issued.
-/

namespace StableSwap

namespace Pool

/-! ## No fees -/

/-- Neither trades nor withdrawals are charged. -/
structure FeeFree (p : Pool) : Prop where
  trade : p.fees.trade.isZero = true
  withdraw : p.fees.withdraw.isZero = true

variable {p p' : Pool} {amounts : List Amount}

/-- Where a pool without fees can compute the ideal balances, it charges nothing for imbalance. -/
theorem FeeFree.imbalanceFees_eq_ok_iff (hfree : p.FeeFree) {old new fees : List Amount}
    {before after : Amount} :
    p.imbalanceFees old new before after = .ok fees ↔
      (∀ x ∈ old.zip new, 2 ≤ p.assetCount ∧ before.val ≠ 0 ∧
        after.val * x.1.val / before.val < Word.size 256) ∧
      fees = List.replicate (old.zip new).length 0 := by
  unfold imbalanceFees
  refine mapM_eq_ok_iff_replicate fun x fee => ?_
  simp only [bind_eq_ok_iff, Word.mulDiv_eq_ok_iff, FeeSchedule.imbalanceFee_eq_ok_iff hfree.trade]
  constructor
  · rintro ⟨ideal, ⟨hne, hideal⟩, hn, rfl⟩
    exact ⟨⟨hn, hne, hideal ▸ ideal.isLt⟩, rfl⟩
  · rintro ⟨⟨hn, hne, hlt⟩, rfl⟩
    exact ⟨⟨_, hlt⟩, ⟨hne, rfl⟩, hn, rfl⟩

/-! ## The deposit -/

/-- A deposit into a pool without fees leaves the balances with the amounts added. -/
theorem AdditionTerms.Derivation.balances_of_feeFree {t : AdditionTerms} {o : Deposit}
    (h : t.Derivation p amounts o) (hfree : p.FeeFree) :
    o.balances = t.credited ∧ 2 ≤ p.assetCount := by
  obtain ⟨hcount, -⟩ := (credited_eq_ok_iff_entry h.length).1 h.credited
  obtain ⟨hideal, hfees⟩ := hfree.imbalanceFees_eq_ok_iff.1 h.fees
  have hzip : (p.balances.zip t.credited).length = t.credited.length := by
    rw [List.length_zip, hcount]
    exact Nat.min_self _
  constructor
  · have hbalances := h.balances
    rw [hfees, hzip] at hbalances
    exact eq_of_eq_ok hbalances (debitAll_replicate_zero t.credited)
  · -- some amount is positive, so that there is an asset
    obtain ⟨amount, hamount, -⟩ := h.some_pos
    have hpos : 0 < (p.balances.zip t.credited).length := by
      have := List.length_pos_of_mem hamount
      rw [hzip, hcount, ← h.length]
      exact this
    exact (hideal _ (List.getElem_mem hpos)).1

/-! ## The withdrawal -/

theorem chargeWithdrawal_of_feeFree (hfree : p.FeeFree) (asset : ℕ) (balance amount : Amount) :
    p.chargeWithdrawal asset balance 0 amount = .ok ⟨amount, 0, balance⟩ := by
  rw [chargeWithdrawal_eq_ok_iff]
  exact ⟨rfl, rfl, 0, FeeRate.fee_of_isZero hfree.withdraw amount, rfl⟩

/-- A withdrawal without fees leaves the balances as they are after the amounts are taken. -/
theorem exists_settlements_of_feeFree (hfree : p.FeeFree) (balances : List Amount)
    (hlength : amounts.length = balances.length) :
    ∃ settlements : List Settlement,
      ((balances.zip (List.replicate balances.length 0)).zip amounts).zipIdx.mapM
        (fun (((balance, fee), amount), asset) => p.chargeWithdrawal asset balance fee amount) =
          .ok settlements ∧
        settlements.map (·.rest) = balances := by
  refine ⟨_, mapM_eq_ok_map (g := fun row => ⟨row.1.2, 0, row.1.1.1⟩) fun row hrow => ?_, ?_⟩
  · have hfee := (List.of_mem_zip (List.of_mem_zip (List.fst_mem_of_mem_zipIdx hrow)).1).2
    show p.chargeWithdrawal row.2 row.1.1.1 row.1.1.2 row.1.2 = _
    rw [List.eq_of_mem_replicate hfee]
    exact chargeWithdrawal_of_feeFree hfree _ _ _
  · rw [List.map_map]
    exact map_balance_zip List.length_replicate hlength

/-- A pool without fees answers a withdrawal that its balances cover and that retires no more
    shares than are outstanding. What is left of the balances is the amounts less. -/
theorem exists_withdrawal_of_feeFree (hfree : p.FeeFree) (htwo : 2 ≤ p.assetCount)
    (hpos : 0 < p.supply.val) (hlength : amounts.length = p.assetCount)
    (hsome : ∃ amount ∈ amounts, 0 < amount.val) {rest : List Amount}
    (hrest : Amount.debitAll p.balances amounts = .ok rest) {d e : Amount}
    (hd : p.invariant = .ok d) (he : p.invariantOf rest = .ok e) (hdpos : 0 < d.val)
    (hle : e.val ≤ d.val) (hburned : (d.val - e.val) * p.supply.val / d.val < p.supply.val) :
    ∃ w : ImbalancedWithdrawal, p.previewImbalancedWithdrawal amounts = .ok w ∧
      w.balances = rest ∧
      w.burned.val = (d.val - e.val) * p.supply.val / d.val + 1 := by
  have hcount : rest.length = p.assetCount := ((debitAll_eq_ok_iff hlength.symm).1 hrest).1
  have hzip : (p.balances.zip rest).length = rest.length := by
    rw [List.length_zip, hcount]
    exact Nat.min_self _
  have hfees : p.imbalanceFees p.balances rest d e =
      .ok (List.replicate rest.length 0) := by
    rw [hfree.imbalanceFees_eq_ok_iff, hzip]
    refine ⟨fun x _ => ⟨htwo, Nat.ne_of_gt hdpos, ?_⟩, rfl⟩
    calc e.val * x.1.val / d.val ≤ d.val * x.1.val / d.val :=
          Nat.div_le_div_right (Nat.mul_le_mul_right _ hle)
      _ = x.1.val := Nat.mul_div_cancel_left _ hdpos
      _ < Word.size 256 := x.1.isLt
  obtain ⟨settlements, hsettlements, hbalances⟩ :=
    exists_settlements_of_feeFree hfree rest (by rw [hlength, hcount])
  have hfit : (d.val - e.val) * p.supply.val / d.val + 1 < Word.size 256 :=
    Nat.lt_of_le_of_lt hburned p.supply.isLt
  refine ⟨⟨⟨_, hfit⟩, amounts, settlements.map (·.fee), d, e, settlements.map (·.rest)⟩, ?_,
    hbalances, rfl⟩
  refine previewImbalancedWithdrawal_eq_ok_iff.2
    ⟨⟨rest, e, List.replicate rest.length 0, settlements⟩, ?_⟩
  exact
    { supply_pos := hpos
      length := hlength
      some_pos := hsome
      debited := hrest
      before := hd
      ideal := he
      imbalanceFees := hfees
      settlements := hsettlements
      amounts := rfl
      fees := rfl
      balances := rfl
      after := by
        show p.invariantOf (settlements.map (·.rest)) = _
        rw [hbalances]
        exact he
      before_pos := hdpos
      after_le := hle
      burned := rfl
      burned_le := hburned }

/-! ## Both together -/

/-- The shares that a deposit issues among `S` when the invariant grows from `d` by `g`, and what
    the same fall of the invariant retires of them afterwards. -/
theorem issued_le_retired {S d g m : ℕ} (hd : 0 < d) (hm : m = S * g / d) :
    m ≤ g * (S + m) / (d + g) := by
  have hfloor : m * d ≤ S * g := by
    rw [hm]
    exact Nat.div_mul_le_self _ _
  rw [Nat.le_div_iff_mul_le (Nat.add_pos_left hd _)]
  calc m * (d + g) = m * d + m * g := Nat.mul_add _ _ _
    _ ≤ S * g + m * g := Nat.add_le_add_right hfloor _
    _ = g * (S + m) := by ring

/-- The part `g / (d + g)` of something is less than all of it. -/
theorem part_lt_whole {S d g : ℕ} (hd : 0 < d) (hS : 0 < S) : g * S / (d + g) < S := by
  rw [Nat.div_lt_iff_lt_mul (Nat.add_pos_left hd _), Nat.mul_comm S]
  exact Nat.mul_lt_mul_of_pos_right (Nat.lt_add_of_pos_left hd) hS

/-- In a pool without fees a deposit can be taken back exactly, and the depositor gains nothing
    by it: once the shares that it issues are outstanding, withdrawing the same amounts answers,
    leads back to the balances before the deposit, and retires more shares than were issued,
    though no more than are outstanding. -/
theorem deposit_undone (hfree : p.FeeFree) (hpos : 0 < p.supply.val) {o : Deposit}
    (h : p.deposit amounts = .ok (o, p')) {supply : Amount}
    (hsupply : supply.val = p.supply.val + o.minted.val) :
    ∃ (w : ImbalancedWithdrawal) (q : Pool),
      (p'.withSupply supply).withdrawImbalanced amounts = .ok (w, q) ∧
      q.balances = p.balances ∧
      o.minted.val + 1 ≤ w.burned.val ∧ w.burned.val ≤ p.supply.val + o.minted.val := by
  obtain ⟨hpreview, rfl⟩ := deposit_eq_ok_iff.1 h
  obtain ⟨t, ht⟩ := exists_addition_derivation hpreview hpos
  obtain ⟨hbalances, htwo⟩ := ht.balances_of_feeFree hfree
  obtain ⟨hcount, hcredited⟩ := (credited_eq_ok_iff_entry ht.length).1 ht.credited
  rw [← hbalances] at hcount hcredited
  obtain ⟨g, hg⟩ := Nat.exists_eq_add_of_le ht.before_le
  have hminted := ht.minted
  rw [hg, Nat.add_sub_cancel_left] at hminted
  have hissued := issued_le_retired ht.before_pos hminted
  have hretired := part_lt_whole (g := g) ht.before_pos (Nat.add_pos_left hpos o.minted.val)
  have hrest : Amount.debitAll o.balances amounts = .ok p.balances := by
    rw [debitAll_eq_ok_iff (by rw [hcount, ht.length])]
    exact ⟨hcount.symm, fun i => (hcredited i).symm⟩
  -- the pool that the withdrawal meets
  let after := (p.withBalances o.balances).withSupply supply
  have hcount' : after.assetCount = p.assetCount := hcount
  have hsupply' : after.supply.val = p.supply.val + o.minted.val := hsupply
  have hloss : o.invariantAfter.val - o.invariantBefore.val = g := by omega
  obtain ⟨w, hw, hbalances', hburned⟩ := exists_withdrawal_of_feeFree (p := after)
    ⟨hfree.trade, hfree.withdraw⟩ (by omega) (by omega) (by rw [ht.length, hcount']) ht.some_pos
    hrest ht.after ht.before (Nat.lt_of_lt_of_le ht.before_pos ht.before_le) ht.before_le
    (by rwa [hloss, hg, hsupply'])
  rw [hloss, hg, hsupply'] at hburned
  exact ⟨w, _, withdrawImbalanced_eq_ok_iff.2 ⟨hw, rfl⟩, hbalances', by omega, by omega⟩

/-! ## A deposit to look at -/

/-- A pool without fees and with three times as much of one asset as of the other. -/
def lopsidedPair : Pool where
  amplification := 100
  balances := [3000000, 1000000]
  rates := [1, 1]
  fees := ⟨.zero, .zero⟩
  supply := 2000000

/-- The outcome of a deposit that adds mostly to the other asset. -/
def lopsidedAddition : Deposit where
  minted := 352951
  fees := [0, 0]
  invariantBefore := 3993431
  invariantAfter := 4698174
  balances := [3000100, 1700000]

theorem deposit_undone_lopsidedPair :
    lopsidedPair.deposit [100, 700000] =
        .ok (lopsidedAddition, lopsidedPair.withBalances lopsidedAddition.balances) ∧
      ∃ (w : ImbalancedWithdrawal) (q : Pool),
        ((lopsidedPair.withBalances lopsidedAddition.balances).withSupply
            2352951).withdrawImbalanced [100, 700000] = .ok (w, q) ∧
          q.balances = [3000000, 1000000] ∧
          352952 ≤ w.burned.val ∧ w.burned.val ≤ 2352951 := by
  have hdeposit : lopsidedPair.deposit [100, 700000] =
      .ok (lopsidedAddition, lopsidedPair.withBalances lopsidedAddition.balances) := by
    decide +kernel
  exact ⟨hdeposit, deposit_undone ⟨rfl, rfl⟩ (by decide) hdeposit rfl⟩

end Pool

end StableSwap
