import StableSwap.Pool.Withdrawal
import StableSwap.Proofs.Pool.Entry

/-!
# How deposits and withdrawals come about

The values that a deposit and a withdrawal in named amounts go through on their
way to the outcome, and what ties them together. Every statement about the two
starts from here and does not open the operations again.

Main statements:

* `exists_addition_derivation`: a deposit into a pool with shares that answers
  has such values.
* `entry_of_deposit`: what a deposit does to the balance of each asset.
* `previewImbalancedWithdrawal_eq_ok_iff`: a withdrawal in named amounts answers
  exactly where there are such values.
* `WithdrawalTerms.Derivation.entry_balances`, `entry_of_withdrawal`: what a
  withdrawal does to the balance of each asset.
-/

namespace StableSwap.Pool

variable {p p' : Pool} {amounts : List Amount}

theorem deposit_eq_ok_iff {o : Deposit} :
    p.deposit amounts = .ok (o, p') ↔
      p.previewDeposit amounts = .ok o ∧ p' = p.withBalances o.balances :=
  bind_pair_eq_ok_iff

theorem withdraw_eq_ok_iff {shares : Amount} {o : Withdrawal} :
    p.withdraw shares = .ok (o, p') ↔
      p.previewWithdrawal shares = .ok o ∧ p' = p.withBalances o.balances :=
  bind_pair_eq_ok_iff

theorem withdrawImbalanced_eq_ok_iff {o : ImbalancedWithdrawal} :
    p.withdrawImbalanced amounts = .ok (o, p') ↔
      p.previewImbalancedWithdrawal amounts = .ok o ∧ p' = p.withBalances o.balances :=
  bind_pair_eq_ok_iff

/-! ## Deposits -/

theorem credited_eq_ok_iff {balances : List Amount} :
    p.credited amounts = .ok balances ↔
      balances.map (·.val) = (p.balances.zip amounts).map fun (b, a) => b.val + a.val := by
  unfold credited
  exact mapM_eq_ok_iff_map fun _ _ => Word.add_eq_ok_iff

/-- With one amount for each asset, the new balance is the old one and the amount. -/
theorem credited_eq_ok_iff_entry (hlength : amounts.length = p.assetCount)
    {balances : List Amount} :
    p.credited amounts = .ok balances ↔
      balances.length = p.assetCount ∧
        ∀ i, (entry balances i).val = (entry p.balances i).val + (entry amounts i).val := by
  unfold credited
  rw [mapM_eq_ok_iff_forall₂]
  simp only [Word.add_eq_ok_iff]
  exact forall₂_zip_iff_entry (R := fun b a c => c = b + a) rfl hlength.symm

/-- The values that a deposit into a pool with shares goes through. -/
structure AdditionTerms where
  /-- The balances with the amounts added. -/
  credited : List Amount
  /-- The invariant of these balances. -/
  ideal : Amount

/-- The terms lead from the pool to the outcome of depositing the amounts. -/
structure AdditionTerms.Derivation (t : AdditionTerms) (p : Pool) (amounts : List Amount)
    (o : Deposit) : Prop where
  length : amounts.length = p.assetCount
  some_pos : ∃ amount ∈ amounts, 0 < amount.val
  before : p.invariant = .ok o.invariantBefore
  credited : p.credited amounts = .ok t.credited
  ideal : p.invariantOf t.credited = .ok t.ideal
  fees : p.imbalanceFees p.balances t.credited o.invariantBefore t.ideal = .ok o.fees
  balances : Amount.debitAll t.credited o.fees = .ok o.balances
  after : p.invariantOf o.balances = .ok o.invariantAfter
  before_pos : 0 < o.invariantBefore.val
  before_le : o.invariantBefore.val ≤ o.invariantAfter.val
  minted : o.minted.val =
    p.supply.val * (o.invariantAfter.val - o.invariantBefore.val) / o.invariantBefore.val

/-- A deposit into a pool with shares that answers has terms that lead to its outcome. -/
theorem exists_addition_derivation {o : Deposit} (h : p.previewDeposit amounts = .ok o)
    (hpos : 0 < p.supply.val) : ∃ t : AdditionTerms, t.Derivation p amounts o := by
  rw [previewDeposit, bind_eq_ok_iff] at h
  obtain ⟨_, hlength, h⟩ := h
  rw [if_neg (Nat.ne_of_gt hpos)] at h
  simp only [previewAddition, bind_eq_ok_iff, require_eq_ok_iff, Word.sub_eq_ok_iff,
    Word.mulDiv_eq_ok_iff, pure, Except.pure, Except.ok.injEq] at h
  obtain ⟨_, hsome, before, hbefore, credited, hcredited, ideal, hideal, fees, hfees, balances,
    hbalances, after, hafter, growth, hgrowth, minted, ⟨hne, hminted⟩, rfl⟩ := h
  have hgrowth' : growth.val = after.val - before.val := by omega
  refine ⟨⟨credited, ideal⟩, ?_⟩
  exact
    { length := require_eq_ok_iff.1 hlength
      some_pos := hsome
      before := hbefore
      credited := hcredited
      ideal := hideal
      fees := hfees
      balances := hbalances
      after := hafter
      before_pos := Nat.pos_of_ne_zero hne
      before_le := by
        show before.val ≤ after.val
        omega
      minted := by
        rw [← hgrowth']
        exact hminted }

/-- A deposit adds the amounts to the balances and takes the fees off. The first one takes no
    fees. -/
theorem entry_of_deposit {o : Deposit} (h : p.previewDeposit amounts = .ok o) (i : ℕ) :
    (entry o.balances i).val + (entry o.fees i).val =
      (entry p.balances i).val + (entry amounts i).val := by
  rcases Nat.eq_zero_or_pos p.supply.val with hzero | hpos
  · simp only [previewDeposit, hzero, if_true, previewSeed, checkLength, bind_eq_ok_iff,
      require_eq_ok_iff, pure, Except.pure, Except.ok.injEq] at h
    obtain ⟨_, hlength, _, _, _, _, balances, hcredited, _, _, rfl⟩ := h
    rw [entry_replicate_zero, Word.val_zero, Nat.add_zero]
    exact ((credited_eq_ok_iff_entry hlength).1 hcredited).2 i
  · obtain ⟨t, ht⟩ := exists_addition_derivation h hpos
    obtain ⟨hcount, hcredited⟩ := (credited_eq_ok_iff_entry ht.length).1 ht.credited
    have hfees : t.credited.length = o.fees.length := by
      rw [length_of_mapM ht.fees, List.length_zip, hcount]
      exact (Nat.min_self _).symm
    rw [((debitAll_eq_ok_iff hfees).1 ht.balances).2 i]
    exact hcredited i

/-- A deposit leaves one balance for each asset. -/
theorem length_of_deposit {o : Deposit} (h : p.previewDeposit amounts = .ok o) :
    o.balances.length = p.assetCount := by
  rcases Nat.eq_zero_or_pos p.supply.val with hzero | hpos
  · simp only [previewDeposit, hzero, if_true, previewSeed, checkLength, bind_eq_ok_iff,
      require_eq_ok_iff, pure, Except.pure, Except.ok.injEq] at h
    obtain ⟨_, hlength, _, _, _, _, balances, hcredited, _, _, rfl⟩ := h
    exact ((credited_eq_ok_iff_entry hlength).1 hcredited).1
  · obtain ⟨t, ht⟩ := exists_addition_derivation h hpos
    have hcount := ((credited_eq_ok_iff_entry ht.length).1 ht.credited).1
    have hfees : t.credited.length = o.fees.length := by
      rw [length_of_mapM ht.fees, List.length_zip, hcount]
      exact (Nat.min_self _).symm
    rw [((debitAll_eq_ok_iff hfees).1 ht.balances).1, hcount]

/-! ## Withdrawals in named amounts -/

/-- The values that a withdrawal in named amounts goes through. -/
structure WithdrawalTerms where
  /-- The balances less the amounts. -/
  debited : List Amount
  /-- The invariant of these balances. -/
  ideal : Amount
  imbalanceFees : List Amount
  settlements : List Settlement

/-- The terms lead from the pool to the outcome of withdrawing the amounts. -/
structure WithdrawalTerms.Derivation (t : WithdrawalTerms) (p : Pool) (amounts : List Amount)
    (o : ImbalancedWithdrawal) : Prop where
  supply_pos : 0 < p.supply.val
  length : amounts.length = p.assetCount
  some_pos : ∃ amount ∈ amounts, 0 < amount.val
  debited : Amount.debitAll p.balances amounts = .ok t.debited
  before : p.invariant = .ok o.invariantBefore
  ideal : p.invariantOf t.debited = .ok t.ideal
  imbalanceFees : p.imbalanceFees p.balances t.debited o.invariantBefore t.ideal =
    .ok t.imbalanceFees
  settlements : ((t.debited.zip t.imbalanceFees).zip amounts).zipIdx.mapM
    (fun (((balance, fee), amount), asset) => p.chargeWithdrawal asset balance fee amount) =
      .ok t.settlements
  amounts : o.amounts = amounts
  fees : o.fees = t.settlements.map (·.fee)
  balances : o.balances = t.settlements.map (·.rest)
  after : p.invariantOf o.balances = .ok o.invariantAfter
  before_pos : 0 < o.invariantBefore.val
  after_le : o.invariantAfter.val ≤ o.invariantBefore.val
  burned : o.burned.val =
    (o.invariantBefore.val - o.invariantAfter.val) * p.supply.val / o.invariantBefore.val + 1
  burned_le : o.burned.val ≤ p.supply.val

/-- A withdrawal in named amounts answers exactly if there are terms that lead to its outcome. -/
theorem previewImbalancedWithdrawal_eq_ok_iff {o : ImbalancedWithdrawal} :
    p.previewImbalancedWithdrawal amounts = .ok o ↔
      ∃ t : WithdrawalTerms, t.Derivation p amounts o := by
  simp only [previewImbalancedWithdrawal, checkSupply, checkLength, bind_eq_ok_iff,
    require_eq_ok_iff, Word.sub_eq_ok_iff, Word.mulDiv_eq_ok_iff, Word.add_eq_ok_iff, pure,
    Except.pure, Except.ok.injEq]
  constructor
  · rintro ⟨_, hsupply, _, hlength, _, hsome, debited, hdebited, before, hbefore, ideal, hideal,
      imbalanceFees, himbalance, settlements, hsettlements, after, hafter, loss, hloss, proportion,
      ⟨hne, hproportion⟩, burned, hburned, _, hle, rfl⟩
    have hloss' : loss.val = before.val - after.val := by omega
    refine ⟨⟨debited, ideal, imbalanceFees, settlements⟩, ?_⟩
    exact
      { supply_pos := hsupply
        length := hlength
        some_pos := hsome
        debited := hdebited
        before := hbefore
        ideal := hideal
        imbalanceFees := himbalance
        settlements := hsettlements
        amounts := rfl
        fees := rfl
        balances := rfl
        after := hafter
        before_pos := Nat.pos_of_ne_zero hne
        after_le := by
          show after.val ≤ before.val
          omega
        burned := by
          rw [← hloss', ← hproportion]
          exact hburned
        burned_le := hle }
  · rintro ⟨t, ht⟩
    have hburned := ht.burned
    have hfit := o.burned.isLt
    -- the loss and its part of the supply are in range because what follows from them is
    have hloss : o.invariantBefore.val - o.invariantAfter.val < Word.size 256 :=
      Nat.lt_of_le_of_lt (Nat.sub_le _ _) o.invariantBefore.isLt
    have hproportion : (o.invariantBefore.val - o.invariantAfter.val) * p.supply.val /
        o.invariantBefore.val < Word.size 256 := by
      omega
    refine ⟨(), ht.supply_pos, (), ht.length, (), ht.some_pos, t.debited, ht.debited,
      o.invariantBefore, ht.before, t.ideal, ht.ideal, t.imbalanceFees, ht.imbalanceFees,
      t.settlements, ht.settlements, o.invariantAfter, ?_, ⟨_, hloss⟩,
      Nat.sub_add_cancel ht.after_le, ⟨_, hproportion⟩, ⟨Nat.ne_of_gt ht.before_pos, rfl⟩,
      o.burned, hburned, (), ht.burned_le, ?_⟩
    · rw [← ht.balances]
      exact ht.after
    · rw [← ht.amounts, ← ht.fees, ← ht.balances]

theorem chargeWithdrawal_eq_ok_iff {asset : ℕ} {balance imbalanceFee amount : Amount}
    {s : Settlement} :
    p.chargeWithdrawal asset balance imbalanceFee amount = .ok s ↔
      s.amount = amount ∧ s.rest.val + s.fee.val = balance.val ∧
        ∃ withdrawFee, p.fees.withdrawFee amount = .ok withdrawFee ∧
          s.fee.val = imbalanceFee.val + withdrawFee.val := by
  simp only [chargeWithdrawal, bind_eq_ok_iff, Word.add_eq_ok_iff, Amount.debit_eq_ok_iff, pure,
    Except.pure, Except.ok.injEq]
  constructor
  · rintro ⟨withdrawFee, hwithdraw, fee, hfee, rest, hrest, rfl⟩
    exact ⟨rfl, hrest, withdrawFee, hwithdraw, hfee⟩
  · rintro ⟨rfl, hrest, withdrawFee, hwithdraw, hfee⟩
    exact ⟨withdrawFee, hwithdraw, s.fee, hfee, s.rest, hrest, rfl⟩

/-- The balances among the rows that a withdrawal in named amounts settles. -/
theorem map_balance_zip {balances fees amounts : List Amount}
    (hfees : fees.length = balances.length) (hamounts : amounts.length = balances.length) :
    ((balances.zip fees).zip amounts).zipIdx.map (fun row => row.1.1.1) = balances := by
  calc ((balances.zip fees).zip amounts).zipIdx.map (fun row => row.1.1.1)
      = ((((balances.zip fees).zip amounts).zipIdx.map (·.1)).map (·.1)).map (·.1) := by
        rw [List.map_map, List.map_map]
        rfl
    _ = (balances.zip fees).map (·.1) := by
        rw [List.zipIdx_map_fst, List.map_fst_zip]
        rw [List.length_zip]
        omega
    _ = balances := List.map_fst_zip (by omega)

/-- The rows that a withdrawal in named amounts settles: one for each asset. -/
theorem WithdrawalTerms.Derivation.length_rows {t : WithdrawalTerms} {o : ImbalancedWithdrawal}
    (h : t.Derivation p amounts o) :
    t.debited.length = p.assetCount ∧ t.imbalanceFees.length = t.debited.length ∧
      amounts.length = t.debited.length := by
  have hcount := ((debitAll_eq_ok_iff h.length.symm).1 h.debited).1
  change t.debited.length = p.assetCount at hcount
  refine ⟨hcount, ?_, by rw [hcount, h.length]⟩
  rw [length_of_mapM h.imbalanceFees, List.length_zip, hcount]
  exact Nat.min_self _

theorem WithdrawalTerms.Derivation.length_balances {t : WithdrawalTerms} {o : ImbalancedWithdrawal}
    (h : t.Derivation p amounts o) : o.balances.length = p.assetCount := by
  obtain ⟨hcount, hfees, hamounts⟩ := h.length_rows
  rw [h.balances, List.length_map, length_of_mapM h.settlements, List.length_zipIdx,
    List.length_zip, List.length_zip]
  omega

/-- A withdrawal in named amounts takes the amounts off the balances, and then the fees. -/
theorem WithdrawalTerms.Derivation.entry_balances {t : WithdrawalTerms} {o : ImbalancedWithdrawal}
    (h : t.Derivation p amounts o) (i : ℕ) :
    (entry o.balances i).val + (entry o.amounts i).val + (entry o.fees i).val =
      (entry p.balances i).val := by
  have hdebited := ((debitAll_eq_ok_iff h.length.symm).1 h.debited).2
  obtain ⟨-, himbalance, hamounts⟩ := h.length_rows
  have hsettled : (entry o.balances i).val + (entry o.fees i).val = (entry t.debited i).val := by
    rw [h.balances, h.fees, ← map_balance_zip himbalance hamounts]
    rcases entry_of_forall₂ (mapM_eq_ok_iff_forall₂.1 h.settlements) i with
      ⟨a, s, hs, ha, hs'⟩ | ⟨ha, hs'⟩
    · rw [ha, hs', hs']
      exact (chargeWithdrawal_eq_ok_iff.1 hs).2.1
    · rw [ha, hs', hs']
      rfl
  have hamount := hdebited i
  rw [h.amounts]
  omega

/-! ## Withdrawals in proportion to the balances -/

theorem length_of_withdrawal {shares : Amount} {o : Withdrawal}
    (h : p.previewWithdrawal shares = .ok o) : o.balances.length = p.assetCount := by
  simp only [previewWithdrawal, bind_eq_ok_iff, pure, Except.pure, Except.ok.injEq] at h
  obtain ⟨_, _, _, _, settlements, hsettlements, rfl⟩ := h
  rw [List.length_map, length_of_mapM hsettlements]
  rfl

/-- A proportional withdrawal takes of each balance the part that the shares stand for, rounded
    down. The fee on it stays in the pool. -/
theorem entry_of_withdrawal {shares : Amount} {o : Withdrawal}
    (h : p.previewWithdrawal shares = .ok o) :
    0 < p.supply.val ∧ 0 < shares.val ∧ shares.val ≤ p.supply.val ∧
      ∀ i, (entry o.balances i).val + (entry o.amounts i).val = (entry p.balances i).val ∧
        (entry o.amounts i).val + (entry o.fees i).val =
          (entry p.balances i).val * shares.val / p.supply.val := by
  simp only [previewWithdrawal, checkSupply, checkShares, bind_eq_ok_iff, require_eq_ok_iff, pure,
    Except.pure, Except.ok.injEq] at h
  obtain ⟨_, hsupply, _, ⟨_, hshares, hle⟩, settlements, hsettlements, rfl⟩ := h
  refine ⟨hsupply, hshares, hle, fun i => ?_⟩
  rcases entry_of_forall₂ (mapM_eq_ok_iff_forall₂.1 hsettlements) i with
    ⟨balance, s, hs, hbalance, hentry⟩ | ⟨hbalance, hentry⟩
  · have hbalance := hbalance id
    rw [List.map_id] at hbalance
    simp only [hentry, hbalance, id]
    simp only [redeemBalance, bind_eq_ok_iff, Word.mulDiv_eq_ok_iff, Word.sub_eq_ok_iff, pure,
      Except.pure, Except.ok.injEq] at hs
    obtain ⟨value, ⟨_, hvalue⟩, fee, _, amount, hamount, rest, hrest, rfl⟩ := hs
    exact ⟨hrest, by rw [← hvalue, hamount]⟩
  · have hbalance := hbalance id
    rw [List.map_id] at hbalance
    simp [hentry, hbalance]

end StableSwap.Pool
