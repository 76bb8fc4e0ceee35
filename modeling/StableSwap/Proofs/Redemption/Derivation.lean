import StableSwap.Pool.Redemption
import StableSwap.Proofs.Curve.BalanceBound
import StableSwap.Proofs.Fee
import StableSwap.Proofs.Pool.SharePrice

/-!
# How a redemption comes about

The values that a redemption into one asset goes through on its way to the
quote, and what ties them together. Every statement about redemptions starts
from here and does not open the operation again.

Main statements:

* `exists_redemption_derivation`: a redemption that answers has such values.
* `Derivation.entry_balances`: the balances that are written back.
* `Derivation.exceeds_rest`: what the charged balances keep after the payment.
* `Derivation.entry_charged`, `Derivation.entry_scaled_le`: what is charged to each asset, and how
  much of the others is left at least.
* `entry_of_quoteRedemption`: the balances cover what is written back and paid.
* `quoteRedemption_withSupply`: which other supply leads to the same quote.
* `commitRedemption_eq_ok_iff`, `commitRedemption_eq_error_iff`: when a quote is
  carried out, and what refuses it.
-/

namespace StableSwap.Pool

/-- The values that a redemption goes through. -/
structure RedemptionTerms where
  /-- The scaled balances before the redemption. -/
  scaled : List Amount
  invariant : Amount
  /-- The invariant less the part of the shares. -/
  lower : Amount
  /-- The balance to which the asset would fall without fees. -/
  fallsTo : Amount
  /-- The scaled balances less the fees. -/
  charged : List Amount
  /-- The balance of the asset that the lowered invariant requires beside the charged ones. -/
  required : Amount
  /-- What the curve gives up, less the margin. -/
  gross : Amount
  withdrawFee : Amount

/-- The terms lead from the pool to the quote for redeeming the shares in asset `i`. -/
structure RedemptionTerms.Derivation (t : RedemptionTerms) (p : Pool) (shares : Amount) (i : ℕ)
    (o : RedemptionQuote) : Prop where
  lt_asset : i < p.assetCount
  supply_pos : 0 < p.supply.val
  shares_pos : 0 < shares.val
  shares_le : shares.val ≤ p.supply.val
  scaled : p.scaled = .ok t.scaled
  invariant : p.invariant = .ok t.invariant
  lower : p.lowered shares t.invariant = .ok t.lower
  fallsTo : Curve.balance t.scaled p.amplification i t.lower = .ok t.fallsTo
  charged : p.chargeRedemption i t.invariant t.lower t.fallsTo t.scaled = .ok t.charged
  required : Curve.balance t.charged p.amplification i t.lower = .ok t.required
  gross_pos : 0 < t.gross.val
  gross : t.gross.val + t.required.val + 1 = (entry t.charged i).val
  withdrawFee : p.fees.withdrawFee t.gross = .ok t.withdrawFee
  withdrawFee_le : t.withdrawFee.val ≤ t.gross.val
  amount : o.amount.val = (t.gross.val - t.withdrawFee.val) / (entry p.rates i).val
  amount_pos : 0 < o.amount.val
  fee : o.fee.val = ((entry t.scaled i).val - t.fallsTo.val - t.gross.val + t.withdrawFee.val) /
    (entry p.rates i).val
  balances : ∃ (written : List Amount) (rest : Amount),
    written.map (·.val) = (t.charged.zip p.rates).map (fun (x, rate) => x.val / rate.val) ∧
      rest.val + o.amount.val = (entry written i).val ∧
      o.balancesAfter = written.set i rest
  asset : o.asset = i
  shares : o.shares = shares
  balancesBefore : o.balancesBefore = p.balances

theorem lowered_eq_ok_iff {p : Pool} {shares d lower : Amount} :
    p.lowered shares d = .ok lower ↔
      0 < p.supply.val ∧ lower.val + shares.val * d.val / p.supply.val = d.val := by
  simp only [lowered, bind_eq_ok_iff, Word.mulDiv_eq_ok_iff, Word.sub_eq_ok_iff]
  constructor
  · rintro ⟨reduction, ⟨hne, hreduction⟩, hlower⟩
    exact ⟨Nat.pos_of_ne_zero hne, hreduction ▸ hlower⟩
  · rintro ⟨hpos, hlower⟩
    have hlt : shares.val * d.val / p.supply.val < Word.size 256 := by
      have := d.isLt
      omega
    exact ⟨⟨_, hlt⟩, ⟨Nat.ne_of_gt hpos, rfl⟩, hlower⟩

/-- The share of an asset that is not redeemed lies below its balance, and so does its distance
    from that. -/
theorem redemptionDeviation_le {d lower x deviation : Amount}
    (h : redemptionDeviation d lower x none = .ok deviation) : deviation.val ≤ x.val := by
  simp only [redemptionDeviation, bind_eq_ok_iff, Word.sub_eq_ok_iff] at h
  obtain ⟨share, -, hshare⟩ := h
  omega

/-- A redemption that answers has terms that lead to its quote. -/
theorem exists_redemption_derivation {p : Pool} {shares : Amount} {i : ℕ} {o : RedemptionQuote}
    (h : p.quoteRedemption shares i = .ok o) :
    ∃ t : RedemptionTerms, t.Derivation p shares i o := by
  simp only [quoteRedemption, checkAsset, checkSupply, checkShares, bind_eq_ok_iff,
    require_eq_ok_iff, demand_eq_ok_iff, Word.add_eq_ok_iff, Word.sub_eq_ok_iff,
    Word.div_eq_ok_iff, Amount.released_eq_some_iff, Amount.debit_eq_ok_iff, pure, Except.pure,
    Except.ok.injEq] at h
  obtain ⟨_, hi, _, hsupply, _, ⟨_, hshares, hle⟩, xs, hxs, d, hd, lower, hlower, fallsTo, hfallsTo,
    charged, hcharged, required, hrequired, gross, ⟨hgross_pos, hgross⟩, withdrawFee, hfee, net,
    hnet, amount, ⟨_, hamount⟩, _, hamount_pos, scaledFee, hscaledFee, fee, ⟨_, hfee'⟩, written,
    hwritten, rest, hrest, rfl⟩ := h
  have hfee_le : withdrawFee.val ≤ gross.val := by omega
  have hnet' : net.val = gross.val - withdrawFee.val := by omega
  refine ⟨⟨xs, d, lower, fallsTo, charged, required, gross, withdrawFee⟩, ?_⟩
  exact
    { lt_asset := hi
      supply_pos := hsupply
      shares_pos := hshares
      shares_le := hle
      scaled := hxs
      invariant := invariantOf_eq_ok_iff.2 ⟨xs, hxs, hd⟩
      lower := hlower
      fallsTo := hfallsTo
      charged := hcharged
      required := hrequired
      gross_pos := hgross_pos
      gross := hgross
      withdrawFee := hfee
      withdrawFee_le := hfee_le
      amount := by rw [hamount, hnet']
      amount_pos := hamount_pos
      fee := by rw [hfee', hscaledFee, Word.val_monus, Word.val_monus]
      balances := ⟨written, rest, map_of_mapM (fun _ _ hx => (Word.div_eq_ok_iff.1 hx).2) hwritten,
        hrest, rfl⟩
      asset := rfl
      shares := rfl
      balancesBefore := rfl }

namespace RedemptionTerms.Derivation

variable {t : RedemptionTerms} {p : Pool} {shares : Amount} {i : ℕ} {o : RedemptionQuote}

/-- The balances that are written back: what is left of each scaled balance after the fees, in
    whole units of the asset, and of the redeemed asset less the payment. -/
theorem entry_balances (h : t.Derivation p shares i o) (k : ℕ) :
    (entry o.balancesAfter k).val + (if k = i then o.amount.val else 0) =
      (entry t.charged k).val / (entry p.rates k).val := by
  obtain ⟨written, rest, hwritten, hrest, hbalances⟩ := h.balances
  obtain ⟨hlength, hentry⟩ := (map_zip_iff_entry Nat.zero_div Nat.div_zero).1 hwritten
  rw [hbalances, ← hentry k]
  by_cases hk : k = i
  · subst hk
    have hlt : k < written.length := by
      apply lt_of_entry_pos
      have := h.amount_pos
      omega
    rw [entry_set_self hlt, if_pos rfl, hrest]
  · rw [entry_set_of_ne (Ne.symm hk), if_neg hk, Nat.add_zero]

/-- Before the balances are written back, the redeemed asset keeps more than the lowered
    invariant requires. -/
theorem exceeds_rest (h : t.Derivation p shares i o) :
    ∃ (q : Curve.Balance.Quadratic) (z : ℕ),
      Curve.Balance.quadratic t.charged p.amplification i t.lower = .ok q ∧
        z + o.amount.val * (entry p.rates i).val = (entry t.charged i).val ∧ q.Exceeds z := by
  obtain ⟨q, hq, hexceeds⟩ := Curve.exceeds_of_balance h.required
  have hpaid : o.amount.val * (entry p.rates i).val ≤ t.gross.val := by
    rw [h.amount]
    exact (Nat.div_mul_le_self _ _).trans (Nat.sub_le _ _)
  have hgross := h.gross
  refine ⟨q, (entry t.charged i).val - o.amount.val * (entry p.rates i).val, hq, by omega, ?_⟩
  exact hexceeds.mono (by omega)

theorem length_charged (h : t.Derivation p shares i o) : t.charged.length = t.scaled.length := by
  rw [length_of_mapM h.charged, List.length_zipIdx]

/-- A redemption from a well-formed pool leaves one balance for each asset. -/
theorem length_balances (h : t.Derivation p shares i o) (hp : p.WellFormed) :
    o.balancesAfter.length = p.assetCount := by
  obtain ⟨written, rest, hwritten, -, hbalances⟩ := h.balances
  have hlength := congrArg List.length hwritten
  simp only [List.length_map, List.length_zip] at hlength
  rw [hbalances, List.length_set, hlength, h.length_charged, hp.length_scaled h.scaled,
    hp.length_rates]
  exact Nat.min_self _

/-- What is charged to each asset. -/
theorem entry_charged (h : t.Derivation p shares i o) {k : ℕ} (hk : k < t.scaled.length) :
    ∃ deviation fee,
      redemptionDeviation t.invariant t.lower (entry t.scaled k)
          (if k = i then some t.fallsTo else none) = .ok deviation ∧
        p.fees.imbalanceFee p.assetCount deviation = .ok fee ∧
        (entry t.charged k).val + fee.val = (entry t.scaled k).val := by
  have hstep := entry_of_mapM_zipIdx h.charged hk
  simp only [bind_eq_ok_iff, Amount.debit_eq_ok_iff] at hstep
  obtain ⟨deviation, hdeviation, fee, hfee, hrest⟩ := hstep
  exact ⟨deviation, fee, hdeviation, hfee, hrest⟩

/-- The fees on the distances from the shares only lower the scaled balances. -/
theorem entry_charged_le (h : t.Derivation p shares i o) (k : ℕ) :
    (entry t.charged k).val ≤ (entry t.scaled k).val := by
  by_cases hk : k < t.scaled.length
  · obtain ⟨_, fee, _, _, hrest⟩ := h.entry_charged hk
    omega
  · rw [entry_of_ge (by rw [h.length_charged]; omega)]
    exact Nat.zero_le _

/-- An asset that is not redeemed keeps at least half of its scaled balance: it is charged at most
    half of its distance from its share, which lies below the balance. -/
theorem entry_scaled_le (h : t.Derivation p shares i o) (hp : p.WellFormed) {k : ℕ}
    (hk : k < t.scaled.length) (hki : k ≠ i) :
    (entry t.scaled k).val ≤ 2 * (entry t.charged k).val := by
  obtain ⟨deviation, fee, hdeviation, hfee, hrest⟩ := h.entry_charged hk
  have hhalf := FeeSchedule.two_mul_imbalanceFee_le hp.trade_valid hfee
  rw [if_neg hki] at hdeviation
  have hbelow := redemptionDeviation_le hdeviation
  omega

end RedemptionTerms.Derivation

variable {p p' : Pool} {shares supply : Amount} {i : ℕ} {q : RedemptionQuote}

/-! ## Quotes -/

/-- A quote remembers what was asked for and the balances of the pool. -/
theorem quoteRedemption_remembers (h : p.quoteRedemption shares i = .ok q) :
    q.asset = i ∧ q.shares = shares ∧ q.balancesBefore = p.balances := by
  obtain ⟨t, ht⟩ := exists_redemption_derivation h
  exact ⟨ht.asset, ht.shares, ht.balancesBefore⟩

/-- A quote pays something, and the balances to which it leads together with the payment are
    covered by those for which it was made. -/
theorem entry_of_quoteRedemption (h : p.quoteRedemption shares i = .ok q) :
    0 < q.amount.val ∧ ∀ k, (entry q.balancesAfter k).val + (if k = i then q.amount.val else 0) ≤
      (entry p.balances k).val := by
  obtain ⟨t, ht⟩ := exists_redemption_derivation h
  refine ⟨ht.amount_pos, fun k => ?_⟩
  calc (entry q.balancesAfter k).val + (if k = i then q.amount.val else 0)
      = (entry t.charged k).val / (entry p.rates k).val := ht.entry_balances k
    _ ≤ (entry p.balances k).val * (entry p.rates k).val / (entry p.rates k).val := by
        rw [← entry_scaled ht.scaled k]
        exact Nat.div_le_div_right (ht.entry_charged_le k)
    _ ≤ (entry p.balances k).val := Nat.div_le_of_le_mul (Nat.mul_comm _ _).le

/-- The supply has a part in a quote only through what the shares lower the invariant by: another
    supply that has the shares and by which the invariant is lowered as much leads to the same
    quote. -/
theorem quoteRedemption_withSupply (h : p.quoteRedemption shares i = .ok q)
    (hle : shares.val ≤ supply.val)
    (hlowered : ∀ d, p.invariant = .ok d →
      shares.val * d.val / supply.val = shares.val * d.val / p.supply.val) :
    (p.withSupply supply).quoteRedemption shares i = .ok q := by
  obtain ⟨t, ht⟩ := exists_redemption_derivation h
  have hpos : 0 < supply.val := Nat.lt_of_lt_of_le ht.shares_pos hle
  simp only [quoteRedemption, bind_eq_ok_iff] at h ⊢
  obtain ⟨_, hasset, _, hsupply, _, hshares, xs, hxs, d, hd, lower, hlower, hquote⟩ := h
  refine ⟨(), hasset, (), require_eq_ok_iff.2 hpos, (), ?_, xs, hxs, d, hd, lower, ?_, hquote⟩
  · rw [checkShares, bind_eq_ok_iff]
    exact ⟨(), require_eq_ok_iff.2 ht.shares_pos, require_eq_ok_iff.2 hle⟩
  · rw [lowered_eq_ok_iff] at hlower ⊢
    refine ⟨hpos, ?_⟩
    show lower.val + shares.val * d.val / supply.val = d.val
    rw [hlowered d (invariantOf_eq_ok_iff.2 ⟨xs, hxs, hd⟩)]
    exact hlower.2

/-! ## Committing a quote -/

/-- A quote is carried out exactly where the balances are those it was made for. -/
theorem commitRedemption_eq_ok_iff {amount : Amount} :
    p.commitRedemption q = .ok (amount, p') ↔
      p.balances = q.balancesBefore ∧ amount = q.amount ∧ p' = p.withBalances q.balancesAfter := by
  simp only [commitRedemption, bind_eq_ok_iff, require_eq_ok_iff, pure, Except.pure,
    Except.ok.injEq, Prod.mk.injEq]
  constructor
  · rintro ⟨_, hbalances, rfl, rfl⟩
    exact ⟨hbalances.symm, rfl, rfl⟩
  · rintro ⟨hbalances, rfl, rfl⟩
    exact ⟨(), hbalances.symm, rfl, rfl⟩

/-- Where it is not carried out, it is refused as stale. -/
theorem commitRedemption_eq_error_iff {e : PoolError} :
    p.commitRedemption q = .error e ↔ p.balances ≠ q.balancesBefore ∧ e = .staleQuote := by
  simp only [commitRedemption, bind_eq_error_iff, require_eq_error_iff, pure, Except.pure,
    reduceCtorEq, and_false, exists_false, or_false]
  rw [ne_comm]

/-- A redemption is its quote, carried out at once. -/
theorem redeem_eq (p : Pool) (shares : Amount) (i : ℕ) :
    p.redeem shares i = do
      let q ← p.quoteRedemption shares i
      return (q, p.withBalances q.balancesAfter) := by
  cases hquote : p.quoteRedemption shares i with
  | error e =>
    rw [redeem, hquote]
    rfl
  | ok q =>
    obtain ⟨-, -, hbefore⟩ := quoteRedemption_remembers hquote
    have hcommit : p.commitRedemption q = .ok (q.amount, p.withBalances q.balancesAfter) :=
      commitRedemption_eq_ok_iff.2 ⟨hbefore.symm, rfl, rfl⟩
    rw [redeem, hquote]
    exact bind_eq_ok_iff.2 ⟨_, rfl, bind_eq_ok_iff.2 ⟨_, hcommit, rfl⟩⟩

theorem redeem_eq_ok (h : p.redeem shares i = .ok (q, p')) :
    p.quoteRedemption shares i = .ok q ∧ p' = p.withBalances q.balancesAfter := by
  rw [redeem_eq] at h
  exact bind_pair_eq_ok_iff.1 h

end StableSwap.Pool
