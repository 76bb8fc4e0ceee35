import StableSwap.Pool.Withdrawal
import StableSwap.Proofs.Curve.BalanceDivisor
import StableSwap.Proofs.Exchange.Payment
import StableSwap.Proofs.Redemption.Derivation

/-!
# What the operations are refused for

An exchange, a proportional withdrawal and a redemption check some quantities that cannot
fail the check: a fee against the amount that it is taken of, a payment against the balance
that it is made from, a share of a lowered invariant against the balance. Here every cause
that is left for a well-formed pool is listed for each of the three operations. Each step is
covered by what the steps before it have established.

Main statements:

* `refusedOnlyFor_previewExchange`, `refusedOnlyFor_previewWithdrawal`,
  `refusedOnlyFor_quoteRedemption`: the causes that are left.
* `redundant_checks_pass`: the causes that are not.
-/

namespace StableSwap.Pool

/-- The terms that an exchange may find out of range. -/
def exchangeTermNames : List String :=
  ["normalized balance", "exchange: dx·rate", "exchange: x", "fee: amount·rate"] ++
    Curve.Invariant.termNames ++ Curve.Balance.termNames

/-- What an exchange is refused for. -/
inductive ExchangeCause : PoolError → Prop
  | noSuchAsset {k n : ℕ} : ExchangeCause (.noSuchAsset k n)
  | invalidQuantity {reason : String} : ExchangeCause (.invalidQuantity reason)
  | rejectedTrade {reason : String} : ExchangeCause (.rejectedTrade reason)
  | overflow {term : String} : term ∈ exchangeTermNames → ExchangeCause (.overflow term)
  | divisionByZero : ExchangeCause .divisionByZero
  | noConvergence {quantity : String} : ExchangeCause (.noConvergence quantity)

/-- What a proportional withdrawal is refused for. -/
inductive WithdrawalCause : PoolError → Prop
  | noShares : WithdrawalCause .noShares
  | invalidQuantity {reason : String} : WithdrawalCause (.invalidQuantity reason)
  | insufficientSupply : WithdrawalCause .insufficientSupply
  | fee : WithdrawalCause (.overflow "fee: amount·rate")

/-- The terms that a redemption may find out of range. -/
def redemptionTermNames : List String :=
  ["normalized balance", "fee: amount·rate"] ++ Curve.Invariant.termNames ++
    Curve.Balance.termNames

/-- What a redemption in asset `i` is refused for. -/
inductive RedemptionCause (i : ℕ) : PoolError → Prop
  | noSuchAsset {n : ℕ} : RedemptionCause i (.noSuchAsset i n)
  | noShares : RedemptionCause i .noShares
  | invalidQuantity {reason : String} : RedemptionCause i (.invalidQuantity reason)
  | insufficientSupply : RedemptionCause i .insufficientSupply
  | insufficientBalance : RedemptionCause i (.insufficientBalance i)
  | rejectedTrade {reason : String} : RedemptionCause i (.rejectedTrade reason)
  | overflow {term : String} : term ∈ redemptionTermNames → RedemptionCause i (.overflow term)
  | divisionByZero : RedemptionCause i .divisionByZero
  | noConvergence {quantity : String} : RedemptionCause i (.noConvergence quantity)

theorem ExchangeCause.of_invariant {term : String} (h : term ∈ Curve.Invariant.termNames) :
    ExchangeCause (.overflow term) :=
  .overflow (List.mem_append_left _ (List.mem_append_right _ h))

theorem ExchangeCause.of_balance {term : String} (h : term ∈ Curve.Balance.termNames) :
    ExchangeCause (.overflow term) :=
  .overflow (List.mem_append_right _ h)

theorem RedemptionCause.of_invariant {i : ℕ} {term : String}
    (h : term ∈ Curve.Invariant.termNames) : RedemptionCause i (.overflow term) :=
  .overflow (List.mem_append_left _ (List.mem_append_right _ h))

theorem RedemptionCause.of_balance {i : ℕ} {term : String}
    (h : term ∈ Curve.Balance.termNames) : RedemptionCause i (.overflow term) :=
  .overflow (List.mem_append_right _ h)

variable {p : Pool} {causes : PoolError → Prop}

/-! ## Steps that the operations share -/

theorem refusedOnlyFor_checkAsset {i : ℕ} (h : causes (.noSuchAsset i p.assetCount)) :
    RefusedOnlyFor causes (p.checkAsset i) := refusedOnlyFor_require fun _ => h

theorem refusedOnlyFor_scaled (h : causes (.overflow "normalized balance")) :
    RefusedOnlyFor causes p.scaled := by
  unfold scaled scale
  apply RefusedOnlyFor.mapM
  intro _ _
  exact Word.refusedOnlyFor_mul h

theorem refusedOnlyFor_checkShares {shares : Amount}
    (hpos : ∀ reason, causes (.invalidQuantity reason)) (hle : causes .insufficientSupply) :
    RefusedOnlyFor causes (p.checkShares shares) := by
  unfold checkShares
  refine .bind (refusedOnlyFor_require fun _ => hpos _) ?_
  intro _ _
  exact refusedOnlyFor_require fun _ => hle

theorem le_supply_of_checkShares {shares : Amount} {u : Unit} (h : p.checkShares shares = .ok u) :
    shares.val ≤ p.supply.val := by
  simp only [checkShares, bind_eq_ok_iff, require_eq_ok_iff] at h
  obtain ⟨_, _, hle⟩ := h
  exact hle

theorem refusedOnlyFor_debit {asset : ℕ} {balance charge : Amount}
    (h : balance.val < charge.val → causes (.insufficientBalance asset)) :
    RefusedOnlyFor causes (Amount.debit asset balance charge) := by
  intro e he
  obtain ⟨hlt, rfl⟩ := Amount.debit_eq_error_iff.1 he
  exact h hlt

/-! ## Exchanges -/

section Exchange

variable {i j : ℕ} {dx x : Amount}

theorem refusedOnlyFor_checkPair : RefusedOnlyFor ExchangeCause (p.checkPair i j) := by
  unfold checkPair
  refine .bind (refusedOnlyFor_checkAsset .noSuchAsset) ?_
  intro _ _
  refine .bind (refusedOnlyFor_checkAsset .noSuchAsset) ?_
  intro _ _
  exact refusedOnlyFor_require fun _ => .invalidQuantity

theorem refusedOnlyFor_balanceFor : RefusedOnlyFor ExchangeCause (p.balanceFor i j x) := by
  unfold balanceFor
  refine .bind refusedOnlyFor_checkPair ?_
  intro _ _
  refine .bind (refusedOnlyFor_scaled (.overflow (by decide))) ?_
  intro xs _
  refine .bind (Curve.refusedOnlyFor_invariant (fun _ => .of_invariant) .divisionByZero
    .noConvergence) ?_
  intro d _
  exact Curve.refusedOnlyFor_balance (fun _ => .of_balance) .divisionByZero .noConvergence

theorem refusedOnlyFor_previewExchange (hp : p.WellFormed) :
    RefusedOnlyFor ExchangeCause (p.previewExchange i j dx) := by
  rw [previewExchange_eq]
  refine .bind refusedOnlyFor_checkPair ?_
  intro _ hpair
  obtain ⟨hi, hj, -⟩ := checkPair_eq_ok_iff.1 hpair
  refine .bind (refusedOnlyFor_require fun _ => .invalidQuantity) ?_
  intro _ _
  refine .bind (refusedOnlyFor_scaled (.overflow (by decide))) ?_
  intro xs hxs
  refine .bind (Word.refusedOnlyFor_mul (.overflow (by decide))) ?_
  intro deposited hdeposited
  refine .bind (Word.refusedOnlyFor_add (.overflow (by decide))) ?_
  intro x hx
  refine .bind refusedOnlyFor_balanceFor ?_
  intro required _
  -- the balance with the payment added has been found to be in range when scaled
  have hin : ((entry p.balances i).val + dx.val) * (entry p.rates i).val < Word.size 256 := by
    rw [Nat.add_mul, ← entry_scaled hxs, ← Word.mul_eq_ok_iff.1 hdeposited, Nat.add_comm,
      ← Word.add_eq_ok_iff.1 hx]
    exact x.isLt
  intro e he
  rcases payOut_cases hp hi hj hxs hin required with ⟨r, hr⟩ | h | h | h
  · rw [hr] at he
    cases he
  · rw [h] at he
    cases he
    exact .rejectedTrade
  · rw [h] at he
    cases he
    exact .overflow (by decide)
  · rw [h] at he
    cases he
    exact .rejectedTrade

end Exchange

/-! ## Withdrawals -/

/-- What is paid of a balance is at most the balance, and the fee at most what is paid. -/
theorem refusedOnlyFor_redeemBalance (hp : p.WellFormed) {shares : Amount}
    (hpos : 0 < p.supply.val) (hle : shares.val ≤ p.supply.val) (balance : Amount) :
    RefusedOnlyFor WithdrawalCause (p.redeemBalance shares balance) := by
  have hpart : balance.val * shares.val / p.supply.val ≤ balance.val := mul_div_le_of_le hle _
  unfold redeemBalance
  refine .bind (Word.refusedOnlyFor_mulDiv_of_lt (Nat.lt_of_le_of_lt hpart balance.isLt)
    fun hzero => absurd hzero hpos.ne') ?_
  intro value hvalue
  rw [← (Word.mulDiv_eq_ok_iff.1 hvalue).2] at hpart
  refine .bind (FeeRate.refusedOnlyFor_fee .fee) ?_
  intro fee hfee
  have hfee_le : fee.val ≤ value.val := FeeRate.fee_le hp.withdraw_valid hfee
  refine .bind (Word.refusedOnlyFor_sub fun hlt => absurd hfee_le (Nat.not_le.2 hlt)) ?_
  intro amount hamount
  rw [Word.sub_eq_ok_iff] at hamount
  refine .bind (Word.refusedOnlyFor_sub fun hlt => by omega) ?_
  intro rest _
  exact .pure _

theorem refusedOnlyFor_previewWithdrawal (hp : p.WellFormed) {shares : Amount} :
    RefusedOnlyFor WithdrawalCause (p.previewWithdrawal shares) := by
  unfold previewWithdrawal
  refine .bind (refusedOnlyFor_require fun _ => .noShares) ?_
  intro _ hsupply
  have hpos : 0 < p.supply.val := require_eq_ok_iff.1 hsupply
  refine .bind (refusedOnlyFor_checkShares (fun _ => .invalidQuantity) .insufficientSupply) ?_
  intro _ hshares
  refine .bind (RefusedOnlyFor.mapM fun balance _ =>
    refusedOnlyFor_redeemBalance hp hpos (le_supply_of_checkShares hshares) balance) ?_
  intro settlements _
  exact .pure _

/-! ## Redemptions -/

section Redemption

variable {i : ℕ} {shares d lower y : Amount}

/-- The part of the invariant that the shares stand for is at most the invariant, so that it can
    be taken off. -/
theorem exists_lowered (hpos : 0 < p.supply.val) (hle : shares.val ≤ p.supply.val) (d : Amount) :
    ∃ lower : Amount, p.lowered shares d = .ok lower ∧ lower.val ≤ d.val := by
  have hpart : shares.val * d.val / p.supply.val ≤ d.val := by
    rw [Nat.mul_comm]
    exact mul_div_le_of_le hle _
  have hlt : d.val - shares.val * d.val / p.supply.val < Word.size 256 :=
    Nat.lt_of_le_of_lt (Nat.sub_le _ _) d.isLt
  exact ⟨⟨_, hlt⟩, lowered_eq_ok_iff.2 ⟨hpos, Nat.sub_add_cancel hpart⟩, Nat.sub_le _ _⟩

/-- The share of a balance in a lowered invariant is at most the balance. -/
theorem refusedOnlyFor_redemptionDeviation (hle : lower.val ≤ d.val) (x : Amount)
    (fallsTo : Option Amount) :
    RefusedOnlyFor (RedemptionCause i) (redemptionDeviation d lower x fallsTo) := by
  have hpart : x.val * lower.val / d.val ≤ x.val := mul_div_le_of_le hle _
  unfold redemptionDeviation
  refine .bind (Word.refusedOnlyFor_mulDiv_of_lt (Nat.lt_of_le_of_lt hpart x.isLt)
    fun _ => .divisionByZero) ?_
  intro share hshare
  rw [← (Word.mulDiv_eq_ok_iff.1 hshare).2] at hpart
  cases fallsTo with
  | some y => exact .pure _
  | none => exact Word.refusedOnlyFor_sub fun hlt => absurd hpart (Nat.not_le.2 hlt)

/-- An asset that is not redeemed is charged at most half of its distance from its share, which
    lies below the balance, so that only the redeemed asset may be unable to bear its charge. -/
theorem refusedOnlyFor_chargeRedemption (hp : p.WellFormed) (hle : lower.val ≤ d.val)
    (xs : List Amount) :
    RefusedOnlyFor (RedemptionCause i) (p.chargeRedemption i d lower y xs) := by
  unfold chargeRedemption
  apply RefusedOnlyFor.mapM
  rintro ⟨x, asset⟩ _
  refine .bind (refusedOnlyFor_redemptionDeviation hle x _) ?_
  intro deviation hdeviation
  refine .bind (FeeSchedule.refusedOnlyFor_imbalanceFee hp.two_le (.overflow (by decide))) ?_
  intro fee hfee
  apply refusedOnlyFor_debit
  intro hlt
  by_cases hasset : asset = i
  · rw [hasset]
    exact .insufficientBalance
  · have hhalf := FeeSchedule.two_mul_imbalanceFee_le hp.trade_valid hfee
    rw [if_neg hasset] at hdeviation
    have hbelow := redemptionDeviation_le hdeviation
    omega

/-- The fee is reported as the larger of two amounts at most. -/
theorem refusedOnlyFor_reportedFee {withoutFees gross withdrawFee : Amount}
    (hfee : withdrawFee.val ≤ gross.val) :
    RefusedOnlyFor causes ((withoutFees.monus gross).add withdrawFee "withdraw one: fee") := by
  intro e he
  obtain ⟨hle, -⟩ := Word.add_eq_error_iff.1 he
  rw [Word.val_monus] at hle
  have hgross := gross.isLt
  have hwithout := withoutFees.isLt
  omega

theorem refusedOnlyFor_quoteRedemption (hp : p.WellFormed) :
    RefusedOnlyFor (RedemptionCause i) (p.quoteRedemption shares i) := by
  unfold quoteRedemption
  refine .bind (refusedOnlyFor_checkAsset .noSuchAsset) ?_
  intro _ hasset
  have hrate := hp.rate_pos (require_eq_ok_iff.1 hasset)
  refine .bind (refusedOnlyFor_require fun _ => .noShares) ?_
  intro _ hsupply
  have hpos : 0 < p.supply.val := require_eq_ok_iff.1 hsupply
  refine .bind (refusedOnlyFor_checkShares (fun _ => .invalidQuantity) .insufficientSupply) ?_
  intro _ hshares
  refine .bind (refusedOnlyFor_scaled (.overflow (by decide))) ?_
  intro xs _
  refine .bind (Curve.refusedOnlyFor_invariant (fun _ => .of_invariant) .divisionByZero
    .noConvergence) ?_
  intro d _
  obtain ⟨lower, hlower, hle⟩ := exists_lowered hpos (le_supply_of_checkShares hshares) d
  rw [hlower, ok_bind]
  refine .bind (Curve.refusedOnlyFor_balance (fun _ => .of_balance) .divisionByZero
    .noConvergence) ?_
  intro fallsTo _
  refine .bind (refusedOnlyFor_chargeRedemption hp hle xs) ?_
  intro charged _
  refine .bind (Curve.refusedOnlyFor_balance (fun _ => .of_balance) .divisionByZero
    .noConvergence) ?_
  intro required _
  refine .bind (refusedOnlyFor_demand fun _ => .rejectedTrade) ?_
  intro gross _
  refine .bind (FeeRate.refusedOnlyFor_fee (.overflow (by decide))) ?_
  intro withdrawFee hfee
  have hfee_le : withdrawFee.val ≤ gross.val := FeeRate.fee_le hp.withdraw_valid hfee
  refine .bind (Word.refusedOnlyFor_sub fun hlt => absurd hfee_le (Nat.not_le.2 hlt)) ?_
  intro net _
  refine .bind (Word.refusedOnlyFor_div_of_pos hrate) ?_
  intro amount _
  refine .bind (refusedOnlyFor_require fun _ => .rejectedTrade) ?_
  intro _ _
  refine .bind (refusedOnlyFor_reportedFee hfee_le) ?_
  intro scaledFee _
  refine .bind (Word.refusedOnlyFor_div_of_pos hrate) ?_
  intro fee _
  refine .bind (.mapM fun _ hpair =>
    Word.refusedOnlyFor_div_of_pos (hp.rates_pos _ (List.of_mem_zip hpair).2)) ?_
  intro balances _
  refine .bind (refusedOnlyFor_debit fun _ => .insufficientBalance) ?_
  intro rest _
  exact .pure _

end Redemption

/-! ## Checks that always pass -/

/-- In a well-formed pool, whatever is asked for: an exchange is never refused because a balance
    does not cover the payment, because the fee exceeds the amount that it is taken of, or because
    the balance that is paid into grows out of range. A proportional withdrawal is refused for want
    of shares, for the number of shares, or where the amount times the rate of the fee is out of
    range. A redemption is never refused because of an asset that is not redeemed, nor by one of
    the steps from the invariant to its shares, nor by what is reported as the fee. -/
theorem redundant_checks_pass (hp : p.WellFormed) :
    (∀ i j dx e, p.previewExchange i j dx = .error e →
      (∀ k, e ≠ .insufficientBalance k) ∧ e ≠ .overflow "exchange: net output" ∧
        e ≠ .overflow "exchange: balance in") ∧
    (∀ shares e, p.previewWithdrawal shares = .error e →
      e = .noShares ∨ (∃ reason, e = .invalidQuantity reason) ∨ e = .insufficientSupply ∨
        e = .overflow "fee: amount·rate") ∧
    ∀ shares i e, p.quoteRedemption shares i = .error e →
      (∀ k, k ≠ i → e ≠ .insufficientBalance k) ∧
        e ≠ .overflow "withdraw one: D reduction" ∧ e ≠ .overflow "withdraw one: D1" ∧
        e ≠ .overflow "withdraw one: scaled balance" ∧ e ≠ .overflow "withdraw one: deviation" ∧
        e ≠ .overflow "withdraw one: amount" ∧ e ≠ .overflow "withdraw one: fee" := by
  refine ⟨fun i j dx e he => ?_, fun shares e he => ?_, fun shares i e he => ?_⟩
  · have hcause := refusedOnlyFor_previewExchange hp e he
    have hterm : ∀ term, term ∉ exchangeTermNames → e ≠ .overflow term := by
      rintro term hterm rfl
      cases hcause with
      | overflow h => exact hterm h
    refine ⟨?_, hterm _ (by decide), hterm _ (by decide)⟩
    rintro k rfl
    cases hcause
  · cases refusedOnlyFor_previewWithdrawal hp e he with
    | noShares => exact .inl rfl
    | invalidQuantity => exact .inr (.inl ⟨_, rfl⟩)
    | insufficientSupply => exact .inr (.inr (.inl rfl))
    | fee => exact .inr (.inr (.inr rfl))
  · have hcause := refusedOnlyFor_quoteRedemption hp e he
    have hterm : ∀ term, term ∉ redemptionTermNames → e ≠ .overflow term := by
      rintro term hterm rfl
      cases hcause with
      | overflow h => exact hterm h
    refine ⟨?_, hterm _ (by decide), hterm _ (by decide), hterm _ (by decide),
      hterm _ (by decide), hterm _ (by decide), hterm _ (by decide)⟩
    rintro k hk rfl
    cases hcause
    exact hk rfl

/-- A pool whose fees are the whole amount, and whose balances are in range while a part of them
    times the rate of a fee is not. -/
def vastPair : Pool where
  amplification := 100
  balances := [⟨Nat.pow 2 240, by decide⟩, ⟨Nat.pow 2 240, by decide⟩]
  rates := [1, 1]
  fees := ⟨.whole, .whole⟩
  supply := 4

theorem wellFormed_vastPair : vastPair.WellFormed where
  two_le := by decide
  length_rates := by decide
  rates_pos := by decide
  trade_valid := by decide
  withdraw_valid := by decide

/-- The fee refuses an exchange, a withdrawal and a redemption of this pool, and nothing that is
    excluded does. -/
theorem redundant_checks_pass_vastPair :
    ∃ e, vastPair.previewExchange 0 1 (entry vastPair.balances 0) = .error e ∧
      vastPair.previewWithdrawal 1 = .error e ∧ vastPair.quoteRedemption 1 0 = .error e ∧
      (∀ k, e ≠ .insufficientBalance k) ∧ e ≠ .overflow "exchange: net output" ∧
      e ≠ .overflow "exchange: balance in" ∧
      (e = .noShares ∨ (∃ reason, e = .invalidQuantity reason) ∨ e = .insufficientSupply ∨
        e = .overflow "fee: amount·rate") ∧
      e ≠ .overflow "withdraw one: amount" ∧ e ≠ .overflow "withdraw one: fee" := by
  have hexchange : vastPair.previewExchange 0 1 (entry vastPair.balances 0) =
      .error (.overflow "fee: amount·rate") := by decide +kernel
  have hwithdrawal : vastPair.previewWithdrawal 1 = .error (.overflow "fee: amount·rate") := by
    decide +kernel
  have hredemption : vastPair.quoteRedemption 1 0 = .error (.overflow "fee: amount·rate") := by
    decide +kernel
  obtain ⟨hpaid, hwithdrawn, hredeemed⟩ := redundant_checks_pass wellFormed_vastPair
  obtain ⟨hbalance, hnet, hin⟩ := hpaid _ _ _ _ hexchange
  obtain ⟨-, -, -, -, -, hamount, hfee⟩ := hredeemed _ _ _ hredemption
  exact ⟨_, hexchange, hwithdrawal, hredemption, hbalance, hnet, hin, hwithdrawn _ _ hwithdrawal,
    hamount, hfee⟩

end StableSwap.Pool
