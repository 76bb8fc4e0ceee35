import StableSwap.Pool.Deposit

/-!
# Withdrawals

A proportional withdrawal gives up shares for the same part of every balance,
less the withdrawal fee, which stays in the pool. An imbalanced withdrawal
names the amounts and gives up shares in proportion to the fall of the
invariant, rounded up, after each asset has been charged for its distance from
the balance that a proportional withdrawal would have led to, and for the
withdrawal fee.

Specification: `remove_liq` and `remove_liquidity_imbalance` of §4.4, and their previews of §15.
-/

namespace StableSwap

/-- The outcome of a proportional withdrawal: `WithdrawOutcome` of §10. -/
structure Withdrawal where
  shares : Amount
  /-- What is paid of each asset. -/
  amounts : List Amount
  /-- What each asset keeps back as a fee. -/
  fees : List Amount
  /-- The balances after the withdrawal. -/
  balances : List Amount
  deriving DecidableEq, Repr

/-- The outcome of an imbalanced withdrawal: `ImbalancedWithdrawOutcome` of §10. -/
structure ImbalancedWithdrawal where
  /-- The shares to be given up. -/
  burned : Amount
  /-- What is paid of each asset. -/
  amounts : List Amount
  /-- The fee taken from each asset. -/
  fees : List Amount
  invariantBefore : Amount
  invariantAfter : Amount
  /-- The balances after the withdrawal. -/
  balances : List Amount
  deriving DecidableEq, Repr

/-- The line that sums up a proportional withdrawal. -/
def Withdrawal.text (w : Withdrawal) : String :=
  "Withdraw(shares: " ++ toString w.shares ++ ", amounts: ["
    ++ ", ".intercalate (w.amounts.map fun a => toString a) ++ "])"

/-- The line that sums up an imbalanced withdrawal. -/
def ImbalancedWithdrawal.text (w : ImbalancedWithdrawal) : String :=
  "ImbalancedWithdraw(burned: " ++ toString w.burned ++ ", D: " ++ toString w.invariantBefore
    ++ " -> " ++ toString w.invariantAfter ++ ")"

namespace Pool

/-- How a withdrawal settles with one asset. -/
structure Settlement where
  amount : Amount
  fee : Amount
  /-- The balance that is left. -/
  rest : Amount
  deriving DecidableEq, Repr

/-! ## In proportion to the balances -/

/-- What the shares are paid of one balance: one turn of the loop of `preview_remove_liq`. -/
def redeemBalance (p : Pool) (shares balance : Amount) : Except PoolError Settlement := do
  let value ← balance.mulDiv shares p.supply "withdraw: value"
  let fee ← p.fees.withdrawFee value
  let amount ← value.sub fee "withdraw: amount"
  let rest ← balance.sub amount "withdraw: balance"
  return { amount, fee, rest }

/-- The outcome of giving up the shares for a part of every balance: `preview_remove_liq` of
    §15. -/
def previewWithdrawal (p : Pool) (shares : Amount) : Except PoolError Withdrawal := do
  p.checkSupply
  p.checkShares shares
  let settlements ← p.balances.mapM (p.redeemBalance shares)
  return { shares, amounts := settlements.map (·.amount), fees := settlements.map (·.fee),
           balances := settlements.map (·.rest) }

/-- The withdrawal and the pool after it: `remove_liq` of §4.4. -/
def withdraw (p : Pool) (shares : Amount) : Except PoolError (Withdrawal × Pool) := do
  let outcome ← p.previewWithdrawal shares
  return (outcome, p.withBalances outcome.balances)

/-! ## In named amounts -/

/-- Charges one asset, after its amount has been taken, for its imbalance and for the
    withdrawal: one turn of the loop of `preview_remove_liquidity_imbalance`. -/
def chargeWithdrawal (p : Pool) (asset : Nat) (balance imbalanceFee amount : Amount) :
    Except PoolError Settlement := do
  let withdrawFee ← p.fees.withdrawFee amount
  let fee ← imbalanceFee.add withdrawFee "withdraw: total fee"
  let rest ← Amount.debit asset balance fee
  return { amount, fee, rest }

/-- The outcome of withdrawing an amount of each asset: `preview_remove_liquidity_imbalance` of
    §15. -/
def previewImbalancedWithdrawal (p : Pool) (amounts : List Amount) :
    Except PoolError ImbalancedWithdrawal := do
  p.checkSupply
  p.checkLength amounts
  require (∃ amount ∈ amounts, 0 < amount.val) (.invalidQuantity "withdrawal is empty")
  let debited ← Amount.debitAll p.balances amounts
  let before ← p.invariant
  let ideal ← p.invariantOf debited
  let imbalanceFees ← p.imbalanceFees p.balances debited before ideal
  let settlements ← ((debited.zip imbalanceFees).zip amounts).zipIdx.mapM
    fun (((balance, fee), amount), asset) => p.chargeWithdrawal asset balance fee amount
  let balances := settlements.map (·.rest)
  let after ← p.invariantOf balances
  let loss ← before.sub after "withdraw: invariant loss"
  let proportion ← loss.mulDiv p.supply before "withdraw: burned"
  let burned ← proportion.add 1 "withdraw: burned"
  require (burned.val ≤ p.supply.val) .insufficientSupply
  return { burned, amounts, fees := settlements.map (·.fee), invariantBefore := before,
           invariantAfter := after, balances }

/-- The withdrawal and the pool after it: `remove_liquidity_imbalance` of §4.4. -/
def withdrawImbalanced (p : Pool) (amounts : List Amount) :
    Except PoolError (ImbalancedWithdrawal × Pool) := do
  let outcome ← p.previewImbalancedWithdrawal amounts
  return (outcome, p.withBalances outcome.balances)

end Pool

end StableSwap
