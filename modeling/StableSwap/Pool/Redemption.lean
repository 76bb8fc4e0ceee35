import StableSwap.Pool

/-!
# Redemption into one asset

Shares can be redeemed in a single asset. The invariant is lowered by the part
that the shares stand for; every asset is charged for its distance from its
share of the lowered invariant; and the redeemed asset pays what its balance
then exceeds the balance that the lowered invariant requires, less the margin
for rounding and the withdrawal fee.

A redemption is quoted first and committed later. A quote remembers the
balances it was made for, and is refused once they have changed.

Specification: `calc_withdraw_one_coin` of §4.4, split into a quote and a commit by §9 and §15.
-/

namespace StableSwap

/-- An offer to redeem shares in one asset: `WithdrawOneQuote` of §10. -/
structure RedemptionQuote where
  asset : Nat
  shares : Amount
  amount : Amount
  fee : Amount
  /-- The balances for which the quote was made. -/
  balancesBefore : List Amount
  /-- The balances to which it leads. -/
  balancesAfter : List Amount
  deriving DecidableEq, Repr

/-- The line that sums up a quote. -/
def RedemptionQuote.text (q : RedemptionQuote) : String :=
  "WithdrawOne(shares: " ++ toString q.shares ++ " -> #" ++ toString q.asset ++ " "
    ++ toString q.amount ++ ", fee: " ++ toString q.fee ++ ")"

namespace Pool

/-- The invariant `d` less the part that the shares stand for: `D1` of §4.4. -/
def lowered (p : Pool) (shares d : Amount) : Except PoolError Amount := do
  let reduction ← shares.mulDiv d p.supply "withdraw one: D reduction"
  d.sub reduction "withdraw one: D1"

/-- How far the scaled balance `x` of an asset is from its share when the invariant falls from
    `d` to `lower`. The redeemed asset is measured by the balance it is to fall to: `dx_ideal` of
    §4.4. -/
def redemptionDeviation (d lower x : Amount) (fallsTo : Option Amount) :
    Except PoolError Amount := do
  let share ← x.mulDiv lower d "withdraw one: scaled balance"
  match fallsTo with
  | some y => return share.distance y
  | none => x.sub share "withdraw one: deviation"

/-- The scaled balances `xs` less the fee on the distance of each from its share, when asset
    `i` is to fall to `y`: the loop of `preview_withdraw_one_coin` over the assets. -/
def chargeRedemption (p : Pool) (i : Nat) (d lower y : Amount) (xs : List Amount) :
    Except PoolError (List Amount) :=
  xs.zipIdx.mapM fun (x, asset) => do
    let deviation ← redemptionDeviation d lower x (if asset = i then some y else none)
    let fee ← p.fees.imbalanceFee p.assetCount deviation
    Amount.debit asset x fee

/-- The offer for redeeming the shares in asset `i`: `preview_withdraw_one_coin` of §15. -/
def quoteRedemption (p : Pool) (shares : Amount) (i : Nat) : Except PoolError RedemptionQuote := do
  p.checkAsset i
  p.checkSupply
  p.checkShares shares
  let rate := entry p.rates i
  let xs ← p.scaled
  let d ← Curve.invariant xs p.amplification
  let lower ← p.lowered shares d
  let fallsTo ← Curve.balance xs p.amplification i lower
  let withoutFees := (entry xs i).monus fallsTo
  let charged ← p.chargeRedemption i d lower fallsTo xs
  let required ← Curve.balance charged p.amplification i lower
  let gross ← demand (Amount.released (entry charged i) required)
    (.rejectedTrade "withdrawal output is not positive")
  let withdrawFee ← p.fees.withdrawFee gross
  let net ← gross.sub withdrawFee "withdraw one: amount"
  let amount ← net.div rate
  require (0 < amount.val) (.rejectedTrade "withdrawal output rounds to zero")
  let scaledFee ← (withoutFees.monus gross).add withdrawFee "withdraw one: fee"
  let fee ← scaledFee.div rate
  let balances ← (charged.zip p.rates).mapM fun ((x, rate) : Amount × Amount) => x.div rate
  let rest ← Amount.debit i (entry balances i) amount
  return { asset := i, shares, amount, fee, balancesBefore := p.balances,
           balancesAfter := balances.set i rest }

/-- Carries out a quote, if the balances are still those it was made for. It pays the quoted
    amount: `commit_withdraw_one_coin` of §15. -/
def commitRedemption (p : Pool) (q : RedemptionQuote) : Except PoolError (Amount × Pool) := do
  require (q.balancesBefore = p.balances) .staleQuote
  return (q.amount, p.withBalances q.balancesAfter)

/-- The redemption, quoted and committed at once, and the pool after it:
    `calc_withdraw_one_coin` of §4.4. -/
def redeem (p : Pool) (shares : Amount) (i : Nat) : Except PoolError (RedemptionQuote × Pool) := do
  let quote ← p.quoteRedemption shares i
  let (_, after) ← p.commitRedemption quote
  return (quote, after)

end Pool

end StableSwap
