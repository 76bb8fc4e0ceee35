import StableSwap.Pool

/-!
# Exchanges

An exchange pays in asset `i` and pays out asset `j` so that the invariant is
kept. One unit of the common scale stays in the pool as the margin for
rounding, the trade fee is taken off the rest, and only what is left after
division by the rate is paid.

Specification: `exchange` of §4.4, its preview of §15, and `quote` of §4.3.
-/

namespace StableSwap

/-- The outcome of an exchange: `ExchangeResult` of §10. -/
structure Exchange where
  assetIn : Nat
  assetOut : Nat
  amountIn : Amount
  amountOut : Amount
  fee : Amount
  /-- The balances after the exchange. -/
  balances : List Amount
  deriving DecidableEq, Repr

/-- The line that sums up an exchange. -/
def Exchange.text (e : Exchange) : String :=
  "ExchangeResult(#" ++ toString e.assetIn ++ " " ++ toString e.amountIn ++ " -> #"
    ++ toString e.assetOut ++ " " ++ toString e.amountOut ++ ", fee: " ++ toString e.fee ++ ")"

namespace Pool

/-- What asset `j` gives up, in the common unit and before margin and fee, when `dx` is added
    to the scaled balance of asset `i`: `quote` of §4.3. -/
def quote (p : Pool) (i j : Nat) (dx : Amount) : Except PoolError Amount := do
  p.checkPair i j
  let xs ← p.scaled
  let x ← (entry xs i).add dx "quote: x"
  let y ← p.balanceFor i j x
  return (entry xs j).monus y

/-- The outcome of paying in `dx` of asset `i` for asset `j`: `preview_exchange` of §15. -/
def previewExchange (p : Pool) (i j : Nat) (dx : Amount) : Except PoolError Exchange := do
  p.checkPair i j
  require (0 < dx.val) (.invalidQuantity "exchange amount must be positive")
  let xs ← p.scaled
  let deposited ← dx.mul (entry p.rates i) "exchange: dx·rate"
  let x ← deposited.add (entry xs i) "exchange: x"
  let y ← p.balanceFor i j x
  let gross ← demand (Amount.released (entry xs j) y) (.rejectedTrade "output is not positive")
  let scaledFee ← p.fees.tradeFee gross
  let net ← gross.sub scaledFee "exchange: net output"
  let amountOut ← net.div (entry p.rates j)
  require (0 < amountOut.val) (.rejectedTrade "output rounds to zero")
  let fee ← scaledFee.div (entry p.rates j)
  let balanceIn ← (entry p.balances i).add dx "exchange: balance in"
  let balanceOut ← Amount.debit j (entry p.balances j) amountOut
  return { assetIn := i, assetOut := j, amountIn := dx, amountOut, fee,
           balances := (p.balances.set i balanceIn).set j balanceOut }

/-- The exchange and the pool after it: `exchange` of §4.4. -/
def exchange (p : Pool) (i j : Nat) (dx : Amount) : Except PoolError (Exchange × Pool) := do
  let outcome ← p.previewExchange i j dx
  return (outcome, p.withBalances outcome.balances)

end Pool

end StableSwap
