import StableSwap.Pool

/-!
# Deposits

A deposit is paid for with new shares. The first deposit into a pool without
shares must fund every asset and earns as many shares as the invariant. Any
later one earns shares in proportion to the growth of the invariant, after each
asset has been charged for its distance from the balance that a proportional
deposit would have led to.

Specification: `add_liq` of §4.4 and its preview of §15.
-/

namespace StableSwap

/-- The outcome of a deposit: `DepositOutcome` of §10. -/
structure Deposit where
  /-- The shares to be issued. -/
  minted : Amount
  /-- The fee taken from each asset. -/
  fees : List Amount
  invariantBefore : Amount
  invariantAfter : Amount
  /-- The balances after the deposit. -/
  balances : List Amount
  deriving DecidableEq, Repr

/-- The line that sums up a deposit. -/
def Deposit.text (d : Deposit) : String :=
  "Deposit(minted: " ++ toString d.minted ++ ", D: " ++ toString d.invariantBefore ++ " -> "
    ++ toString d.invariantAfter ++ ")"

namespace Pool

/-- The fee on each asset when the balances change from `old` to `new` and the invariant from
    `before` to `after`. The ideal balance of an asset moves as the invariant does. This is
    `imbalance_fees`, the fee of §4.4. -/
def imbalanceFees (p : Pool) (old new : List Amount) (before after : Amount) :
    Except PoolError (List Amount) :=
  (old.zip new).mapM fun (balance, changed) => do
    let ideal ← after.mulDiv balance before "ideal balance"
    p.fees.imbalanceFee p.assetCount (ideal.distance changed)

/-- The balances with the amounts added: the raw deposit of §4.4. -/
def credited (p : Pool) (amounts : List Amount) : Except PoolError (List Amount) :=
  (p.balances.zip amounts).mapM fun (balance, amount) => balance.add amount "deposit: balance"

/-- The first deposit, into a pool without shares: `preview_add_liq` with a supply of zero. -/
def previewSeed (p : Pool) (amounts : List Amount) : Except PoolError Deposit := do
  require (∀ amount ∈ amounts, 0 < amount.val) .incompleteSeed
  require (∃ amount ∈ amounts, 0 < amount.val) (.invalidQuantity "deposit is empty")
  let balances ← p.credited amounts
  let after ← p.invariantOf balances
  return { minted := after, fees := List.replicate balances.length 0, invariantBefore := 0,
           invariantAfter := after, balances }

/-- A deposit into a pool with shares outstanding: `preview_add_liq` with a supply. -/
def previewAddition (p : Pool) (amounts : List Amount) : Except PoolError Deposit := do
  require (∃ amount ∈ amounts, 0 < amount.val) (.invalidQuantity "deposit is empty")
  let before ← p.invariant
  let credited ← p.credited amounts
  let ideal ← p.invariantOf credited
  let fees ← p.imbalanceFees p.balances credited before ideal
  let balances ← Amount.debitAll credited fees
  let after ← p.invariantOf balances
  let growth ← after.sub before "deposit: invariant growth"
  let minted ← p.supply.mulDiv growth before "deposit: minted"
  return { minted, fees, invariantBefore := before, invariantAfter := after, balances }

/-- The outcome of depositing an amount of each asset: `preview_add_liq` of §15. -/
def previewDeposit (p : Pool) (amounts : List Amount) : Except PoolError Deposit := do
  p.checkLength amounts
  if p.supply.val = 0 then p.previewSeed amounts else p.previewAddition amounts

/-- The deposit and the pool after it: `add_liq` of §4.4. -/
def deposit (p : Pool) (amounts : List Amount) : Except PoolError (Deposit × Pool) := do
  let outcome ← p.previewDeposit amounts
  return (outcome, p.withBalances outcome.balances)

end Pool

end StableSwap
