import StableSwap.Fee

/-!
# Pool configurations

A `Config` says how a pool is set up: its amplification, the number of its
assets, their rates and first balances, the fees, and the shares outstanding at
the start. Any values may be put together; `Config.validate` is what a pool
demands of them.

Specification: §6 and §14 (`PoolConfig`, `InitialBalances`).
-/

namespace StableSwap

/-- The balances a pool starts with: `InitialBalances` of §14. -/
inductive Funding where
  /-- The balance of each asset. -/
  | balances (amounts : List Amount)
  /-- A target for the invariant, to be spread evenly over the assets. -/
  | target (invariant : Amount)
  deriving DecidableEq, Repr

/-- Given balances have to be one for each asset. -/
def Funding.validate (assetCount : Nat) : Funding → Except PoolError Unit
  | balances amounts =>
    require (amounts.length = assetCount) (.lengthMismatch assetCount amounts.length)
  | target _ => .ok ()

/-- The set-up of a pool: `PoolConfig` of §14, with its defaults. -/
structure Config where
  /-- The amplification, already scaled by `n^(n−1)` as the invariant uses it. -/
  amplification : Word 64
  assetCount : Word 64
  funding : Funding
  /-- By what each asset's balance is scaled to the common unit. -/
  rates : List Amount := List.replicate assetCount.val Amount.unit
  fees : FeeSchedule := .standard
  /-- The shares outstanding at the start. -/
  supply : Amount := 0
  deriving DecidableEq, Repr

namespace Config

/-- The rules a configuration has to keep, in the order in which they are checked:
    `validate` of §14. -/
def validate (c : Config) : Except PoolError Unit := do
  let n := c.assetCount.val
  require (2 ≤ n) (.invalidConfiguration "a pool needs at least two assets")
  require (0 < c.amplification.val)
    (.invalidConfiguration "amplification must be greater than zero")
  require (1 < c.amplification * n)
    (.invalidConfiguration "amplification times asset count must exceed one")
  require (c.rates.length = n) (.lengthMismatch n c.rates.length)
  require (∀ rate ∈ c.rates, 0 < rate.val) (.invalidConfiguration "rates must be positive")
  c.funding.validate n
  c.fees.validate

/-- The balance of each asset at the start. A target is divided by the number of assets, and
    each share is converted from the common unit by the asset's rate: `initial_balances`, the
    expansion of §14. -/
def initialBalances (c : Config) : Except PoolError (List Amount) :=
  match c.funding with
  | .balances amounts => .ok amounts
  | .target invariant => do
    let share ← invariant.div c.assetCount
    c.rates.mapM fun (rate : Amount) => share.mulDiv Amount.unit rate "initial balance"

end Config

end StableSwap
