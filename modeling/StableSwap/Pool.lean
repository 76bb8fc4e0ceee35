import StableSwap.Config
import StableSwap.Curve.Balance
import StableSwap.Curve.Invariant

/-!
# Pools

A `Pool` holds one balance and one rate for each asset and the number of shares
outstanding. The curve sees scaled balances, that is, each balance times its
rate. The operations that move assets are in the modules below this one; each
computes an outcome that carries the balances it leads to, and a pool takes
them over by `Pool.withBalances`. The supply of shares is kept by the owner of
the pool and changes only by `Pool.withSupply`.

Specification: §3 and §4.1 (`PoolState`), §4.3 for the two forms of the balance, and §15 for the
preconditions.
-/

namespace StableSwap

/-- The state of a pool: `PoolState` of §3. -/
structure Pool where
  amplification : Word 64
  balances : List Amount
  rates : List Amount
  fees : FeeSchedule
  supply : Amount
  deriving DecidableEq, Repr

namespace Pool

/-- The pool that a configuration describes: `from_config` of §14. -/
def ofConfig (c : Config) : Except PoolError Pool := do
  c.validate
  let balances ← c.initialBalances
  return { amplification := c.amplification, balances, rates := c.rates, fees := c.fees,
           supply := c.supply }

/-- The number of assets. -/
def assetCount (p : Pool) : Nat := p.balances.length

/-- The pool with other balances: `replace_balances`, the commit of §15. -/
def withBalances (p : Pool) (balances : List Amount) : Pool := { p with balances }

/-- The pool with another number of shares outstanding: `set_supply` of §15. -/
def withSupply (p : Pool) (supply : Amount) : Pool := { p with supply }

/-- The entry of an asset in a list with one entry for each asset. It is asked for only after
    the index has been checked. -/
def entry (values : List Amount) (i : Nat) : Amount := values.getD i 0

/-! ## Preconditions -/

/-- The index belongs to an asset: `check_index`. -/
def checkAsset (p : Pool) (i : Nat) : Except PoolError Unit :=
  require (i < p.assetCount) (.noSuchAsset i p.assetCount)

/-- The indices belong to two different assets: `check_pair`. -/
def checkPair (p : Pool) (i j : Nat) : Except PoolError Unit := do
  p.checkAsset i
  p.checkAsset j
  require (i ≠ j) (.invalidQuantity "cannot exchange an asset for itself")

/-- The list has one entry for each asset: `check_len`. -/
def checkLength (p : Pool) (values : List Amount) : Except PoolError Unit :=
  require (values.length = p.assetCount) (.lengthMismatch p.assetCount values.length)

/-- There are shares outstanding: `require_supply`. -/
def checkSupply (p : Pool) : Except PoolError Unit :=
  require (0 < p.supply.val) .noShares

/-- The number of shares is positive and at most the number outstanding. -/
def checkShares (p : Pool) (shares : Amount) : Except PoolError Unit := do
  require (0 < shares.val) (.invalidQuantity "share amount must be positive")
  require (shares.val ≤ p.supply.val) .insufficientSupply

/-! ## The curve -/

/-- The balances in the common unit: `normalize`. -/
def scale (p : Pool) (balances : List Amount) : Except PoolError (List Amount) :=
  (balances.zip p.rates).mapM fun (balance, rate) => balance.mul rate "normalized balance"

/-- The pool's own balances in the common unit: `normalized` of §4.1. -/
def scaled (p : Pool) : Except PoolError (List Amount) := p.scale p.balances

/-- The invariant that the pool would have with the balances: `invariant_of`. -/
def invariantOf (p : Pool) (balances : List Amount) : Except PoolError Amount := do
  Curve.invariant (← p.scale balances) p.amplification

/-- The invariant of the pool: `invariant` of §15. -/
def invariant (p : Pool) : Except PoolError Amount := p.invariantOf p.balances

/-- The part of the invariant that one share stands for, in the common unit: `virtual_price` of
    §15. -/
def virtualPrice (p : Pool) : Except PoolError Amount := do
  p.checkSupply
  (← p.invariant).mulDiv Amount.unit p.supply "virtual price"

/-- The scaled balance of asset `j` that keeps the invariant when asset `i` holds `x`: `solve_for`
    of §4.3. -/
def balanceFor (p : Pool) (i j : Nat) (x : Amount) : Except PoolError Amount := do
  p.checkPair i j
  let xs ← p.scaled
  let d ← Curve.invariant xs p.amplification
  Curve.balance (xs.set i x) p.amplification j d

/-- The scaled balance of asset `i` that leads to the invariant `d` beside the scaled
    balances `xs`: `solve_for_target_d` of §4.3. -/
def balanceForTarget (p : Pool) (i : Nat) (d : Amount) (xs : List Amount) :
    Except PoolError Amount := do
  p.checkAsset i
  p.checkLength xs
  Curve.balance xs p.amplification i d

end Pool

end StableSwap
