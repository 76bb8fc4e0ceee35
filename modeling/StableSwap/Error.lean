/-!
# Why an operation is refused

`PoolError` lists the causes for which a pool, its configuration or the curve
arithmetic refuses to answer, and `PoolError.message` is the one place that
words them. An error carries only what its message and its reader need: the
term that grew too large, the index that is out of range, the asset that ran
short.

Specification: §7 and §12 (`SwapError`). Here and in the other modules a section number stands
for a section of the specification of the pool model, and a name such as `compute_d` for the
operation of its interface that a definition describes.
-/

namespace StableSwap

/-- The causes for which an operation is refused: `SwapError` of §12. A refused operation changes
    nothing. -/
inductive PoolError where
  /-- The first deposit into an empty pool leaves an asset without funds. -/
  | incompleteSeed
  /-- A trade or redemption would pay nothing; the text says at which step. -/
  | rejectedTrade (reason : String)
  /-- An iteration used up its passes before it came to rest. -/
  | noConvergence (quantity : String)
  /-- The value of a term lies outside its range. -/
  | overflow (term : String)
  /-- A divisor is zero. -/
  | divisionByZero
  /-- An operation in proportion to the shares finds no shares outstanding. -/
  | noShares
  /-- A configuration breaks one of its rules. -/
  | invalidConfiguration (reason : String)
  /-- No asset has the index. -/
  | noSuchAsset (index assets : Nat)
  /-- A list does not have one entry for each asset. -/
  | lengthMismatch (expected actual : Nat)
  /-- A quantity is of no use to the operation, for instance zero. -/
  | invalidQuantity (reason : String)
  /-- A payment or a fee is larger than the balance that bears it. -/
  | insufficientBalance (asset : Nat)
  /-- More shares are named than are outstanding. -/
  | insufficientSupply
  /-- The balances have changed since the quote was made. -/
  | staleQuote
  deriving DecidableEq, Repr

namespace PoolError

/-- The wording of a cause. -/
def message : PoolError → String
  | incompleteSeed => "first deposit must seed every asset with a positive amount"
  | rejectedTrade reason => "trade rejected: " ++ reason
  | noConvergence quantity => "solver did not converge: " ++ quantity
  | overflow term => "arithmetic overflow: " ++ term
  | divisionByZero => "division by zero"
  | noShares => "pool has no outstanding shares"
  | invalidConfiguration reason => "invalid configuration: " ++ reason
  | noSuchAsset index assets =>
    "invalid asset index " ++ toString index ++ " for a pool of " ++ toString assets ++ " assets"
  | lengthMismatch expected actual =>
    "expected " ++ toString expected ++ " per-asset values, got " ++ toString actual
  | invalidQuantity reason => "invalid quantity: " ++ reason
  | insufficientBalance asset => "insufficient balance of asset " ++ toString asset
  | insufficientSupply => "share amount exceeds outstanding supply"
  | staleQuote => "quote no longer matches pool balances"

end PoolError

end StableSwap
