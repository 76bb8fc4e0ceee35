import StableSwap.Curve.Settling
import StableSwap.Curve.Terms

/-!
# The invariant of a set of balances

For scaled balances `x₀ … xₙ₋₁` with sum `S` and the leverage `L = A · n`, the
invariant `D` is the value that solves

    L · S + D = L · D + D^(n+1) / (nⁿ · Πxᵢ)

It is found by repeating

    P  = D · D / (n·x₀) · D / (n·x₁) · …
    D' = (L·S + n·P) · D / ((L − 1)·D + (n + 1)·P)

from `D = S`, with every division rounded down where it stands and the balances
taken in their order. Another order of the operations gives other last digits,
so the order is part of the result.

Specification: §4.2 (`InvariantSolver`, `compute_d`), where `L` is called `Ann` and `P` is called
`D_P`.
-/

namespace StableSwap.Curve.Invariant

/-- What stays the same through the passes. -/
structure Terms where
  balances : List Amount
  /-- `L − 1`. -/
  leverageLessOne : Wide
  /-- `n + 1`. -/
  countPlusOne : Wide
  /-- The first value of the repetition, `S`. -/
  sum : Wide
  /-- `L · S`. -/
  leveragedSum : Wide
  deriving DecidableEq, Repr

/-- The terms that belong to the balances. They are formed in a fixed order, so that the first one
    out of range is the one named. -/
def terms (balances : List Amount) (amplification : Word 64) : Except PoolError Terms := do
  let n := balances.length
  let leverage ← leverage "D: A·n" amplification n
  let leverageLessOne ← leverage.sub 1 "D: A·n − 1"
  let countPlusOne ← Word.fit "D: n + 1" (n + 1)
  let sum ← total "D: S" balances
  let leveragedSum ← leverage.mul sum "D: A·n·S"
  return { balances, leverageLessOne, countPlusOne, sum, leveragedSum }

/-- One factor of `P`, `p · d / (n · x)`: the update of `D_P` in §4.2. -/
def factor (n : Nat) (d p : Wide) (x : Amount) : Except PoolError Wide := do
  let divisor ← x.wide.mul n "D: n·x"
  let product ← p.mul d "D: D_P·D"
  product.div divisor

/-- The value `P` that belongs to `d`: the inner loop of `compute_d`. -/
def product (balances : List Amount) (d : Wide) : Except PoolError Wide :=
  balances.foldlM (factor balances.length d) d

/-- The next value after `d`: the update of `D` in §4.2, one pass of the loop of `compute_d`. -/
def step (t : Terms) (d : Wide) : Except PoolError Wide := do
  let p ← product t.balances d
  let weighted ← p.mul t.balances.length "D: D_P·n"
  let scale ← t.leveragedSum.add weighted "D: numerator sum"
  let numerator ← scale.mul d "D: numerator"
  let own ← t.leverageLessOne.mul d "D: (A·n − 1)·D"
  let cross ← t.countPlusOne.mul p "D: (n + 1)·D_P"
  let denominator ← own.add cross "D: denominator"
  numerator.div denominator

/-- The repetition that finds the invariant: the loop of `compute_d`, from `D = S`. -/
def search (balances : List Amount) (amplification : Word 64) : Except PoolError Halt := do
  let t ← terms balances amplification
  settle (step t) passLimit 0 t.sum

/-- The invariant, with the number of passes that found it. -/
def report (balances : List Amount) (amplification : Word 64) : Report :=
  Report.of "D" "D: result" (search balances amplification)

end Invariant

/-- The invariant of the balances: `compute_d` of §4.2. -/
def invariant (balances : List Amount) (amplification : Word 64) : Except PoolError Amount :=
  (Invariant.report balances amplification).answer

end StableSwap.Curve
