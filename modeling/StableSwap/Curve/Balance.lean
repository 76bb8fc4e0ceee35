import StableSwap.Curve.Settling
import StableSwap.Curve.Terms

/-!
# The balance that keeps an invariant

With the invariant fixed at `D` and all scaled balances but one given, the
missing balance `y` solves the quadratic `y² + (b − D)·y = c` with

    c = D^(n+1) / (nⁿ · Π'x · L · n)      (rounded down factor by factor)
    b = Σ'x + D / L

where `L = A · n` and the primed sum and product run over the given balances.
It is found by repeating `y' = (y² + c) / (2y + b − D)` from `y = D`.

Specification: §4.3 (`BalanceSolver`, `solve_y`). Both forms of that section are this one function.
-/

namespace StableSwap.Curve.Balance

/-- The quadratic `y² + (b − target)·y = c`. -/
structure Quadratic where
  c : Wide
  b : Wide
  target : Wide
  deriving DecidableEq, Repr

/-- One factor of `c`, `c · d / (n · x)`: the update of `c` in the loop of `solve_y` over the
    balances. -/
def factor (n : Nat) (d c : Wide) (x : Amount) : Except PoolError Wide := do
  let product ← c.mul d "y: c·D"
  let divisor ← x.wide.mul n "y: x·n"
  product.div divisor

/-- The quadratic for the balance of asset `k`: `b` and `c` of `solve_y`, which skips asset `k`
    and gathers the sum and the product in one loop. The entry at `k` is not read; an index past
    the end leaves every entry among the given ones. -/
def quadratic (balances : List Amount) (amplification : Word 64) (k : Nat) (d : Amount) :
    Except PoolError Quadratic := do
  let n := balances.length
  let given := balances.eraseIdx k
  let target := d.wide
  let leverage ← leverage "y: A·n" amplification n
  let sum ← total "y: S'" given
  let partialC ← given.foldlM (factor n target) target
  let lastProduct ← partialC.mul target "y: c·D"
  let lastDivisor ← leverage.mul n "y: n·A·n"
  let c ← lastProduct.div lastDivisor
  let share ← target.div leverage
  let b ← sum.add share "y: b"
  return { c, b, target }

/-- The next value after `y`: the update of `y` in §4.3, one pass of the second loop of
    `solve_y`. -/
def step (q : Quadratic) (y : Wide) : Except PoolError Wide := do
  let square ← y.mul y "y: y²"
  let numerator ← square.add q.c "y: y² + c"
  let double ← y.mul 2 "y: 2y"
  let shifted ← double.add q.b "y: 2y + b"
  let denominator ← shifted.sub q.target "y: denominator"
  numerator.div denominator

/-- The repetition that finds the balance of asset `k`: the second loop of `solve_y`, from
    `y = D`. -/
def search (balances : List Amount) (amplification : Word 64) (k : Nat) (d : Amount) :
    Except PoolError Halt := do
  let q ← quadratic balances amplification k d
  settle (step q) passLimit 0 q.target

/-- The balance of asset `k`, with the number of passes that found it. -/
def report (balances : List Amount) (amplification : Word 64) (k : Nat) (d : Amount) : Report :=
  Report.of "y" "y: result" (search balances amplification k d)

end Balance

/-- The balance of asset `k` that keeps the invariant at `d`, the other balances being given:
    `solve_y` of §4.3. -/
def balance (balances : List Amount) (amplification : Word 64) (k : Nat) (d : Amount) :
    Except PoolError Amount :=
  (Balance.report balances amplification k d).answer

end StableSwap.Curve
