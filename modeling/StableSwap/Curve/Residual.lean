import StableSwap.Curve.Terms

/-!
# How well a value solves the invariant equation

The residual at `d` is the distance between the two sides of

    L · S + d = L · d + d^(n+1) / (nⁿ · Πxᵢ)

where the last term is one division, rounded down.

Specification: §15 (`invariant_error`).
-/

namespace StableSwap.Curve.Residual

/-- The product with the factor `n · x` of one more balance. -/
def factor (n : Nat) (product : Wide) (x : Amount) : Except PoolError Wide := do
  (← product.mul n "error: n^n").mul x "error: n^n·Πx"

/-- The product `nⁿ · Πxᵢ`, formed in the order of the balances. -/
def scaledProduct (balances : List Amount) : Except PoolError Wide :=
  balances.foldlM (factor balances.length) Word.one

/-- The power `d^(k+1)`, one factor after the other. -/
def power (d : Wide) : (k : Nat) → Except PoolError Wide
  | 0 => .ok d
  | k + 1 => do (← power d k).mul d "error: D^(n+1)"

end Residual

/-- The residual of the invariant equation at `d`: `invariant_error` of §15, which gathers the sum
    and the product in one loop. -/
def residual (balances : List Amount) (amplification : Word 64) (d : Amount) :
    Except PoolError Wide := do
  let n := balances.length
  let leverage ← leverage "error: A·n" amplification n
  let d := d.wide
  let sum ← total "error: S" balances
  let scaledProduct ← Residual.scaledProduct balances
  let power ← Residual.power d n
  let left ← (← leverage.mul sum "error: A·n·S").add d "error: left"
  let leveraged ← leverage.mul d "error: A·n·D"
  let last ← power.div scaledProduct
  let right ← leveraged.add last "error: right"
  return left.distance right

end StableSwap.Curve
