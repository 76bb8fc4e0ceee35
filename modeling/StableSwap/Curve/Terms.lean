import StableSwap.Amount

/-!
# Terms of the curve equations

What every curve equation is formed of. Each equation names its terms itself,
so that a refusal says where it happened.

Specification: §4.2, with `Ann` for the leverage and `S` for the sum.
-/

namespace StableSwap.Curve

/-- The leverage `L = A · n`: `Ann` of §4.2. -/
def leverage (term : String) (amplification : Word 64) (n : Nat) : Except PoolError Wide :=
  (amplification.widen : Wide).mul n term

/-- The sum of the balances, formed in their order: `S` of §4.2. -/
def total (term : String) (balances : List Amount) : Except PoolError Wide :=
  balances.foldlM (fun sum (x : Amount) => sum.add x term) 0

theorem leverage_eq_ok_iff {term : String} {amplification : Word 64} {n : Nat} {l : Wide} :
    leverage term amplification n = .ok l ↔ l.val = amplification.val * n :=
  Word.mul_eq_ok_iff

end StableSwap.Curve
