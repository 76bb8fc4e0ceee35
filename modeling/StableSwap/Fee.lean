import StableSwap.Amount

/-!
# Fees

A `FeeRate` is a fraction with a fixed denominator; a `FeeSchedule` holds the
rate on trades and the rate on withdrawals. An operation that changes the mix
of a pool of `n` assets is charged the trade rate scaled by `n / (4 · (n − 1))`
on each asset's distance from its share of the pool.

Specification: §11 (`FeeRate`, `FEE_DENOMINATOR`), §10 (`Fees`) and §4.4 (the fees).
-/

namespace StableSwap

/-- The fraction `numerator / FeeRate.denominator`: `FeeRate` of §11. -/
structure FeeRate where
  numerator : Word 64
  deriving DecidableEq, Repr

namespace FeeRate

/-- The denominator of every rate: `FEE_DENOMINATOR` of §11. -/
def denominator : Nat := Nat.pow 10 10

/-- No fee. -/
def zero : FeeRate := ⟨0⟩

instance : Inhabited FeeRate := ⟨zero⟩

/-- The whole amount. -/
def whole : FeeRate := ⟨⟨denominator, by decide⟩⟩

/-- A rate takes at most the whole amount (§14). -/
def isValid (r : FeeRate) : Bool := r.numerator.val ≤ denominator

/-- A rate that takes nothing of any amount. -/
def isZero (r : FeeRate) : Bool := r.numerator.val = 0

/-- The order of two rates. -/
def order (r s : FeeRate) : Ordering := compare r.numerator.val s.numerator.val

/-- The fee on an amount, rounded down: `apply` of a `FeeRate`. -/
def fee (r : FeeRate) (amount : Amount) : Except PoolError Amount := do
  let product ← amount.mul r.numerator "fee: amount·rate"
  product.div denominator

/-- The rate on the imbalance of `n` assets, rounded down: `for_imbalance` of a `FeeRate`, the
    scaling by `n / (4(n − 1))` of §4.4. -/
def forImbalance (r : FeeRate) (n : Nat) : Except PoolError FeeRate := do
  require (2 ≤ n) (.invalidConfiguration "imbalance fee needs at least two assets")
  let scaled ← Word.fit "fee: imbalance rate" (r.numerator * n / (4 * (n - 1)))
  return ⟨scaled⟩

/-- A rate is written as its fraction. -/
def text (r : FeeRate) : String := toString r.numerator ++ "/" ++ toString denominator

end FeeRate

/-- The rates of a pool, which stay the same for its lifetime: `Fees` of §10. -/
structure FeeSchedule where
  trade : FeeRate
  withdraw : FeeRate
  deriving DecidableEq, Repr

namespace FeeSchedule

/-- The rates of a pool that sets none of its own: 0.04% on trades, nothing on withdrawals, the
    defaults of §14. -/
def standard : FeeSchedule := ⟨⟨⟨4000000, by decide⟩⟩, .zero⟩

/-- Both rates take at most the whole amount: `validate` of `Fees`. -/
def validate (f : FeeSchedule) : Except PoolError Unit := do
  require f.trade.isValid (.invalidConfiguration "trade fee exceeds the fee denominator")
  require f.withdraw.isValid (.invalidConfiguration "withdraw fee exceeds the fee denominator")

/-- The schedule of two rates, if they are valid. -/
def make (trade withdraw : FeeRate) : Except PoolError FeeSchedule := do
  let f : FeeSchedule := { trade, withdraw }
  f.validate
  return f

/-- The fee on the output of a trade: `trade_fee`. -/
def tradeFee (f : FeeSchedule) (amount : Amount) : Except PoolError Amount := f.trade.fee amount

/-- The fee on a withdrawn amount: `withdraw_fee`. -/
def withdrawFee (f : FeeSchedule) (amount : Amount) : Except PoolError Amount :=
  f.withdraw.fee amount

/-- The fee on an asset's distance from its share, in a pool of `n` assets: `imbalance_fee`. -/
def imbalanceFee (f : FeeSchedule) (n : Nat) (distance : Amount) : Except PoolError Amount := do
  (← f.trade.forImbalance n).fee distance

/-- A schedule is written as its two rates. -/
def text (f : FeeSchedule) : String := "trade " ++ f.trade.text ++ " / withdraw " ++ f.withdraw.text

/-- A schedule passes exactly if both its rates take at most the whole amount. -/
theorem validate_eq_ok_iff {f : FeeSchedule} :
    f.validate = .ok () ↔ f.trade.isValid = true ∧ f.withdraw.isValid = true := by
  simp only [validate, bind_eq_ok_iff, require_eq_ok_iff]
  constructor
  · rintro ⟨_, h⟩
    exact h
  · intro h
    exact ⟨(), h⟩

end FeeSchedule

theorem FeeRate.fee_eq_ok_iff {r : FeeRate} {amount fee : Amount} :
    r.fee amount = .ok fee ↔
      amount.val * r.numerator.val < Word.size 256 ∧
        fee.val = amount.val * r.numerator.val / denominator := by
  simp only [FeeRate.fee, bind_eq_ok_iff, Word.mul_eq_ok_iff, Word.div_eq_ok_iff]
  constructor
  · rintro ⟨p, hp, _, hfee⟩
    exact ⟨hp ▸ p.isLt, hp ▸ hfee⟩
  · rintro ⟨hlt, hfee⟩
    exact ⟨⟨_, hlt⟩, rfl, by decide, hfee⟩

theorem FeeRate.fee_eq_error_iff {r : FeeRate} {amount : Amount} {e : PoolError} :
    r.fee amount = .error e ↔
      Word.size 256 ≤ amount.val * r.numerator.val ∧ e = .overflow "fee: amount·rate" := by
  simp only [FeeRate.fee, bind_eq_error_iff, Word.mul_eq_error_iff, Word.div_eq_error_iff]
  constructor
  · rintro (h | ⟨_, _, hzero, _⟩)
    · exact h
    · exact absurd hzero (by decide)
  · intro h
    exact .inl h

end StableSwap
