import StableSwap.Config.Text
import StableSwap.Curve.Exact
import StableSwap.Curve.Residual
import StableSwap.Pool.WellFormed
import StableSwap.Session
import StableSwap.Proofs.Refusal
import StableSwap.Proofs.Curve.Chain
import StableSwap.Proofs.Curve.ChainLoss
import StableSwap.Proofs.Curve.InvariantBound
import StableSwap.Proofs.Curve.InvariantTolerance
import StableSwap.Proofs.Curve.BalanceBound
import StableSwap.Proofs.Curve.BalanceTolerance
import StableSwap.Proofs.Curve.BalanceOrder
import StableSwap.Proofs.Curve.Division
import StableSwap.Proofs.Curve.Enclosure
import StableSwap.Proofs.Curve.BalanceDivisor
import StableSwap.Proofs.Curve.OnePass
import StableSwap.Proofs.Curve.Reckoning
import StableSwap.Proofs.Curve.Agreement
import StableSwap.Proofs.Curve.BalanceConvergence
import StableSwap.Proofs.Curve.EvenBalances
import StableSwap.Proofs.Curve.MissingBalance
import StableSwap.Proofs.Curve.WorkingRange
import StableSwap.Proofs.Curve.Residual
import StableSwap.Proofs.Fee
import StableSwap.Proofs.Fee.Imbalance
import StableSwap.Proofs.Pool.Entry
import StableSwap.Proofs.Pool.Scaling
import StableSwap.Proofs.Exchange.Derivation
import StableSwap.Proofs.Exchange.Margin
import StableSwap.Proofs.Exchange.RoundTrip
import StableSwap.Proofs.Exchange.Order
import StableSwap.Proofs.Exchange.Payment
import StableSwap.Proofs.Exchange.Quote
import StableSwap.Proofs.Pool.SharePrice
import StableSwap.Proofs.Shares.Derivation
import StableSwap.Proofs.Shares.Issue
import StableSwap.Proofs.Shares.Run
import StableSwap.Proofs.Shares.Exit
import StableSwap.Proofs.Shares.Undo
import StableSwap.Proofs.Shares.Proportional
import StableSwap.Proofs.Redemption.Derivation
import StableSwap.Proofs.Redemption.Value
import StableSwap.Proofs.Redemption.Fees
import StableSwap.Proofs.Pool.SolverForms
import StableSwap.Proofs.Pool.Refusals
import StableSwap.Proofs.Pool.Stocked
import StableSwap.Proofs.Pool.Target
import StableSwap.Proofs.Session.Effect
import StableSwap.Proofs.Session.Commit
import StableSwap.Proofs.Session.Ledger
import StableSwap.Proofs.Session.Frame
import StableSwap.Proofs.Json.Literal
import StableSwap.Proofs.Json.RoundTrip
import StableSwap.Proofs.Config.RoundTrip
