import StableSwap.Pool.Exchange
import StableSwap.Pool.Redemption
import StableSwap.Pool.Withdrawal

/-!
# Sessions

A `Session` is the life of one pool: the configuration it was built from, its
present state, and the redemption quotes that were saved under a name. Each
`Step` either answers or is refused; a refused step leaves the session as it
was. A run is a list of steps.

Specification: the operations of §4.4 and §15, which the owner of a pool makes one after the other
(§5).

Main statement: `step_of_refused`, a refused step changes nothing.
-/

namespace StableSwap

/-- What can be asked of a pool. -/
inductive Step where
  /-- Shows the pool. -/
  | view
  /-- Replaces the pool by a new one of the same configuration; saved quotes stay. -/
  | reset
  | setSupply (supply : Amount)
  | scaled
  | invariant
  | virtualPrice
  | balanceFor (i j : Nat) (x : Amount)
  | balanceForTarget (i : Nat) (d : Amount) (xs : List Amount)
  | quote (i j : Nat) (dx : Amount)
  | previewExchange (i j : Nat) (dx : Amount)
  | exchange (i j : Nat) (dx : Amount)
  | previewDeposit (amounts : List Amount)
  | deposit (amounts : List Amount)
  | previewWithdrawal (shares : Amount)
  | withdraw (shares : Amount)
  | previewImbalancedWithdrawal (amounts : List Amount)
  | withdrawImbalanced (amounts : List Amount)
  /-- Quotes a redemption and, if a name is given, saves the quote under it. -/
  | quoteRedemption (shares : Amount) (i : Nat) (save : Option String)
  /-- Commits the quote that is saved under the name. -/
  | commitRedemption (name : String)
  | redeem (shares : Amount) (i : Nat)
  deriving DecidableEq, Repr

/-- What a step answers. -/
inductive Answer where
  | done
  | pool (p : Pool)
  | amount (a : Amount)
  | amounts (as : List Amount)
  | exchange (e : Exchange)
  | deposit (d : Deposit)
  | withdrawal (w : Withdrawal)
  | imbalancedWithdrawal (w : ImbalancedWithdrawal)
  | redemption (q : RedemptionQuote)
  deriving DecidableEq, Repr

/-- A pool in use. -/
structure Session where
  config : Config
  pool : Pool
  /-- The saved quotes, the latest first. -/
  quotes : List (String × RedemptionQuote)
  deriving DecidableEq, Repr

namespace Session

/-- The session at its start. -/
def start (config : Config) : Except PoolError Session := do
  let pool ← Pool.ofConfig config
  return { config, pool, quotes := [] }

/-- The quote saved under a name: the one saved last. A name under which nothing was saved has
    no quote that could match the pool. -/
def saved (s : Session) (name : String) : Except PoolError RedemptionQuote :=
  demand (s.quotes.lookup name) .staleQuote

/-- The session with a quote saved under a name, if there is one. -/
def save (s : Session) (name : Option String) (quote : RedemptionQuote) : Session :=
  match name with
  | some name => { s with quotes := (name, quote) :: s.quotes }
  | none => s

/-- The answer to a step that only reads. -/
def asks {α : Type} (s : Session) (wrap : α → Answer) (answer : Except PoolError α) :
    Except PoolError (Answer × Session) := do
  return (wrap (← answer), s)

/-- The answer to a step that moves the pool on. -/
def moves {α : Type} (s : Session) (wrap : α → Answer)
    (outcome : Except PoolError (α × Pool)) : Except PoolError (Answer × Session) := do
  let (answer, pool) ← outcome
  return (wrap answer, { s with pool })

/-- The answer to a step and the session after it, unless the step is refused. -/
def attempt (s : Session) : Step → Except PoolError (Answer × Session)
  | .view => .ok (.pool s.pool, s)
  | .reset => s.moves (fun () => .done) do return ((), ← Pool.ofConfig s.config)
  | .setSupply supply => .ok (.done, { s with pool := s.pool.withSupply supply })
  | .scaled => s.asks .amounts s.pool.scaled
  | .invariant => s.asks .amount s.pool.invariant
  | .virtualPrice => s.asks .amount s.pool.virtualPrice
  | .balanceFor i j x => s.asks .amount (s.pool.balanceFor i j x)
  | .balanceForTarget i d xs => s.asks .amount (s.pool.balanceForTarget i d xs)
  | .quote i j dx => s.asks .amount (s.pool.quote i j dx)
  | .previewExchange i j dx => s.asks .exchange (s.pool.previewExchange i j dx)
  | .exchange i j dx => s.moves .exchange (s.pool.exchange i j dx)
  | .previewDeposit amounts => s.asks .deposit (s.pool.previewDeposit amounts)
  | .deposit amounts => s.moves .deposit (s.pool.deposit amounts)
  | .previewWithdrawal shares => s.asks .withdrawal (s.pool.previewWithdrawal shares)
  | .withdraw shares => s.moves .withdrawal (s.pool.withdraw shares)
  | .previewImbalancedWithdrawal amounts =>
    s.asks .imbalancedWithdrawal (s.pool.previewImbalancedWithdrawal amounts)
  | .withdrawImbalanced amounts =>
    s.moves .imbalancedWithdrawal (s.pool.withdrawImbalanced amounts)
  | .quoteRedemption shares i name => do
    let quote ← s.pool.quoteRedemption shares i
    return (.redemption quote, s.save name quote)
  | .commitRedemption name => s.moves .amount do s.pool.commitRedemption (← s.saved name)
  | .redeem shares i => s.moves .redemption (s.pool.redeem shares i)

/-- A step's answer or refusal, and the session after it. -/
def step (s : Session) (st : Step) : Except PoolError Answer × Session :=
  match s.attempt st with
  | .ok (answer, after) => (.ok answer, after)
  | .error e => (.error e, s)

/-- The answers of a run, each with the session after it. -/
def run (s : Session) : List Step → List (Except PoolError Answer × Session)
  | [] => []
  | st :: rest => s.step st :: run (s.step st).2 rest

/-- The session after a run. -/
def after (s : Session) (steps : List Step) : Session :=
  steps.foldl (fun s st => (s.step st).2) s

theorem step_of_refused {s : Session} {st : Step} {e : PoolError}
    (h : (s.step st).1 = .error e) : (s.step st).2 = s := by
  unfold step at h ⊢
  split at h
  · cases h
  · rfl

end Session

end StableSwap
