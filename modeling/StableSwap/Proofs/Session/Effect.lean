import StableSwap.Session
import StableSwap.Proofs.Exchange.Derivation
import StableSwap.Proofs.Redemption.Derivation
import StableSwap.Proofs.Shares.Derivation

/-!
# What the steps of a session do

The steps that only read leave the session as it is. For each of the others there is
one thing that it does when it answers; whatever holds of these holds of every run.

Main statements:

* `effect_of_step`, `effect_of_step_eq`: what a step that answers has done.
* `after_append`, `after_of_effect`: a run in two parts, and what every effect keeps
  along a run.
* `Follows.of_effect`, `follows_after`: the pool of a session never leaves the terms of
  its configuration.
-/

namespace StableSwap

/-- The step only reads the session. -/
def Step.reads : Step → Bool
  | .reset | .setSupply _ | .exchange .. | .deposit _ | .withdraw _ | .withdrawImbalanced _
  | .quoteRedemption .. | .commitRedemption _ | .redeem .. => false
  | _ => true

namespace Session

/-- The session with another pool. -/
def withPool (s : Session) (pool : Pool) : Session := { s with pool }

/-- What a step that answers does: the session before it, the step, the answer and the session
    after it. -/
inductive Effect (s : Session) : Step → Answer → Session → Prop
  | read {st : Step} {answer : Answer} (h : st.reads = true) : Effect s st answer s
  | reset {p : Pool} (h : Pool.ofConfig s.config = .ok p) : Effect s .reset .done (s.withPool p)
  | setSupply (supply : Amount) :
      Effect s (.setSupply supply) .done (s.withPool (s.pool.withSupply supply))
  | exchange {i j : ℕ} {dx : Amount} {e : Exchange} (h : s.pool.previewExchange i j dx = .ok e) :
      Effect s (.exchange i j dx) (.exchange e) (s.withPool (s.pool.withBalances e.balances))
  | deposit {amounts : List Amount} {o : Deposit} (h : s.pool.previewDeposit amounts = .ok o) :
      Effect s (.deposit amounts) (.deposit o) (s.withPool (s.pool.withBalances o.balances))
  | withdraw {shares : Amount} {o : Withdrawal} (h : s.pool.previewWithdrawal shares = .ok o) :
      Effect s (.withdraw shares) (.withdrawal o) (s.withPool (s.pool.withBalances o.balances))
  | withdrawImbalanced {amounts : List Amount} {o : ImbalancedWithdrawal}
      (h : s.pool.previewImbalancedWithdrawal amounts = .ok o) :
      Effect s (.withdrawImbalanced amounts) (.imbalancedWithdrawal o)
        (s.withPool (s.pool.withBalances o.balances))
  | quoteRedemption {shares : Amount} {i : ℕ} {name : Option String} {q : RedemptionQuote}
      (h : s.pool.quoteRedemption shares i = .ok q) :
      Effect s (.quoteRedemption shares i name) (.redemption q) (s.save name q)
  | commitRedemption {name : String} {q : RedemptionQuote} (hsaved : s.saved name = .ok q)
      (h : s.pool.balances = q.balancesBefore) :
      Effect s (.commitRedemption name) (.amount q.amount)
        (s.withPool (s.pool.withBalances q.balancesAfter))
  | redeem {shares : Amount} {i : ℕ} {q : RedemptionQuote}
      (h : s.pool.quoteRedemption shares i = .ok q) :
      Effect s (.redeem shares i) (.redemption q)
        (s.withPool (s.pool.withBalances q.balancesAfter))

variable {s s' : Session} {st : Step} {answer : Answer} {steps : List Step}

/-! ## One step -/

theorem asks_eq_ok_iff {α : Type} {wrap : α → Answer} {result : Except PoolError α} :
    s.asks wrap result = .ok (answer, s') ↔ ∃ a, result = .ok a ∧ answer = wrap a ∧ s' = s := by
  simp only [asks, bind_eq_ok_iff, pure, Except.pure, Except.ok.injEq, Prod.mk.injEq,
    @eq_comm _ answer, @eq_comm _ s']

theorem moves_eq_ok_iff {α : Type} {wrap : α → Answer} {outcome : Except PoolError (α × Pool)} :
    s.moves wrap outcome = .ok (answer, s') ↔
      ∃ a p, outcome = .ok (a, p) ∧ answer = wrap a ∧ s' = s.withPool p := by
  simp only [moves, bind_eq_ok_iff, pure, Except.pure, Except.ok.injEq, Prod.mk.injEq, Prod.exists,
    withPool, @eq_comm _ answer, @eq_comm _ s']

/-- A step that answers has its effect. -/
theorem effect_of_attempt (h : s.attempt st = .ok (answer, s')) : Effect s st answer s' := by
  cases st with
  | view =>
    cases h
    exact .read rfl
  | scaled | invariant | virtualPrice | balanceFor | balanceForTarget | quote | previewExchange
  | previewDeposit | previewWithdrawal | previewImbalancedWithdrawal =>
    obtain ⟨_, _, _, rfl⟩ := asks_eq_ok_iff.1 h
    exact .read rfl
  | reset =>
    rw [attempt] at h
    obtain ⟨_, p, hrebuilt, rfl, rfl⟩ := moves_eq_ok_iff.1 h
    simp only [bind_eq_ok_iff, pure, Except.pure, Except.ok.injEq, Prod.mk.injEq, true_and,
      exists_eq_right] at hrebuilt
    exact .reset hrebuilt
  | setSupply supply =>
    cases h
    exact .setSupply supply
  | exchange i j dx =>
    obtain ⟨e, p, hmove, rfl, rfl⟩ := moves_eq_ok_iff.1 h
    obtain ⟨he, rfl⟩ := Pool.exchange_eq_ok_iff.1 hmove
    exact .exchange he
  | deposit amounts =>
    obtain ⟨o, p, hmove, rfl, rfl⟩ := moves_eq_ok_iff.1 h
    obtain ⟨ho, rfl⟩ := Pool.deposit_eq_ok_iff.1 hmove
    exact .deposit ho
  | withdraw shares =>
    obtain ⟨o, p, hmove, rfl, rfl⟩ := moves_eq_ok_iff.1 h
    obtain ⟨ho, rfl⟩ := Pool.withdraw_eq_ok_iff.1 hmove
    exact .withdraw ho
  | withdrawImbalanced amounts =>
    obtain ⟨o, p, hmove, rfl, rfl⟩ := moves_eq_ok_iff.1 h
    obtain ⟨ho, rfl⟩ := Pool.withdrawImbalanced_eq_ok_iff.1 hmove
    exact .withdrawImbalanced ho
  | quoteRedemption shares i name =>
    simp only [attempt, bind_eq_ok_iff, pure, Except.pure, Except.ok.injEq, Prod.mk.injEq] at h
    obtain ⟨q, hq, rfl, rfl⟩ := h
    exact .quoteRedemption hq
  | commitRedemption name =>
    obtain ⟨a, p, hcommit, rfl, rfl⟩ := moves_eq_ok_iff.1 h
    obtain ⟨q, hsaved, hcommit⟩ := bind_eq_ok_iff.1 hcommit
    obtain ⟨hfresh, rfl, rfl⟩ := Pool.commitRedemption_eq_ok_iff.1 hcommit
    exact .commitRedemption hsaved hfresh
  | redeem shares i =>
    obtain ⟨q, p, hmove, rfl, rfl⟩ := moves_eq_ok_iff.1 h
    obtain ⟨hq, rfl⟩ := Pool.redeem_eq_ok hmove
    exact .redeem hq

theorem step_of_attempt (h : s.attempt st = .ok (answer, s')) : s.step st = (.ok answer, s') := by
  rw [step, h]

theorem step_of_attempt_error {e : PoolError} (h : s.attempt st = .error e) :
    s.step st = (.error e, s) := by
  rw [step, h]

theorem effect_of_step (h : (s.step st).1 = .ok answer) :
    Effect s st answer (s.step st).2 := by
  cases hattempt : s.attempt st with
  | ok result =>
    rw [step_of_attempt hattempt] at h ⊢
    cases h
    exact effect_of_attempt hattempt
  | error e =>
    rw [step_of_attempt_error hattempt] at h
    cases h

theorem effect_of_step_eq (h : s.step st = (.ok answer, s')) : Effect s st answer s' := by
  have heffect := effect_of_step (congrArg Prod.fst h)
  rw [h] at heffect
  exact heffect

/-- A saved quote is one of those of the session. -/
theorem mem_of_saved {name : String} {q : RedemptionQuote} (h : s.saved name = .ok q) :
    (name, q) ∈ s.quotes := by
  obtain ⟨earlier, later, hquotes, -⟩ := List.lookup_eq_some_iff.1 (demand_eq_ok_iff.1 h)
  rw [hquotes]
  exact List.mem_append_right _ List.mem_cons_self

/-! ## Runs -/

@[simp] theorem after_nil (s : Session) : s.after [] = s := rfl

@[simp] theorem after_cons (s : Session) (st : Step) (steps : List Step) :
    s.after (st :: steps) = (s.step st).2.after steps := rfl

theorem after_append (s : Session) (steps later : List Step) :
    s.after (steps ++ later) = (s.after steps).after later :=
  List.foldl_append

/-- What every effect keeps is kept along every run, since a refused step changes nothing. -/
theorem after_of_effect {P : Session → Prop}
    (hkeep : ∀ {s s' : Session} {st : Step} {answer : Answer}, Effect s st answer s' → P s → P s')
    (h : P s) (steps : List Step) : P (s.after steps) := by
  induction steps generalizing s with
  | nil => exact h
  | cons st steps ih =>
    rw [after_cons]
    apply ih
    cases hanswer : (s.step st).1 with
    | ok answer => exact hkeep (effect_of_step hanswer) h
    | error e =>
      rw [step_of_refused hanswer]
      exact h

/-! ## The terms of a pool -/

/-- The pool has the terms of its session's configuration: all of it but the balances and the
    supply. -/
structure Follows (s : Session) : Prop where
  amplification : s.pool.amplification = s.config.amplification
  rates : s.pool.rates = s.config.rates
  fees : s.pool.fees = s.config.fees

theorem follows_of_ofConfig {p : Pool} (h : Pool.ofConfig s.config = .ok p) :
    (s.withPool p).Follows := by
  simp only [Pool.ofConfig, bind_eq_ok_iff, pure, Except.pure, Except.ok.injEq] at h
  obtain ⟨_, _, balances, _, rfl⟩ := h
  exact ⟨rfl, rfl, rfl⟩

theorem follows_of_start {c : Config} (h : start c = .ok s) : s.Follows := by
  simp only [start, bind_eq_ok_iff, pure, Except.pure, Except.ok.injEq] at h
  obtain ⟨p, hp, rfl⟩ := h
  exact follows_of_ofConfig (s := ⟨c, p, []⟩) hp

theorem Follows.of_effect (h : Effect s st answer s') (hs : s.Follows) :
    s'.Follows ∧ s'.config = s.config := by
  cases h with
  | read => exact ⟨hs, rfl⟩
  | reset h => exact ⟨follows_of_ofConfig h, rfl⟩
  | setSupply | exchange | deposit | withdraw | withdrawImbalanced | commitRedemption | redeem =>
    exact ⟨⟨hs.amplification, hs.rates, hs.fees⟩, rfl⟩
  | @quoteRedemption _ _ name =>
    cases name with
    | none => exact ⟨hs, rfl⟩
    | some name => exact ⟨⟨hs.amplification, hs.rates, hs.fees⟩, rfl⟩

/-- Along a run neither the configuration nor the terms of the pool change. -/
theorem follows_after (hs : s.Follows) (steps : List Step) :
    (s.after steps).Follows ∧ (s.after steps).config = s.config := by
  refine after_of_effect (P := fun t => t.Follows ∧ t.config = s.config) ?_ ⟨hs, rfl⟩ steps
  intro t t' st answer h ⟨ht, hconfig⟩
  obtain ⟨ht', hconfig'⟩ := ht.of_effect h
  exact ⟨ht', hconfig'.trans hconfig⟩

end Session

end StableSwap
