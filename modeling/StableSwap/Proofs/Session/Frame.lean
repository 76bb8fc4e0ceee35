import StableSwap.Proofs.Session.Commit

/-!
# What a session keeps

Whatever is asked of a pool, it stays well-formed and on the terms of its
configuration, and the shares outstanding are those that were set last. The lists
of a pool are read side by side, so that it matters that they stay of one length:
also when a quote is carried out, which writes back balances that were saved at an
earlier time.

A step that can be tried out beforehand answers what its trial answers and moves the
pool on to the balances of that answer, and to nothing else.

Main statements:

* `OnTerms.of_effect`, `onTerms_after`: a session stays on its terms.
* `supply_after`: the shares outstanding after a run.
* `step_of_preview`: a step beside its trial.
* `run_keeps_frame`: all of it, for every step of every run.
-/

namespace StableSwap

/-- The step that tries out what the step would do. -/
def Step.preview? : Step → Option Step
  | .exchange i j dx => some (.previewExchange i j dx)
  | .deposit amounts => some (.previewDeposit amounts)
  | .withdraw shares => some (.previewWithdrawal shares)
  | .withdrawImbalanced amounts => some (.previewImbalancedWithdrawal amounts)
  | .redeem shares i => some (.quoteRedemption shares i none)
  | _ => none

/-- The shares outstanding after a step, if there were `supply` before it. -/
def Step.supply (c : Config) (supply : Amount) : Step → Amount
  | .setSupply shares => shares
  | .reset => c.supply
  | _ => supply

/-- The balances that an outcome leads to. -/
def Answer.balances? : Answer → Option (List Amount)
  | .exchange e => some e.balances
  | .deposit o => some o.balances
  | .withdrawal o => some o.balances
  | .imbalancedWithdrawal o => some o.balances
  | .redemption q => some q.balancesAfter
  | _ => none

namespace Session

variable {c : Config} {s s' t : Session} {st : Step} {answer : Answer}

/-! ## The terms -/

/-- What holds of a session of the configuration at every time. -/
structure OnTerms (c : Config) (s : Session) : Prop where
  config : s.config = c
  wellFormed : s.pool.WellFormed
  assetCount : s.pool.assetCount = c.assetCount.val
  /-- A saved quote leads to as many balances as it was made for. -/
  quotes : ∀ x ∈ s.quotes, x.2.balancesAfter.length = x.2.balancesBefore.length

theorem OnTerms.withBalances (h : s.OnTerms c) {balances : List Amount}
    (hlength : balances.length = s.pool.assetCount) :
    (s.withPool (s.pool.withBalances balances)).OnTerms c where
  config := h.config
  wellFormed := h.wellFormed.withBalances hlength
  assetCount := hlength.trans h.assetCount
  quotes := h.quotes

theorem OnTerms.ofConfig (h : s.OnTerms c) {p : Pool} (hp : Pool.ofConfig c = .ok p) :
    (s.withPool p).OnTerms c where
  config := h.config
  wellFormed := Pool.wellFormed_of_ofConfig hp
  assetCount := Pool.assetCount_of_ofConfig hp
  quotes := h.quotes

/-- A step keeps a session on its terms. -/
theorem OnTerms.of_effect (h : Effect s st answer s') (hs : s.OnTerms c) : s'.OnTerms c := by
  cases h with
  | read => exact hs
  | reset hp =>
    rw [hs.config] at hp
    exact hs.ofConfig hp
  | setSupply supply =>
    exact
      { config := hs.config
        wellFormed := hs.wellFormed.withSupply supply
        assetCount := hs.assetCount
        quotes := hs.quotes }
  | exchange he =>
    obtain ⟨t, ht⟩ := Pool.exists_derivation he
    exact hs.withBalances ht.length_balances
  | deposit ho => exact hs.withBalances (Pool.length_of_deposit ho)
  | withdraw ho => exact hs.withBalances (Pool.length_of_withdrawal ho)
  | withdrawImbalanced ho =>
    obtain ⟨t, ht⟩ := Pool.previewImbalancedWithdrawal_eq_ok_iff.1 ho
    exact hs.withBalances ht.length_balances
  | @quoteRedemption shares i name q hq =>
    cases name with
    | none => exact hs
    | some name =>
      obtain ⟨t, ht⟩ := Pool.exists_redemption_derivation hq
      obtain ⟨-, -, hbefore⟩ := Pool.quoteRedemption_remembers hq
      have hlength := ht.length_balances hs.wellFormed
      refine ⟨hs.config, hs.wellFormed, hs.assetCount, List.forall_mem_cons.2 ⟨?_, hs.quotes⟩⟩
      rw [hbefore]
      exact hlength
  | commitRedemption hsaved hbalances =>
    apply hs.withBalances
    rw [hs.quotes _ (mem_of_saved hsaved), ← hbalances]
    rfl
  | redeem hq =>
    obtain ⟨t, ht⟩ := Pool.exists_redemption_derivation hq
    exact hs.withBalances (ht.length_balances hs.wellFormed)

theorem start_eq_ok_iff : start c = .ok s ↔ ∃ p, Pool.ofConfig c = .ok p ∧ s = ⟨c, p, []⟩ := by
  simp only [start, bind_eq_ok_iff, pure, Except.pure, Except.ok.injEq, @eq_comm _ s]

theorem onTerms_of_start (h : start c = .ok s) : s.OnTerms c := by
  obtain ⟨p, hp, rfl⟩ := start_eq_ok_iff.1 h
  exact ⟨rfl, Pool.wellFormed_of_ofConfig hp, Pool.assetCount_of_ofConfig hp, List.forall_mem_nil _⟩

theorem onTerms_after (h : start c = .ok s) (steps : List Step) : (s.after steps).OnTerms c :=
  after_of_effect (P := OnTerms c) (fun heffect hs => hs.of_effect heffect) (onTerms_of_start h)
    steps

/-! ## The supply -/

/-- The pool can always be rebuilt, and is then as it was at first. -/
theorem step_reset (h : start c = .ok s) (ht : t.config = c) :
    t.step .reset = (.ok .done, t.withPool s.pool) := by
  obtain ⟨p, hp, rfl⟩ := start_eq_ok_iff.1 h
  apply step_of_attempt
  rw [attempt, ht]
  exact moves_eq_ok_iff.2 ⟨(), p, by rw [hp]; rfl, rfl, rfl⟩

theorem step_setSupply (t : Session) (supply : Amount) :
    t.step (.setSupply supply) = (.ok .done, t.withPool (t.pool.withSupply supply)) := rfl

theorem supply_of_ofConfig {p : Pool} (h : Pool.ofConfig c = .ok p) : p.supply = c.supply := by
  simp only [Pool.ofConfig, bind_eq_ok_iff, pure, Except.pure, Except.ok.injEq] at h
  obtain ⟨_, _, balances, _, rfl⟩ := h
  rfl

theorem supply_of_effect (h : Effect s st answer s') :
    s'.pool.supply = st.supply s.config s.pool.supply := by
  cases h with
  | read h => cases st <;> first | rfl | cases h
  | reset hp => exact supply_of_ofConfig hp
  | setSupply | exchange | deposit | withdraw | withdrawImbalanced => rfl
  | commitRedemption | redeem => rfl
  | @quoteRedemption _ _ name =>
    cases name with
    | none => rfl
    | some name => rfl

/-- The two steps that set the supply are never refused. -/
theorem supply_of_step (h : start c = .ok s) (ht : t.OnTerms c) (st : Step) :
    (t.step st).2.pool.supply = st.supply c t.pool.supply := by
  cases hanswer : (t.step st).1 with
  | ok answer =>
    rw [supply_of_effect (effect_of_step hanswer), ht.config]
  | error e =>
    rw [step_of_refused hanswer]
    cases st with
    | setSupply supply => cases hanswer
    | reset =>
      rw [step_reset h ht.config] at hanswer
      cases hanswer
    | _ => rfl

theorem supply_after (h : start c = .ok s) (ht : t.OnTerms c) (steps : List Step) :
    (t.after steps).pool.supply = steps.foldl (Step.supply c) t.pool.supply := by
  induction steps generalizing t with
  | nil => rfl
  | cons st steps ih =>
    have hnext : (t.step st).2.OnTerms c :=
      after_of_effect (P := OnTerms c) (fun heffect hs => hs.of_effect heffect) ht [st]
    rw [after_cons, List.foldl_cons, ih hnext, supply_of_step h ht]

/-! ## Trials -/

/-- A step that moves the pool on to what its outcome says, beside the step that asks for the
    outcome. -/
theorem step_of_asks {α : Type} {wrap : α → Answer} {outcome : Except PoolError α}
    {balances : α → List Amount} {preview : Step}
    (hpreview : t.attempt preview = t.asks wrap outcome)
    (hst : t.attempt st =
      t.moves wrap do let o ← outcome; return (o, t.pool.withBalances (balances o)))
    (hbalances : ∀ o, (wrap o).balances? = some (balances o)) :
    t.step preview = ((t.step st).1, t) ∧
      ∀ answer, (t.step st).1 = .ok answer → ∃ bs, answer.balances? = some bs ∧
        (t.step st).2 = t.withPool (t.pool.withBalances bs) := by
  cases outcome with
  | error e =>
    rw [step_of_attempt_error hpreview, step_of_attempt_error hst]
    refine ⟨rfl, ?_⟩
    intro answer h
    cases h
  | ok o =>
    rw [step_of_attempt hpreview, step_of_attempt hst]
    refine ⟨rfl, ?_⟩
    intro answer h
    cases h
    exact ⟨balances o, hbalances o, rfl⟩

/-- A step that can be tried out answers what its trial answers, and moves the pool on to the
    balances of that answer. -/
theorem step_of_preview {preview : Step} (h : st.preview? = some preview) :
    t.step preview = ((t.step st).1, t) ∧
      ∀ answer, (t.step st).1 = .ok answer → ∃ bs, answer.balances? = some bs ∧
        (t.step st).2 = t.withPool (t.pool.withBalances bs) := by
  cases st with
  | exchange | deposit | withdraw | withdrawImbalanced =>
    cases h
    exact step_of_asks rfl rfl fun _ => rfl
  | redeem shares i =>
    cases h
    have hbalances : ∀ q, (Answer.redemption q).balances? = some q.balancesAfter := fun _ => rfl
    refine step_of_asks rfl ?_ hbalances
    rw [attempt, Pool.redeem_eq]
  | _ => cases h

/-! ## Everything that can be asked -/

theorem step_quoteRedemption_pool (t : Session) (shares : Amount) (i : ℕ) (name : Option String) :
    (t.step (.quoteRedemption shares i name)).2.pool = t.pool := by
  cases hanswer : (t.step (.quoteRedemption shares i name)).1 with
  | error e => rw [step_of_refused hanswer]
  | ok answer =>
    have heffect := effect_of_step hanswer
    generalize (t.step (.quoteRedemption shares i name)).2 = t' at heffect ⊢
    cases heffect with
    | read h => cases h
    | quoteRedemption => cases name <;> rfl

theorem step_of_reads (h : st.reads = true) : (t.step st).2 = t := by
  cases hanswer : (t.step st).1 with
  | error e => exact step_of_refused hanswer
  | ok answer =>
    have heffect := effect_of_step hanswer
    generalize (t.step st).2 = t' at heffect ⊢
    cases heffect <;> first | rfl | cases h

/-- What a session keeps, along every run from its start, with refused steps in between or not. The
    pool is well-formed, that is, it has one balance and one positive rate for each of at least two
    assets, and no fee takes more than all; it has the assets, the amplification, the rates and the
    fees of its configuration, and the supply that was set last. From there, whatever is asked: a
    step that is refused changes nothing; a step that can be tried out answers, or is refused, as
    its trial, which changes nothing, and if it answers moves the pool on to the balances of
    its answer; a step that reads changes nothing, and a quote does not change the pool; a saved
    quote is carried out, which pays what it says and moves the pool on to the balances it says, or
    is refused as stale; a new supply changes the supply alone; and the pool can always be rebuilt
    as it was at first. -/
theorem run_keeps_frame (hstart : start c = .ok s) (steps : List Step) (ht : s.after steps = t) :
    t.pool.WellFormed ∧
    t.pool.assetCount = c.assetCount.val ∧
    t.pool.amplification = c.amplification ∧
    t.pool.rates = c.rates ∧
    t.pool.fees = c.fees ∧
    t.pool.supply = steps.foldl (Step.supply c) c.supply ∧
    (∀ st e, (t.step st).1 = .error e → (t.step st).2 = t) ∧
    (∀ st preview, st.preview? = some preview → t.step preview = ((t.step st).1, t) ∧
      ∀ answer, (t.step st).1 = .ok answer → ∃ balances, answer.balances? = some balances ∧
        (t.step st).2 = t.withPool (t.pool.withBalances balances)) ∧
    (∀ st, st.reads = true → (t.step st).2 = t) ∧
    (∀ shares i name, (t.step (.quoteRedemption shares i name)).2.pool = t.pool) ∧
    (∀ name q, t.saved name = .ok q →
      (t.pool.balances = q.balancesBefore ∧ t.step (.commitRedemption name) =
          (.ok (.amount q.amount), t.withPool (t.pool.withBalances q.balancesAfter))) ∨
        (t.pool.balances ≠ q.balancesBefore ∧
          t.step (.commitRedemption name) = (.error .staleQuote, t))) ∧
    (∀ supply, t.step (.setSupply supply) =
      (.ok .done, t.withPool (t.pool.withSupply supply))) ∧
    t.step .reset = (.ok .done, t.withPool s.pool) := by
  subst ht
  have hterms := onTerms_after hstart steps
  obtain ⟨hfollows, hconfig⟩ := follows_after (follows_of_start hstart) steps
  obtain ⟨hamplification, hrates, hfees⟩ := hfollows
  rw [hterms.config] at hamplification hrates hfees
  have hsupply : s.pool.supply = c.supply := by
    obtain ⟨p, hp, rfl⟩ := start_eq_ok_iff.1 hstart
    exact supply_of_ofConfig hp
  refine ⟨hterms.wellFormed, hterms.assetCount, hamplification, hrates, hfees, ?_,
    fun st e => step_of_refused, fun st preview => step_of_preview, fun st => step_of_reads,
    step_quoteRedemption_pool _, fun name q => step_commitRedemption, step_setSupply _,
    step_reset hstart hterms.config⟩
  rw [supply_after hstart (onTerms_of_start hstart), hsupply]

open Pool (evenConfig evenPair evenQuote)

/-- The session with the quote, once an exchange has moved the balances and fewer shares are
    outstanding. -/
def evenMoved : Session :=
  evenQuoted.withPool ((evenPair.withBalances [15, 6]).withSupply 12)

/-- What a deposit of 3 of each asset comes to there. -/
def evenDeposit : Deposit where
  minted := 3
  fees := [0, 0]
  invariantBefore := 20976686344729530029415372
  invariantAfter := 26983322867159051186548542
  balances := [18, 9]

theorem after_evenSession : evenSession.after
    [.quoteRedemption 6 0 (some "q"), .exchange 0 1 5, .setSupply 12] = evenMoved := by
  decide +kernel

theorem deposit_evenMoved : (evenMoved.step (.deposit [3, 3])).1 = .ok (.deposit evenDeposit) := by
  decide +kernel

/-- After that run the quote is refused, a deposit is what its trial says, and the pool can be
    rebuilt with all of its shares. -/
theorem run_keeps_frame_evenSession :
    start evenConfig = .ok evenSession ∧
      evenSession.after [.quoteRedemption 6 0 (some "q"), .exchange 0 1 5, .setSupply 12] =
        evenMoved ∧
      evenMoved.pool.WellFormed ∧
      evenMoved.pool.assetCount = 2 ∧
      evenMoved.pool.supply = 12 ∧
      evenMoved.step (.commitRedemption "q") = (.error .staleQuote, evenMoved) ∧
      evenMoved.step (.previewDeposit [3, 3]) = (.ok (.deposit evenDeposit), evenMoved) ∧
      (evenMoved.step (.deposit [3, 3])).2 =
        evenMoved.withPool (evenMoved.pool.withBalances [18, 9]) ∧
      evenMoved.step .reset = (.ok .done, evenMoved.withPool evenPair) := by
  have hsaved : evenMoved.saved "q" = .ok evenQuote := by decide
  have hmoved : evenMoved.pool.balances ≠ evenQuote.balancesBefore := by decide
  obtain ⟨hwellFormed, hcount, -, -, -, hsupply, -, hpreview, -, -, hcommit, -, hreset⟩ :=
    run_keeps_frame start_evenConfig _ after_evenSession
  obtain ⟨htrial, hdeposit⟩ := hpreview (.deposit [3, 3]) (.previewDeposit [3, 3]) rfl
  rw [deposit_evenMoved] at htrial
  obtain ⟨balances, hbalances, hleft⟩ := hdeposit _ deposit_evenMoved
  cases hbalances
  exact ⟨start_evenConfig, after_evenSession, hwellFormed, hcount, hsupply,
    ((hcommit "q" evenQuote hsaved).resolve_left fun h => hmoved h.1).2, htrial, hleft, hreset⟩

end Session

end StableSwap
