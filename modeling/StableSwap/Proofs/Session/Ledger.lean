import StableSwap.Proofs.Session.Commit

/-!
# The books of a session

For each asset the books of a run record what the pool took in, what it paid out, and
what it charged on deposits and on withdrawals in named amounts. A step that answers
moves the balance by exactly what it reports, but for a redemption: that writes back
balances rounded down, and so may lose something beside what it pays. A refused step
moves nothing. A quote that is carried out pays from the balances it was made for, so
that nothing is paid twice from the same balances.

Main statements:

* `Effect.entry_exact`, `Effect.entry_covers`: one step against the books.
* `entry_after`: a run against the books.
* `restored_of_paid_twice`: what a quote pays a second time was taken in again before.
* `run_solvent`: all of this for the runs from the start of a session.
-/

namespace StableSwap

/-- What moved of one asset. -/
structure Account where
  /-- What deposits and exchanges brought in. -/
  received : ℕ
  /-- What exchanges, withdrawals and redemptions paid out. -/
  paid : ℕ
  /-- The fees on deposits and on withdrawals in named amounts. -/
  charged : ℕ
  deriving DecidableEq, Repr

namespace Account

instance : Zero Account := ⟨⟨0, 0, 0⟩⟩

instance : Add Account :=
  ⟨fun a b => ⟨a.received + b.received, a.paid + b.paid, a.charged + b.charged⟩⟩

variable {a b : Account} {x y z : ℕ}

@[simp] theorem add_received : (a + b).received = a.received + b.received := rfl

@[simp] theorem add_paid : (a + b).paid = a.paid + b.paid := rfl

@[simp] theorem add_charged : (a + b).charged = a.charged + b.charged := rfl

/-- The books show at least what has left the balance. -/
def Covers (a : Account) (before after : ℕ) : Prop :=
  after + a.paid + a.charged ≤ before + a.received

/-- The books show exactly what the balance has moved by. -/
def Exact (a : Account) (before after : ℕ) : Prop :=
  after + a.paid + a.charged = before + a.received

theorem exact_zero (x : ℕ) : (0 : Account).Exact x x := rfl

theorem Exact.covers (h : a.Exact x y) : a.Covers x y := Nat.le_of_eq h

theorem Covers.add (ha : a.Covers x y) (hb : b.Covers y z) : (a + b).Covers x z := by
  unfold Covers at ha hb ⊢
  rw [add_received, add_paid, add_charged]
  omega

theorem Exact.add (ha : a.Exact x y) (hb : b.Exact y z) : (a + b).Exact x z := by
  unfold Exact at ha hb ⊢
  rw [add_received, add_paid, add_charged]
  omega

end Account

/-- The step redeems shares in one asset, by itself or by a quote. -/
def Step.redeems : Step → Bool
  | .commitRedemption _ | .redeem .. => true
  | _ => false

namespace Session

open Pool (entry)

/-- What a step that answers moves of asset `k`. -/
def movement (s : Session) (k : ℕ) : Step → Answer → Account
  | .exchange i j dx, .exchange e =>
    ⟨if k = i then dx.val else 0, if k = j then e.amountOut.val else 0, 0⟩
  | .deposit amounts, .deposit o => ⟨(entry amounts k).val, 0, (entry o.fees k).val⟩
  | .withdraw _, .withdrawal o => ⟨0, (entry o.amounts k).val, 0⟩
  | .withdrawImbalanced _, .imbalancedWithdrawal o =>
    ⟨0, (entry o.amounts k).val, (entry o.fees k).val⟩
  | .commitRedemption name, .amount a =>
    match s.saved name with
    | .ok q => ⟨0, if k = q.asset then a.val else 0, 0⟩
    | .error _ => 0
  | .redeem _ i, .redemption q => ⟨0, if k = i then q.amount.val else 0, 0⟩
  | _, _ => 0

/-- What a step moves of asset `k`: nothing if it is refused. -/
def booked (s : Session) (k : ℕ) (st : Step) : Account :=
  match (s.step st).1 with
  | .ok answer => s.movement k st answer
  | .error _ => 0

/-- The books of asset `k` for a run. -/
def account (s : Session) (k : ℕ) : List Step → Account
  | [] => 0
  | st :: rest => s.booked k st + account (s.step st).2 k rest

variable {s s' : Session} {st : Step} {answer : Answer} {steps : List Step}

/-! ## Saved quotes -/

/-- Every saved quote was made by a pool. -/
def QuotesMade (s : Session) : Prop :=
  ∀ x ∈ s.quotes, ∃ p : Pool, p.quoteRedemption x.2.shares x.2.asset = .ok x.2

theorem QuotesMade.of_effect (h : Effect s st answer s') (hs : s.QuotesMade) : s'.QuotesMade := by
  cases h with
  | read | reset | setSupply | exchange | deposit | withdraw | withdrawImbalanced
  | commitRedemption | redeem => exact hs
  | @quoteRedemption shares i name q hq =>
    cases name with
    | none => exact hs
    | some name =>
      obtain ⟨rfl, rfl, -⟩ := Pool.quoteRedemption_remembers hq
      exact List.forall_mem_cons.2 ⟨⟨s.pool, hq⟩, hs⟩

theorem quotesMade_after {c : Config} (hstart : start c = .ok s) (steps : List Step) :
    (s.after steps).QuotesMade := by
  refine after_of_effect (P := QuotesMade) (fun h hs => hs.of_effect h) ?_ steps
  simp only [start, bind_eq_ok_iff, pure, Except.pure, Except.ok.injEq] at hstart
  obtain ⟨p, _, rfl⟩ := hstart
  exact List.forall_mem_nil _

/-- The balances for which a saved quote was made cover what it pays and leaves. -/
theorem QuotesMade.entry_of_saved (hs : s.QuotesMade) {name : String} {q : RedemptionQuote}
    (h : s.saved name = .ok q) :
    0 < q.amount.val ∧ ∀ k, (entry q.balancesAfter k).val +
      (if k = q.asset then q.amount.val else 0) ≤ (entry q.balancesBefore k).val := by
  obtain ⟨p, hp⟩ := hs (name, q) (mem_of_saved h)
  rw [(Pool.quoteRedemption_remembers hp).2.2]
  exact Pool.entry_of_quoteRedemption hp

/-! ## One step -/

theorem movement_of_reads (s : Session) (k : ℕ) (h : st.reads = true) (answer : Answer) :
    s.movement k st answer = 0 := by
  cases st <;> first | rfl | cases h

/-- A step that answers moves each balance by exactly what it reports, unless it redeems. -/
theorem Effect.entry_exact (h : Effect s st answer s') (hreset : st ≠ .reset)
    (hredeems : st.redeems = false) (k : ℕ) :
    (s.movement k st answer).Exact (entry s.pool.balances k).val
      (entry s'.pool.balances k).val := by
  cases h with
  | read h =>
    rw [movement_of_reads s k h]
    exact Account.exact_zero _
  | reset => exact absurd rfl hreset
  | setSupply supply => exact Account.exact_zero _
  | exchange h =>
    obtain ⟨t, ht⟩ := Pool.exists_derivation h
    exact ht.entry_balances k
  | deposit h => exact Pool.entry_of_deposit h k
  | withdraw h =>
    obtain ⟨-, -, -, hentry⟩ := Pool.entry_of_withdrawal h
    exact (hentry k).1
  | withdrawImbalanced h =>
    obtain ⟨t, ht⟩ := Pool.previewImbalancedWithdrawal_eq_ok_iff.1 h
    exact ht.entry_balances k
  | @quoteRedemption _ _ name =>
    cases name with
    | none => exact Account.exact_zero _
    | some name => exact Account.exact_zero _
  | commitRedemption => cases hredeems
  | redeem => cases hredeems

/-- A step that answers moves no balance by more than it reports. -/
theorem Effect.entry_covers (h : Effect s st answer s') (hs : s.QuotesMade) (hreset : st ≠ .reset)
    (k : ℕ) :
    (s.movement k st answer).Covers (entry s.pool.balances k).val
      (entry s'.pool.balances k).val := by
  cases hredeems : st.redeems with
  | false => exact (h.entry_exact hreset hredeems k).covers
  | true =>
    cases h with
    | read h =>
      rw [movement_of_reads s k h]
      exact (Account.exact_zero _).covers
    | reset | setSupply | exchange | deposit | withdraw | withdrawImbalanced | quoteRedemption =>
      cases hredeems
    | commitRedemption hsaved hbalances =>
      have hentry := (hs.entry_of_saved hsaved).2 k
      rw [← hbalances] at hentry
      simp only [movement, hsaved]
      exact hentry
    | redeem h => exact (Pool.entry_of_quoteRedemption h).2 k

/-! ## Runs -/

theorem booked_of_ok (k : ℕ) (h : (s.step st).1 = .ok answer) :
    s.booked k st = s.movement k st answer := by
  rw [booked, h]

theorem booked_of_error (k : ℕ) {e : PoolError} (h : (s.step st).1 = .error e) :
    s.booked k st = 0 := by
  rw [booked, h]

/-- The books of a run that does not rebuild the pool cover what has left each balance. If every
    redemption of the run was refused, they are exact. -/
theorem entry_after (hs : s.QuotesMade) (hreset : .reset ∉ steps) (k : ℕ) :
    (s.account k steps).Covers (entry s.pool.balances k).val
        (entry (s.after steps).pool.balances k).val ∧
      ((∀ x ∈ steps.zip (s.run steps), x.1.redeems = true → ∃ e, x.2.1 = .error e) →
        (s.account k steps).Exact (entry s.pool.balances k).val
          (entry (s.after steps).pool.balances k).val) := by
  induction steps generalizing s with
  | nil => exact ⟨(Account.exact_zero _).covers, fun _ => Account.exact_zero _⟩
  | cons st rest ih =>
    obtain ⟨hst, hrest⟩ := not_or.1 (List.mem_cons.not.1 hreset)
    cases hanswer : (s.step st).1 with
    | ok answer =>
      have heffect := effect_of_step hanswer
      obtain ⟨hcovers, hexact⟩ := ih (hs.of_effect heffect) hrest
      rw [account, booked_of_ok k hanswer, after_cons]
      refine ⟨(heffect.entry_covers hs (Ne.symm hst) k).add hcovers, fun hrefused => ?_⟩
      obtain ⟨hfirst, hrefused⟩ := List.forall_mem_cons.1 hrefused
      have hredeems : st.redeems = false := by
        by_contra htrue
        obtain ⟨e, he⟩ := hfirst (Bool.eq_true_of_not_eq_false htrue)
        rw [hanswer] at he
        cases he
      exact (heffect.entry_exact (Ne.symm hst) hredeems k).add (hexact hrefused)
    | error e =>
      have hsame := step_of_refused hanswer
      obtain ⟨hcovers, hexact⟩ := ih hs hrest
      rw [account, booked_of_error k hanswer, after_cons, hsame]
      refine ⟨(Account.exact_zero _).covers.add hcovers, fun hrefused => ?_⟩
      have htail := (List.forall_mem_cons.1 hrefused).2
      rw [hsame] at htail
      exact (Account.exact_zero _).add (hexact htail)

/-! ## Paid twice -/

/-- A quote that was carried out can be carried out again only when the balances are what they were
    the first time. They were not after it was, so that what it pays the second time, with all
    that left the balance in between, was taken in again in between. -/
theorem restored_of_paid_twice {once : Session} {name name' : String} {q : RedemptionQuote}
    {amount again : Answer} (hs : s.QuotesMade) (hsaved : s.saved name = .ok q)
    (hfirst : s.step (.commitRedemption name) = (.ok amount, once)) (hreset : .reset ∉ steps)
    (hsaved' : (once.after steps).saved name' = .ok q)
    (hsecond : ((once.after steps).step (.commitRedemption name')).1 = .ok again) :
    once.pool.balances ≠ s.pool.balances ∧
      (once.after steps).pool.balances = s.pool.balances ∧
      q.amount.val + (once.account q.asset steps).paid + (once.account q.asset steps).charged ≤
        (once.account q.asset steps).received := by
  have honce : once.QuotesMade := hs.of_effect (effect_of_step_eq hfirst)
  obtain ⟨hpos, hentry⟩ := hs.entry_of_saved hsaved
  have hbefore : s.pool.balances = q.balancesBefore ∧ once.pool.balances = q.balancesAfter := by
    rcases step_commitRedemption hsaved with ⟨hbalances, hstep⟩ | ⟨-, hstep⟩
    · rw [hstep] at hfirst
      cases hfirst
      exact ⟨hbalances, rfl⟩
    · rw [hstep] at hfirst
      cases hfirst
  have hagain : (once.after steps).pool.balances = q.balancesBefore := by
    rcases step_commitRedemption hsaved' with ⟨hbalances, -⟩ | ⟨-, hstep⟩
    · exact hbalances
    · rw [hstep] at hsecond
      cases hsecond
  have hpaid := hentry q.asset
  rw [if_pos rfl] at hpaid
  have hcovers := (entry_after honce hreset q.asset).1
  rw [hagain, hbefore.2, Account.Covers] at hcovers
  refine ⟨fun hsame => ?_, hagain.trans hbefore.1.symm, by omega⟩
  rw [hbefore.1, hbefore.2] at hsame
  rw [hsame] at hpaid
  omega

/-- A session never pays out more than it has. Along every run from the start that does not rebuild
    the pool, with refused steps in between or not, the balance of each asset, what was paid out of
    it and the fees charged on it make up at most the first balance and what came in; exactly
    that, if every redemption of the run was refused. A saved quote that is paid a second time
    finds the balances it was paid from the first time, after they had changed and with at least
    its amount taken in again. -/
theorem run_solvent {c : Config} (hstart : start c = .ok s) (steps : List Step)
    (hreset : .reset ∉ steps) :
    (∀ k, (entry (s.after steps).pool.balances k).val + (s.account k steps).paid +
        (s.account k steps).charged ≤
      (entry s.pool.balances k).val + (s.account k steps).received) ∧
    ((∀ x ∈ steps.zip (s.run steps), x.1.redeems = true → ∃ e, x.2.1 = .error e) → ∀ k,
      (entry (s.after steps).pool.balances k).val + (s.account k steps).paid +
          (s.account k steps).charged =
        (entry s.pool.balances k).val + (s.account k steps).received) ∧
    ∀ (first second : List Step) (name name' : String) (q : RedemptionQuote)
      (amount again : Answer) (once : Session),
      steps = first ++ .commitRedemption name :: second →
      (s.after first).saved name = .ok q →
      (s.after first).step (.commitRedemption name) = (.ok amount, once) →
      (s.after steps).saved name' = .ok q →
      ((s.after steps).step (.commitRedemption name')).1 = .ok again →
        once.pool.balances ≠ (s.after first).pool.balances ∧
        (s.after steps).pool.balances = (s.after first).pool.balances ∧
        q.amount.val + (once.account q.asset second).paid +
            (once.account q.asset second).charged ≤
          (once.account q.asset second).received := by
  have hs : s.QuotesMade := quotesMade_after hstart []
  refine ⟨fun k => (entry_after hs hreset k).1,
    fun hrefused k => (entry_after hs hreset k).2 hrefused, ?_⟩
  rintro first second name name' q amount again once rfl hsaved hfirst hsaved' hsecond
  have hrun : s.after (first ++ .commitRedemption name :: second) = once.after second := by
    rw [after_append, after_cons, hfirst]
  rw [hrun] at hsaved' hsecond ⊢
  have hreset' : .reset ∉ second := by
    simp only [List.mem_append, List.mem_cons, not_or] at hreset
    exact hreset.2.2
  exact restored_of_paid_twice (quotesMade_after hstart first) hsaved hfirst hreset' hsaved' hsecond

/-! ## Two runs to look at -/

open Pool (evenQuote)

/-- What brings a pool back to the balances it had before the quote was carried out, with a commit
    in between that is refused. -/
def refill : List Step := [.commitRedemption "q", .deposit [6, 1]]

/-- A run that redeems. -/
def redeemingRun : List Step :=
  .quoteRedemption 6 0 (some "q") :: .commitRedemption "q" :: refill

/-- A run whose only redemption asks for more shares than there are. -/
def plainRun : List Step :=
  [.exchange 0 1 5, .deposit [3, 9], .withdraw 3, .withdrawImbalanced [1, 4], .setSupply 30,
    .redeem 100 0]

theorem refused_plainRun : ∀ x ∈ plainRun.zip (evenSession.run plainRun), x.1.redeems = true →
    x.2.1 = .error .insufficientSupply := by
  decide +kernel

theorem run_solvent_evenSession :
    (∀ k, (entry (evenSession.after redeemingRun).pool.balances k).val +
        (evenSession.account k redeemingRun).paid + (evenSession.account k redeemingRun).charged ≤
      (entry evenSession.pool.balances k).val + (evenSession.account k redeemingRun).received) ∧
    (∀ k, (entry (evenSession.after plainRun).pool.balances k).val +
        (evenSession.account k plainRun).paid + (evenSession.account k plainRun).charged =
      (entry evenSession.pool.balances k).val + (evenSession.account k plainRun).received) ∧
    ∃ once : Session,
      evenQuoted.step (.commitRedemption "q") = (.ok (.amount 5), once) ∧
      ((once.after refill).step (.commitRedemption "q")).1 = .ok (.amount 5) ∧
      once.pool.balances ≠ evenQuoted.pool.balances ∧
      (once.after refill).pool.balances = evenQuoted.pool.balances ∧
      evenQuote.amount.val + (once.account evenQuote.asset refill).paid +
          (once.account evenQuote.asset refill).charged ≤
        (once.account evenQuote.asset refill).received := by
  obtain ⟨hcovers, -, htwice⟩ := run_solvent start_evenConfig redeemingRun (by decide)
  obtain ⟨-, hexact, -⟩ := run_solvent start_evenConfig plainRun (by decide)
  have hfirst : evenQuoted.step (.commitRedemption "q") =
      (.ok (.amount 5), evenQuoted.withPool (evenQuoted.pool.withBalances [4, 9])) := by
    decide +kernel
  have hsaved : (evenSession.after redeemingRun).saved "q" = .ok evenQuote := by decide +kernel
  have hsecond : ((evenSession.after redeemingRun).step (.commitRedemption "q")).1 =
      .ok (.amount 5) := by
    decide +kernel
  have hquoted : evenSession.after [.quoteRedemption 6 0 (some "q")] = evenQuoted := by
    rw [after_cons, quote_evenSession, after_nil]
  have hrun : evenSession.after redeemingRun =
      (evenQuoted.withPool (evenQuoted.pool.withBalances [4, 9])).after refill := by
    rw [redeemingRun, after_cons, quote_evenSession, after_cons, hfirst]
  have hpaid := htwice [.quoteRedemption 6 0 (some "q")] refill "q" "q" evenQuote _ _ _ rfl
    (by rw [hquoted]; rfl) (by rw [hquoted]; exact hfirst) hsaved hsecond
  rw [hrun, hquoted] at hpaid
  refine ⟨hcovers, hexact fun x hx hredeems => ⟨_, refused_plainRun x hx hredeems⟩, _, hfirst, ?_,
    hpaid⟩
  rw [← hrun]
  exact hsecond

end Session

end StableSwap
