import StableSwap.Proofs.Redemption.Value
import StableSwap.Proofs.Session.Effect

/-!
# Quotes carried out later

Whatever happens between a quote and its commit, the commit compares the balances and
nothing else. The terms of the pool cannot have changed, since no step changes them, so
that the pool that carries out a quote is the one that gave it but for the supply. With
the supply of that time it would give the same quote again; with another supply it may
give a different one, and carries out the old one all the same.

Main statements:

* `pool_of_same_balances`: what may have changed of a pool that is back at its balances.
* `commit_current_up_to_supply`: a quote that is carried out is current up to the supply,
  and one that is not is refused as stale and changes nothing.
* `commit_of_outdated_quote`: a quote carried out after the pool would quote another.
-/

namespace StableSwap.Session

variable {s quoted kept now : Session}

/-! ## The pool after a run -/

/-- Two pools of one configuration that hold the same balances differ in the supply only. -/
theorem Follows.pool_eq (hquoted : quoted.Follows) (hnow : now.Follows)
    (hconfig : now.config = quoted.config) (hbalances : now.pool.balances = quoted.pool.balances) :
    now.pool = quoted.pool.withSupply now.pool.supply := by
  obtain ⟨hamplification, hrates, hfees⟩ := hquoted
  obtain ⟨hamplification', hrates', hfees'⟩ := hnow
  rw [hconfig] at hamplification' hrates' hfees'
  rw [Pool.withSupply, hamplification, hrates, hfees, ← hamplification', ← hrates', ← hfees',
    ← hbalances]

/-- After any run a pool that holds the balances it held at an earlier time differs from what it
    was then in the supply only. -/
theorem pool_of_same_balances (hs : s.Follows) (before later : List Step)
    (hbalances : (s.after (before ++ later)).pool.balances = (s.after before).pool.balances) :
    (s.after (before ++ later)).pool =
      (s.after before).pool.withSupply (s.after (before ++ later)).pool.supply := by
  obtain ⟨hquoted, hconfig⟩ := follows_after hs before
  obtain ⟨hnow, hconfig'⟩ := follows_after hs (before ++ later)
  exact hquoted.pool_eq hnow (hconfig'.trans hconfig.symm) hbalances

/-! ## The commit -/

/-- Committing a saved quote carries it out or is refused, as its balances say. -/
theorem step_commitRedemption {name : String} {q : RedemptionQuote} (h : now.saved name = .ok q) :
    (now.pool.balances = q.balancesBefore ∧ now.step (.commitRedemption name) =
        (.ok (.amount q.amount), now.withPool (now.pool.withBalances q.balancesAfter))) ∨
      (now.pool.balances ≠ q.balancesBefore ∧
        now.step (.commitRedemption name) = (.error .staleQuote, now)) := by
  by_cases hbalances : now.pool.balances = q.balancesBefore
  · refine .inl ⟨hbalances, step_of_attempt (moves_eq_ok_iff.2 ⟨q.amount, _, ?_, rfl, rfl⟩)⟩
    rw [bind_eq_ok_iff]
    exact ⟨q, h, Pool.commitRedemption_eq_ok_iff.2 ⟨hbalances, rfl, rfl⟩⟩
  · refine .inr ⟨hbalances, step_of_attempt_error (bind_eq_error_iff.2 (.inl ?_))⟩
    rw [bind_eq_error_iff]
    exact .inr ⟨q, h, Pool.commitRedemption_eq_error_iff.2 ⟨hbalances, rfl⟩⟩

/-- A committed quote is current up to the supply. Let a session run on in any way after a quote
    was taken. If the quote is then carried out, the balances are those it was made for, it
    pays and leaves what it says, and with the supply at which it was taken the pool would give
    it again. The pool itself would, if it has the shares and they lower the invariant by as much
    as they did; so it would if the supply is still the same. If the quote is not carried out, the
    balances are not those it was made for, it is refused as stale, and nothing changes. -/
theorem commit_current_up_to_supply {c : Config} (hstart : start c = .ok s)
    (before later : List Step) {shares : Amount} {i : ℕ} {name : Option String}
    {q : RedemptionQuote} (hquoted : s.after before = quoted)
    (hquote : quoted.step (.quoteRedemption shares i name) = (.ok (.redemption q), kept))
    (hnow : kept.after later = now) :
    (∀ amount p', now.pool.commitRedemption q = .ok (amount, p') →
      now.pool.balances = q.balancesBefore ∧ amount = q.amount ∧
        p' = now.pool.withBalances q.balancesAfter ∧
        (now.pool.withSupply quoted.pool.supply).quoteRedemption q.shares q.asset = .ok q ∧
        (now.pool.supply = quoted.pool.supply →
          now.pool.quoteRedemption q.shares q.asset = .ok q) ∧
        (q.shares.val ≤ now.pool.supply.val →
          (∀ d, now.pool.invariant = .ok d → q.shares.val * d.val / now.pool.supply.val =
            q.shares.val * d.val / quoted.pool.supply.val) →
          now.pool.quoteRedemption q.shares q.asset = .ok q)) ∧
    (∀ e, now.pool.commitRedemption q = .error e →
      now.pool.balances ≠ q.balancesBefore ∧ e = .staleQuote) ∧
    ∀ saveName, now.saved saveName = .ok q →
      (now.pool.balances = q.balancesBefore ∧ now.step (.commitRedemption saveName) =
          (.ok (.amount q.amount), now.withPool (now.pool.withBalances q.balancesAfter))) ∨
        (now.pool.balances ≠ q.balancesBefore ∧
          now.step (.commitRedemption saveName) = (.error .staleQuote, now)) := by
  have hq : quoted.pool.quoteRedemption shares i = .ok q := by
    cases effect_of_step_eq hquote with
    | read h => cases h
    | quoteRedemption h => exact h
  obtain ⟨rfl, rfl, hbefore⟩ := Pool.quoteRedemption_remembers hq
  refine ⟨?_, fun e => Pool.commitRedemption_eq_error_iff.1, fun _ => step_commitRedemption⟩
  intro amount p' hcommit
  obtain ⟨hbalances, hamount, hp'⟩ := Pool.commitRedemption_eq_ok_iff.1 hcommit
  have hrun : now = s.after (before ++ .quoteRedemption q.shares q.asset name :: later) := by
    rw [after_append, hquoted, after_cons, hquote, hnow]
  have hpool : now.pool = quoted.pool.withSupply now.pool.supply := by
    rw [hbefore] at hbalances
    subst hrun hquoted
    exact pool_of_same_balances (follows_of_start hstart) _ _ hbalances
  have hthen : now.pool.withSupply quoted.pool.supply = quoted.pool := by rw [hpool]; rfl
  refine ⟨hbalances, hamount, hp', by rw [hthen]; exact hq, ?_, ?_⟩
  · intro hsupply
    rw [← hsupply] at hthen
    have hsame : now.pool = quoted.pool := hthen
    rw [hsame]
    exact hq
  · intro hle hlowered
    have hinvariant : quoted.pool.invariant = now.pool.invariant := by rw [← hthen]; rfl
    rw [hpool]
    refine Pool.quoteRedemption_withSupply hq hle fun d hd => ?_
    exact hlowered d (by rw [← hinvariant]; exact hd)

/-! ## A quote to look at -/

open Pool (evenConfig evenPair evenQuote)

/-- A session with two assets in equal parts and 20 shares. -/
def evenSession : Session where
  config := evenConfig
  pool := evenPair
  quotes := []

/-- The session in which the quote for 6 of the shares was saved. -/
def evenQuoted : Session := { evenSession with quotes := [("q", evenQuote)] }

theorem start_evenConfig : start evenConfig = .ok evenSession := by
  decide +kernel

theorem quote_evenSession : evenSession.step (.quoteRedemption 6 0 (some "q")) =
    (.ok (.redemption evenQuote), evenQuoted) := by
  decide +kernel

/-- Once fewer shares are outstanding the same shares stand for more, but the quote of before is
    still carried out. -/
theorem commit_of_outdated_quote :
    start evenConfig = .ok evenSession ∧
      evenSession.step (.quoteRedemption 6 0 (some "q")) =
        (.ok (.redemption evenQuote), evenQuoted) ∧
      ∃ (now : Session) (p' : Pool) (other : RedemptionQuote),
        evenQuoted.after [.setSupply 12] = now ∧
        now.pool.commitRedemption evenQuote = .ok (5, p') ∧
        now.pool.quoteRedemption evenQuote.shares evenQuote.asset = .ok other ∧
        other.amount = 9 ∧ other ≠ evenQuote := by
  let other : RedemptionQuote := { evenQuote with amount := 9, balancesAfter := [0, 9] }
  refine ⟨start_evenConfig, quote_evenSession, evenQuoted.withPool (evenPair.withSupply 12),
    (evenPair.withSupply 12).withBalances [4, 9], other, rfl, by decide, ?_, rfl, by decide⟩
  decide +kernel

/-- An exchange makes the quote stale; after the pool is rebuilt it is carried out, whatever the
    supply is then. -/
theorem commit_current_up_to_supply_evenPair :
    (evenQuoted.after [.exchange 0 1 5]).step (.commitRedemption "q") =
        (.error .staleQuote, evenQuoted.after [.exchange 0 1 5]) ∧
      ∃ now : Session,
        evenQuoted.after [.exchange 0 1 5, .commitRedemption "q", .reset, .setSupply 12] = now ∧
        now.pool.supply = 12 ∧
        now.pool.commitRedemption evenQuote = .ok (5, now.pool.withBalances [4, 9]) ∧
        (now.pool.withSupply 20).quoteRedemption 6 0 = .ok evenQuote := by
  constructor
  · have hsaved : (evenQuoted.after [.exchange 0 1 5]).saved "q" = .ok evenQuote := by
      decide +kernel
    have hmoved :
        (evenQuoted.after [.exchange 0 1 5]).pool.balances ≠ evenQuote.balancesBefore := by
      decide +kernel
    obtain ⟨-, -, hstep⟩ := commit_current_up_to_supply start_evenConfig [] [.exchange 0 1 5] rfl
      quote_evenSession rfl
    exact ((hstep "q" hsaved).resolve_left fun h => hmoved h.1).2
  · have hnow : evenQuoted.after [.exchange 0 1 5, .commitRedemption "q", .reset, .setSupply 12] =
        evenQuoted.withPool (evenPair.withSupply 12) := by
      decide +kernel
    have hcommit : (evenPair.withSupply 12).commitRedemption evenQuote =
        .ok (5, (evenPair.withSupply 12).withBalances [4, 9]) := by
      decide
    obtain ⟨hresult, -, -⟩ := commit_current_up_to_supply start_evenConfig [] _ rfl
      quote_evenSession hnow
    obtain ⟨-, -, -, hquote, -⟩ := hresult _ _ hcommit
    exact ⟨_, hnow, rfl, hcommit, hquote⟩

end StableSwap.Session
