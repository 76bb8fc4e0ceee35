import StableSwap.Proofs.Shares.Issue
import Mathlib.Logic.Relation

/-!
# Runs of deposits and withdrawals

The owner of a pool follows every deposit and every withdrawal in named amounts
by a new supply: what was outstanding, with the shares that the operation issues
or without the shares that it retires. Along a run of such steps a share never
comes to stand for less.

Main statements:

* `ShareStep.sharesKeep`: one step leaves a share its worth.
* `sharesKeep_of_run`: a run does.
* `shares_never_diluted`: the first deposit sets the worth of a share, and no run
  lowers it.
-/

namespace StableSwap.Pool

open Relation (ReflTransGen)

/-- A deposit or a withdrawal in named amounts, followed by the supply that belongs to it. -/
inductive ShareStep : Pool → Pool → Prop
  | deposit {p p' : Pool} {amounts : List Amount} {o : Deposit} {supply : Amount}
      (h : p.deposit amounts = .ok (o, p')) (hsupply : supply.val = p.supply.val + o.minted.val) :
      ShareStep p (p'.withSupply supply)
  | withdraw {p p' : Pool} {amounts : List Amount} {o : ImbalancedWithdrawal} {supply : Amount}
      (h : p.withdrawImbalanced amounts = .ok (o, p'))
      (hsupply : supply.val + o.burned.val = p.supply.val) (hpos : 0 < supply.val) :
      ShareStep p (p'.withSupply supply)

variable {p q : Pool}

/-! ## One step -/

theorem ShareStep.supply_pos (h : ShareStep p q) (hpos : 0 < p.supply.val) :
    0 < q.supply.val := by
  cases h with
  | deposit h hsupply =>
    show 0 < _
    rw [withSupply, hsupply]
    exact Nat.add_pos_left hpos _
  | withdraw h hsupply hrest => exact hrest

/-- A step leaves a share its worth. -/
theorem ShareStep.sharesKeep (h : ShareStep p q) (hpos : 0 < p.supply.val) : SharesKeep p q := by
  cases h with
  | deposit h hsupply => exact sharesKeep_of_deposit h hpos hsupply
  | withdraw h hsupply hrest => exact sharesKeep_of_withdrawImbalanced h hsupply

/-! ## Runs -/

theorem supply_pos_of_run (h : ReflTransGen ShareStep p q) (hpos : 0 < p.supply.val) :
    0 < q.supply.val := by
  induction h with
  | refl => exact hpos
  | tail _ hstep ih => exact hstep.supply_pos ih

/-- A run that makes a step leaves a share its worth. A pool whose invariant cannot be computed
    makes none. -/
theorem sharesKeep_of_run (h : ReflTransGen ShareStep p q) (hpos : 0 < p.supply.val) :
    p = q ∨ SharesKeep p q := by
  induction h with
  | refl => exact .inl rfl
  | tail hrun hstep ih =>
    have hmiddle := supply_pos_of_run hrun hpos
    have hkeep := hstep.sharesKeep hmiddle
    rcases ih with rfl | hbefore
    · exact .inr hkeep
    · exact .inr (hbefore.trans hkeep hmiddle)

theorem invariant_le_of_run (h : ReflTransGen ShareStep p q) (hpos : 0 < p.supply.val)
    {d e : Amount} (hd : p.invariant = .ok d) (he : q.invariant = .ok e) :
    d.val * q.supply.val ≤ e.val * p.supply.val := by
  rcases sharesKeep_of_run h hpos with rfl | ⟨d', e', hd', he', hle⟩
  · obtain rfl : d = e := eq_of_eq_ok hd he
    exact le_rfl
  · obtain rfl : d = d' := eq_of_eq_ok hd hd'
    obtain rfl : e = e' := eq_of_eq_ok he he'
    exact hle

theorem virtualPrice_le_of_run (h : ReflTransGen ShareStep p q) (hpos : 0 < p.supply.val)
    {v w : Amount} (hv : p.virtualPrice = .ok v) (hw : q.virtualPrice = .ok w) :
    v.val ≤ w.val := by
  rcases sharesKeep_of_run h hpos with rfl | hkeep
  · obtain rfl : v = w := eq_of_eq_ok hv hw
    exact le_rfl
  · exact hkeep.virtualPrice_le hv hw

/-! ## The first deposit -/

/-- The first deposit into a well-formed pool earns shares, and a share is then worth one common
    unit. -/
theorem virtualPrice_of_seed (hp : p.WellFormed) (hzero : p.supply.val = 0) {p' : Pool}
    {amounts : List Amount} {o : Deposit} (h : p.deposit amounts = .ok (o, p')) :
    0 < o.minted.val ∧ (p'.withSupply o.minted).virtualPrice = .ok Amount.unit := by
  obtain ⟨hpreview, rfl⟩ := deposit_eq_ok_iff.1 h
  obtain ⟨hminted, hfunded⟩ := minted_of_seed hpreview hzero
  have hpos := hp.invariant_pos_of_pos hminted hfunded
  refine ⟨hpos, virtualPrice_eq_ok_iff.2 ⟨hpos, o.minted, hminted, ?_⟩⟩
  exact (Nat.mul_div_cancel_left _ hpos).symm

/-! ## Both together -/

/-- Neither deposits nor withdrawals in named amounts take anything from the holders of shares.
    The first deposit earns shares that are worth one common unit each; along every run from a
    pool with shares, the exact worth `D / supply` of a share does not fall with any step, nor
    from the first pool to the last, and the virtual price does not fall where it can be
    computed. -/
theorem shares_never_diluted :
    (∀ {p p' : Pool} {amounts : List Amount} {o : Deposit}, p.WellFormed → p.supply.val = 0 →
      p.deposit amounts = .ok (o, p') →
        0 < o.minted.val ∧ (p'.withSupply o.minted).virtualPrice = .ok Amount.unit) ∧
    ∀ {p q : Pool}, 0 < p.supply.val → ReflTransGen ShareStep p q →
      (∀ r, ShareStep q r → ∃ d e : Amount, q.invariant = .ok d ∧ r.invariant = .ok e ∧
        d.val * r.supply.val ≤ e.val * q.supply.val) ∧
      (∀ d e : Amount, p.invariant = .ok d → q.invariant = .ok e →
        d.val * q.supply.val ≤ e.val * p.supply.val) ∧
      ∀ v w : Amount, p.virtualPrice = .ok v → q.virtualPrice = .ok w → v.val ≤ w.val := by
  constructor
  · intro p p' amounts o hp hzero h
    exact virtualPrice_of_seed hp hzero h
  · intro p q hpos hrun
    refine ⟨?_, ?_, ?_⟩
    · intro r hstep
      exact hstep.sharesKeep (supply_pos_of_run hrun hpos)
    · intro d e hd he
      exact invariant_le_of_run hrun hpos hd he
    · intro v w hv hw
      exact virtualPrice_le_of_run hrun hpos hv hw

/-! ## A run to look at -/

/-- A pool before its first deposit. -/
def emptyPair : Pool where
  amplification := 100
  balances := [0, 0]
  rates := [1, 1]
  fees := .standard
  supply := 0

theorem wellFormed_emptyPair : emptyPair.WellFormed where
  two_le := by decide
  length_rates := by decide
  rates_pos := by decide
  trade_valid := by decide
  withdraw_valid := by decide

/-- The outcome of depositing a million of both assets. -/
def pairSeed : Deposit where
  minted := 2000000
  fees := [0, 0]
  invariantBefore := 0
  invariantAfter := 2000000
  balances := [1000000, 1000000]

/-- The pool after that deposit, with the shares that it issues. -/
def seededPair : Pool := (emptyPair.withBalances pairSeed.balances).withSupply pairSeed.minted

/-- The outcome of a deposit that favours the first asset. -/
def pairAddition : Deposit where
  minted := 599609
  fees := [40, 39]
  invariantBefore := 2000000
  invariantAfter := 2599609
  balances := [1499960, 1099961]

def grownPair : Pool :=
  (seededPair.withBalances pairAddition.balances).withSupply 2599609

/-- The outcome of a withdrawal that takes more of the second asset. -/
def pairWithdrawal : ImbalancedWithdrawal where
  burned := 250399
  amounts := [50000, 200000]
  fees := [18, 18]
  invariantBefore := 2599609
  invariantAfter := 2349211
  balances := [1449942, 899943]

def shrunkPair : Pool :=
  (grownPair.withBalances pairWithdrawal.balances).withSupply 2349210

theorem run_pair : ReflTransGen ShareStep seededPair shrunkPair := by
  have hdeposit : seededPair.deposit [500000, 100000] =
      .ok (pairAddition, seededPair.withBalances pairAddition.balances) := by
    decide +kernel
  have hwithdraw : grownPair.withdrawImbalanced pairWithdrawal.amounts =
      .ok (pairWithdrawal, grownPair.withBalances pairWithdrawal.balances) := by
    decide +kernel
  have hgrow : ShareStep seededPair grownPair := .deposit hdeposit rfl
  have hshrink : ShareStep grownPair shrunkPair := .withdraw hwithdraw rfl (by decide)
  exact .tail (.single hgrow) hshrink

theorem shares_never_diluted_pair :
    (0 < pairSeed.minted.val ∧ seededPair.virtualPrice = .ok Amount.unit) ∧
    (∀ r, ShareStep shrunkPair r → ∃ d e : Amount, shrunkPair.invariant = .ok d ∧
      r.invariant = .ok e ∧ d.val * r.supply.val ≤ e.val * shrunkPair.supply.val) ∧
    (∀ d e : Amount, seededPair.invariant = .ok d → shrunkPair.invariant = .ok e →
      d.val * shrunkPair.supply.val ≤ e.val * seededPair.supply.val) ∧
    ∀ v w : Amount, seededPair.virtualPrice = .ok v → shrunkPair.virtualPrice = .ok w →
      v.val ≤ w.val := by
  have hseed : emptyPair.deposit pairSeed.balances =
      .ok (pairSeed, emptyPair.withBalances pairSeed.balances) := by
    decide +kernel
  exact ⟨shares_never_diluted.1 wellFormed_emptyPair rfl hseed,
    shares_never_diluted.2 (by decide) run_pair⟩

end StableSwap.Pool
