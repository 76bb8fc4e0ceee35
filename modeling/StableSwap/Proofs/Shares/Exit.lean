import StableSwap.Proofs.Pool.SharePrice
import StableSwap.Proofs.Shares.Derivation

/-!
# Leaving in parts

Shares may be given up in several steps, each for its part of every balance. Every
step rounds down what it pays, and keeps its fee in the pool for the next one to share
in, so that the payments do not add up to that of a single step. But a step leaves at
least the part of each balance that belongs to the shares that stay, and this carries
over from step to step.

Main statements:

* `withdrawal_keeps_part`: what one step leaves of each balance.
* `exits_keep_part`: what a run of steps leaves.
* `exits_pay_at_most`: however the exit is split, and after each of its steps, no
  more has been paid than the part that the shares given up so far stand for.
-/

namespace StableSwap.Pool

/-- Proportional withdrawals one after the other, each followed by the supply without its
    shares: the outcomes, and the pool after them. -/
def exits (p : Pool) : List Amount → Except PoolError (List Withdrawal × Pool)
  | [] => .ok ([], p)
  | shares :: rest => do
    let (outcome, after) ← p.withdraw shares
    let (outcomes, last) ← exits (after.withSupply (p.supply.monus shares)) rest
    return (outcome :: outcomes, last)

/-- What the withdrawals pay of an asset together. -/
def paid (outcomes : List Withdrawal) (i : ℕ) : ℕ :=
  (outcomes.map fun o => (entry o.amounts i).val).sum

variable {p q : Pool} {shares : Amount} {rest : List Amount} {os : List Withdrawal}

theorem exits_cons_eq_ok_iff :
    p.exits (shares :: rest) = .ok (os, q) ↔
      ∃ o os', os = o :: os' ∧ p.previewWithdrawal shares = .ok o ∧
        ((p.withBalances o.balances).withSupply (p.supply.monus shares)).exits rest =
          .ok (os', q) := by
  simp only [exits, bind_eq_ok_iff, pure, Except.pure, Except.ok.injEq, Prod.mk.injEq]
  constructor
  · rintro ⟨⟨o, p'⟩, ho, ⟨os', q'⟩, hrest, rfl, rfl⟩
    obtain ⟨hpreview, rfl⟩ := withdraw_eq_ok_iff.1 ho
    exact ⟨o, os', rfl, hpreview, hrest⟩
  · rintro ⟨o, os', rfl, hpreview, hrest⟩
    exact ⟨(o, _), withdraw_eq_ok_iff.2 ⟨hpreview, rfl⟩, (os', q), hrest, rfl, rfl⟩

/-- The first steps of a run are a run. -/
theorem exits_take (h : p.exits rest = .ok (os, q)) (t : ℕ) :
    ∃ r, p.exits (rest.take t) = .ok (os.take t, r) := by
  induction rest generalizing p os t with
  | nil =>
    cases h
    exact ⟨q, by simp [exits]⟩
  | cons shares rest ih =>
    obtain ⟨o, os', rfl, ho, hrest⟩ := exits_cons_eq_ok_iff.1 h
    cases t with
    | zero => exact ⟨p, rfl⟩
    | succ t =>
      obtain ⟨r, hr⟩ := ih hrest t
      exact ⟨r, exits_cons_eq_ok_iff.2 ⟨o, _, rfl, ho, hr⟩⟩

/-! ## What is left -/

/-- A withdrawal leaves at least the part of each balance that belongs to the other shares. -/
theorem withdrawal_keeps_part {o : Withdrawal} (h : p.previewWithdrawal shares = .ok o) (i : ℕ) :
    (entry p.balances i).val * (p.supply.monus shares).val ≤
      (entry o.balances i).val * p.supply.val := by
  obtain ⟨hsupply, -, hle, hentry⟩ := entry_of_withdrawal h
  obtain ⟨hrest, hvalue⟩ := hentry i
  have hpaid : (entry o.amounts i).val * p.supply.val ≤ (entry p.balances i).val * shares.val := by
    calc (entry o.amounts i).val * p.supply.val
        ≤ (entry p.balances i).val * shares.val / p.supply.val * p.supply.val :=
          Nat.mul_le_mul_right _ (by omega)
      _ ≤ (entry p.balances i).val * shares.val := Nat.div_mul_le_self _ _
  have hsplit : (entry o.balances i).val * p.supply.val + (entry o.amounts i).val * p.supply.val =
      (entry p.balances i).val * p.supply.val := by
    rw [← Nat.add_mul, hrest]
  rw [Word.val_monus, Nat.mul_sub]
  omega

/-- The part `S' / S` of `b` that is left carries over to the part `S'' / S` if the part
    `S'' / S'` of what is left is. -/
theorem part_trans {b b' b'' S S' S'' : ℕ} (h : b * S' ≤ b' * S) (h' : b' * S'' ≤ b'' * S')
    (hle : S'' ≤ S') : b * S'' ≤ b'' * S := by
  rcases Nat.eq_zero_or_pos S' with rfl | hpos
  · rw [Nat.le_zero.1 hle, Nat.mul_zero]
    exact Nat.zero_le _
  · exact cross_le_trans hpos h h'

/-- Along a run the supply falls by the shares and each balance by what is paid of it, and at
    least the part of the balance that belongs to the shares that stay is left. -/
theorem exits_keep_part (h : p.exits rest = .ok (os, q)) (i : ℕ) :
    q.supply.val + (rest.map (·.val)).sum = p.supply.val ∧
      (entry q.balances i).val + paid os i = (entry p.balances i).val ∧
      (entry p.balances i).val * q.supply.val ≤ (entry q.balances i).val * p.supply.val := by
  induction rest generalizing p os with
  | nil =>
    cases h
    exact ⟨rfl, rfl, Nat.le_refl _⟩
  | cons shares rest ih =>
    obtain ⟨o, os', rfl, ho, hrest⟩ := exits_cons_eq_ok_iff.1 h
    obtain ⟨-, -, hle, hentry⟩ := entry_of_withdrawal ho
    obtain ⟨hsupply, hbalance, hpart⟩ := ih hrest
    have hstep := withdrawal_keeps_part ho i
    change q.supply.val + (rest.map (·.val)).sum = (p.supply.monus shares).val at hsupply
    change (entry q.balances i).val + paid os' i = (entry o.balances i).val at hbalance
    change (entry o.balances i).val * q.supply.val ≤
      (entry q.balances i).val * (p.supply.monus shares).val at hpart
    refine ⟨?_, ?_, part_trans hstep hpart (by omega)⟩
    · rw [List.map_cons, List.sum_cons]
      rw [Word.val_monus] at hsupply
      omega
    · have hfirst := (hentry i).1
      simp only [paid, List.map_cons, List.sum_cons] at hbalance ⊢
      omega

/-! ## What is paid -/

/-- An exit that is split into steps pays no more than its share. After every number of steps, of
    each balance at least the part is left that belongs to the shares that stay, and what has
    been paid of it together is at most the part that the shares given up so far stand for,
    rounded down. -/
theorem exits_pay_at_most (hpos : 0 < p.supply.val) {shares : List Amount}
    (h : p.exits shares = .ok (os, q)) (t i : ℕ) :
    ∃ r, p.exits (shares.take t) = .ok (os.take t, r) ∧
      r.supply.val + ((shares.take t).map (·.val)).sum = p.supply.val ∧
      (entry p.balances i).val * r.supply.val ≤ (entry r.balances i).val * p.supply.val ∧
      paid (os.take t) i ≤
        (entry p.balances i).val * ((shares.take t).map (·.val)).sum / p.supply.val := by
  obtain ⟨r, hr⟩ := exits_take h t
  obtain ⟨hsupply, hbalance, hpart⟩ := exits_keep_part hr i
  refine ⟨r, hr, hsupply, hpart, ?_⟩
  have hwhole := congrArg (· * p.supply.val) hbalance
  have hshares := congrArg ((entry p.balances i).val * ·) hsupply
  simp only [Nat.add_mul, Nat.mul_add] at hwhole hshares
  rw [Nat.le_div_iff_mul_le hpos]
  omega

/-! ## An exit to look at -/

/-- A pool that keeps one part in a hundred of every withdrawal. -/
def leavingPair : Pool where
  amplification := 100
  balances := [1000, 777]
  rates := [1, 1]
  fees := ⟨.zero, ⟨100000000⟩⟩
  supply := 1000

/-- The outcomes of giving up all shares in three steps. At once they would have been paid 990
    of the first asset and 770 of the second. -/
def leavingSteps : List Withdrawal :=
  [{ shares := 100, amounts := [99, 77], fees := [1, 0], balances := [901, 700] },
    { shares := 250, amounts := [248, 193], fees := [2, 1], balances := [653, 507] },
    { shares := 650, amounts := [647, 502], fees := [6, 5], balances := [6, 5] }]

/-- The three steps pay more of the first asset than one step does, but less than its balance. -/
theorem exits_pay_at_most_leavingPair :
    paid leavingSteps 0 = 994 ∧
    ∃ r, leavingPair.exits ([100, 250, 650].take 3) = .ok (leavingSteps.take 3, r) ∧
      r.supply.val + (([100, 250, 650].take 3 : List Amount).map (·.val)).sum =
        leavingPair.supply.val ∧
      (entry leavingPair.balances 0).val * r.supply.val ≤
        (entry r.balances 0).val * leavingPair.supply.val ∧
      paid (leavingSteps.take 3) 0 ≤ (entry leavingPair.balances 0).val *
        (([100, 250, 650].take 3 : List Amount).map (·.val)).sum / leavingPair.supply.val := by
  have h : leavingPair.exits [100, 250, 650] =
      .ok (leavingSteps, (leavingPair.withBalances [6, 5]).withSupply 0) := by
    decide +kernel
  exact ⟨by decide, exits_pay_at_most (by decide) h 3 0⟩

end StableSwap.Pool
