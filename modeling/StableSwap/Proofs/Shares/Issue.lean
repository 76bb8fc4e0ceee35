import StableSwap.Proofs.Pool.SharePrice
import StableSwap.Proofs.Shares.Derivation

/-!
# Issuing and retiring shares

The first deposit sets the worth of a share. Afterwards a deposit rounds the shares
that it issues down, and a withdrawal in named amounts rounds those that it retires
down and adds one, each against the change of the invariant, so that neither takes
anything from the shares that stay.

Main statements:

* `minted_of_seed`: the first deposit earns the invariant of positive balances.
* `sharesKeep_of_deposit`: a later deposit leaves the other shares their worth.
* `sharesKeep_of_withdrawImbalanced`: so does a withdrawal in named amounts.
-/

namespace StableSwap.Pool

variable {p p' : Pool} {amounts : List Amount}

/-! ## The first deposit -/

/-- The first deposit earns as many shares as the invariant of the balances it leads to, and
    leaves no asset without funds. -/
theorem minted_of_seed {o : Deposit} (h : p.previewDeposit amounts = .ok o)
    (hzero : p.supply.val = 0) :
    p.invariantOf o.balances = .ok o.minted ∧ ∀ b ∈ o.balances, 0 < b.val := by
  simp only [previewDeposit, hzero, if_true, previewSeed, bind_eq_ok_iff, require_eq_ok_iff, pure,
    Except.pure, Except.ok.injEq] at h
  obtain ⟨_, _, _, hamounts, _, _, balances, hcredited, d, hd, rfl⟩ := h
  refine ⟨hd, fun b hb => ?_⟩
  have hmem : b.val ∈ balances.map (·.val) := List.mem_map_of_mem hb
  rw [credited_eq_ok_iff.1 hcredited] at hmem
  obtain ⟨⟨old, amount⟩, hpair, hval⟩ := List.mem_map.1 hmem
  have hamount := hamounts amount (List.of_mem_zip hpair).2
  rw [← hval]
  exact Nat.add_pos_right _ hamount

/-! ## The shares that stay -/

/-- A deposit leaves the shares of the others their worth. -/
theorem sharesKeep_of_deposit {o : Deposit} (h : p.deposit amounts = .ok (o, p'))
    (hpos : 0 < p.supply.val) {supply : Amount}
    (hsupply : supply.val = p.supply.val + o.minted.val) : SharesKeep p (p'.withSupply supply) := by
  obtain ⟨hpreview, rfl⟩ := deposit_eq_ok_iff.1 h
  obtain ⟨t, ht⟩ := exists_addition_derivation hpreview hpos
  refine ⟨o.invariantBefore, o.invariantAfter, ht.before, ht.after, ?_⟩
  obtain ⟨growth, hgrowth⟩ := Nat.exists_eq_add_of_le' ht.before_le
  have hminted := ht.minted
  rw [hgrowth, Nat.add_sub_cancel] at hminted
  have hfloor : o.minted.val * o.invariantBefore.val ≤ p.supply.val * growth := by
    rw [hminted]
    exact Nat.div_mul_le_self _ _
  show o.invariantBefore.val * supply.val ≤ o.invariantAfter.val * p.supply.val
  rw [hsupply, hgrowth]
  calc o.invariantBefore.val * (p.supply.val + o.minted.val)
      = o.minted.val * o.invariantBefore.val + o.invariantBefore.val * p.supply.val := by ring
    _ ≤ p.supply.val * growth + o.invariantBefore.val * p.supply.val :=
        Nat.add_le_add_right hfloor _
    _ = (growth + o.invariantBefore.val) * p.supply.val := by ring

/-- A withdrawal in named amounts leaves the shares of the others their worth. -/
theorem sharesKeep_of_withdrawImbalanced {o : ImbalancedWithdrawal}
    (h : p.withdrawImbalanced amounts = .ok (o, p')) {supply : Amount}
    (hsupply : supply.val + o.burned.val = p.supply.val) :
    SharesKeep p (p'.withSupply supply) := by
  obtain ⟨hpreview, rfl⟩ := withdrawImbalanced_eq_ok_iff.1 h
  obtain ⟨t, ht⟩ := previewImbalancedWithdrawal_eq_ok_iff.1 hpreview
  refine ⟨o.invariantBefore, o.invariantAfter, ht.before, ht.after, ?_⟩
  obtain ⟨loss, hloss⟩ := Nat.exists_eq_add_of_le' ht.after_le
  have hburned := ht.burned
  rw [hloss, Nat.add_sub_cancel, ← hloss] at hburned
  -- the share that is added makes up for what the division rounds off
  have hceil : loss * p.supply.val ≤ o.burned.val * o.invariantBefore.val := by
    rw [hburned, Nat.add_mul, Nat.one_mul]
    exact (Nat.lt_div_mul_add ht.before_pos).le
  show o.invariantBefore.val * supply.val ≤ o.invariantAfter.val * p.supply.val
  have hsplit : o.invariantBefore.val * supply.val + o.burned.val * o.invariantBefore.val =
      loss * p.supply.val + o.invariantAfter.val * p.supply.val := by
    rw [← Nat.add_mul, ← hloss, ← hsupply]
    ring
  omega

end StableSwap.Pool
