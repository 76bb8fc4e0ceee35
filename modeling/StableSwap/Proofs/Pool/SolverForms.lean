import StableSwap.Proofs.Exchange.RoundTrip
import StableSwap.Proofs.Pool.SharePrice

/-!
# The two forms of the balance solver

A pool asks for the balance of an asset in two forms. One is told what another asset will
hold and works out the scaled balances and the invariant itself; the other is handed both.
They are the same search, and the search does not read the balance that it looks for, so
that any snapshot of the others will do.

Main statements:

* `eq_set_of_entry`: a list that differs from another in one entry at most.
* `Curve.balance_congr`: scaled balances that differ in the one that is sought have one answer.
* `balanceFor_eq_balanceForTarget`: the two forms give one answer, and one refusal.
-/

namespace StableSwap

namespace Pool

/-- A list whose entries are those of another but for one is the other with this one replaced. -/
theorem eq_set_of_entry {xs ys : List Amount} {j : ℕ} (hlength : ys.length = xs.length)
    (h : ∀ k < xs.length, k ≠ j → entry ys k = entry xs k) : ys = xs.set j (entry ys j) := by
  apply List.ext_getElem
  · rw [List.length_set, hlength]
  · intro k hk hset
    have hk' : k < xs.length := by rwa [hlength] at hk
    rw [← entry_of_lt hk, ← entry_of_lt hset]
    by_cases hkj : k = j
    · subst hkj
      rw [entry_set_self hk']
    · rw [entry_set_of_ne (Ne.symm hkj), h k hk' hkj]

end Pool

open Pool (entry)

/-- Scaled balances that differ at most in the one that is sought lead to the same answer, or to
    the same refusal. -/
theorem Curve.balance_congr {xs ys : List Amount} {j : ℕ} (hlength : ys.length = xs.length)
    (h : ∀ k < xs.length, k ≠ j → entry ys k = entry xs k) (amplification : Word 64) (d : Amount) :
    balance ys amplification j d = balance xs amplification j d := by
  rw [Pool.eq_set_of_entry hlength h, balance_set]

namespace Pool

variable {p : Pool} {i j : ℕ} {d x : Amount} {ys : List Amount}

/-- The two forms of the balance solver agree. Let asset `i` hold `x` and the others their scaled
    balances in a snapshot with one entry for each asset, whatever it says of asset `j`: then what
    keeps the invariant when asset `i` holds `x` is what leads to the invariant beside the snapshot,
    and where the one is refused, the other is for the same cause. -/
theorem balanceFor_eq_balanceForTarget (hp : p.WellFormed) (hd : p.invariant = .ok d)
    (hi : i < p.assetCount) (hj : j < p.assetCount) (hne : i ≠ j)
    (hlength : ys.length = p.assetCount) (hx : entry ys i = x)
    (hrest : ∀ k < p.assetCount, k ≠ i → k ≠ j →
      (entry ys k).val = (entry p.balances k).val * (entry p.rates k).val) :
    p.balanceFor i j x = p.balanceForTarget j d ys := by
  obtain ⟨xs, hxs, hinvariant⟩ := invariantOf_eq_ok_iff.1 hd
  have hscaled : p.scaled = .ok xs := hxs
  have hcount : xs.length = p.assetCount := hp.length_scaled hscaled
  have hpair : p.checkPair i j = .ok () := checkPair_eq_ok_iff.2 ⟨hi, hj, hne⟩
  have hfor : p.balanceFor i j x = Curve.balance (xs.set i x) p.amplification j d := by
    simp only [balanceFor, hpair, hscaled, hinvariant, ok_bind]
  have htarget : p.balanceForTarget j d ys = Curve.balance ys p.amplification j d := by
    simp only [balanceForTarget, checkAsset, checkLength, require, if_pos hj, if_pos hlength,
      ok_bind]
  rw [hfor, htarget]
  symm
  apply Curve.balance_congr
  · rw [List.length_set, hlength, hcount]
  · intro k hk hkj
    rw [List.length_set] at hk
    by_cases hki : k = i
    · subst hki
      rw [entry_set_self hk, hx]
    · rw [entry_set_of_ne (Ne.symm hki)]
      apply Word.ext
      rw [entry_scaled hscaled, hrest k (hcount ▸ hk) hki hkj]

/-- With 975984 of the second asset both forms ask for 48 of the first one, from a snapshot that
    says it is used up. With none of the second asset both are refused, since they would divide by
    its balance. -/
theorem balanceFor_eq_balanceForTarget_lopsidedTriple :
    lopsidedTriple.invariant = .ok 9348 ∧
      lopsidedTriple.balanceFor 1 0 975984 = .ok 48 ∧
      lopsidedTriple.balanceForTarget 0 9348 [0, 975984, 2] = .ok 48 ∧
      lopsidedTriple.balanceFor 1 0 0 = .error .divisionByZero ∧
      lopsidedTriple.balanceForTarget 0 9348 [7, 0, 2] = .error .divisionByZero := by
  have hinvariant : lopsidedTriple.invariant = .ok 9348 := by decide +kernel
  have hanswer : lopsidedTriple.balanceFor 1 0 975984 = .ok 48 := by decide +kernel
  have hrefusal : lopsidedTriple.balanceFor 1 0 0 = .error .divisionByZero := by decide +kernel
  have hforms : lopsidedTriple.balanceFor 1 0 975984 =
      lopsidedTriple.balanceForTarget 0 9348 [0, 975984, 2] :=
    balanceFor_eq_balanceForTarget wellFormed_lopsidedTriple hinvariant (by decide) (by decide)
      (by decide) (by decide) (by decide) (by decide)
  have hforms' : lopsidedTriple.balanceFor 1 0 0 =
      lopsidedTriple.balanceForTarget 0 9348 [7, 0, 2] :=
    balanceFor_eq_balanceForTarget wellFormed_lopsidedTriple hinvariant (by decide) (by decide)
      (by decide) (by decide) (by decide) (by decide)
  exact ⟨hinvariant, hanswer, hforms ▸ hanswer, hrefusal, hforms' ▸ hrefusal⟩

end Pool

end StableSwap
