import StableSwap.Proofs.Curve.BalanceBound
import StableSwap.Proofs.Exchange.Derivation

/-!
# The margin of an exchange

An exchange leaves at least one unit of the common scale more than the balance
solver asks for, and the solver stops less than one unit below the root of its
quadratic. So an exchange never takes as much as the curve allows, whatever the
fee and whatever the division by the rate leaves over.

Main statements:

* `Derivation.exceeds_rest`: the scaled balance that is left lies above the root.
* `exchange_above_curve`: the same for the pool after the exchange, with the
  quadratic written out.
-/

namespace StableSwap.Pool

open Curve.Balance (Quadratic)

/-- The scaled balance that an exchange leaves lies above the root of the quadratic of the
    balances after the exchange, for the invariant before it. -/
theorem ExchangeTerms.Derivation.exceeds_rest {t : ExchangeTerms} {p : Pool} {i j : ℕ}
    {dx : Amount} {r : Exchange} (h : t.Derivation p i j dx r) (x : Amount) :
    ∃ q : Quadratic,
      Curve.Balance.quadratic ((t.scaled.set i t.paidIn).set j x) p.amplification j t.invariant =
          .ok q ∧
        q.Exceeds ((entry r.balances j).val * (entry p.rates j).val) := by
  obtain ⟨q, hq, hexceeds⟩ := Curve.exceeds_of_balance h.required
  refine ⟨q, ?_, hexceeds.mono ?_⟩
  · rw [Curve.quadratic_set]
    exact hq
  · rw [h.scaled_rest]
    omega

/-- An exchange leaves more of the asset it pays out than the curve requires: its scaled balance
    makes the quadratic of the balances after the exchange, for the invariant before it, larger
    than zero, and is larger than the real root. In particular the balance is not used up. -/
theorem exchange_above_curve {p : Pool} (hp : p.WellFormed) {i j : ℕ} {dx : Amount}
    {r : Exchange} (h : p.previewExchange i j dx = .ok r) :
    ∃ (d : Amount) (xs : List Amount) (q : Quadratic) (z : ℕ),
      p.invariant = .ok d ∧
      (p.withBalances r.balances).scaled = .ok xs ∧
      Curve.Balance.quadratic xs p.amplification j d = .ok q ∧
      z = (entry r.balances j).val * (entry p.rates j).val ∧
      (q.c.val : ℤ) < z * z + ((q.b.val : ℤ) - d.val) * z ∧
      (∀ root : ℝ, 0 ≤ root → root * root + ((q.b.val : ℝ) - d.val) * root = q.c.val → root < z) ∧
      1 ≤ (entry r.balances j).val := by
  obtain ⟨t, ht⟩ := exists_derivation h
  obtain ⟨x, -, hscaled⟩ := ht.scaled_after hp
  obtain ⟨q, hq, hexceeds⟩ := ht.exceeds_rest x
  obtain ⟨htarget, -, -⟩ := Curve.Balance.eq_coefficients hq
  refine ⟨t.invariant, _, q, _, ht.invariant, hscaled, hq, rfl, ?_, ?_, ?_⟩
  · rw [← htarget]
    exact hexceeds
  · intro root hnonneg hroot
    rw [← htarget] at hroot
    exact hexceeds.root_lt hnonneg hroot
  · exact Nat.pos_of_mul_pos_right hexceeds.pos

theorem exchange_above_curve_unevenPair :
    ∃ (d : Amount) (xs : List Amount) (q : Quadratic) (z : ℕ),
      unevenPair.invariant = .ok d ∧
      (unevenPair.withBalances unevenExchange.balances).scaled = .ok xs ∧
      Curve.Balance.quadratic xs unevenPair.amplification 1 d = .ok q ∧
      z = (entry unevenExchange.balances 1).val * (entry unevenPair.rates 1).val ∧
      (q.c.val : ℤ) < z * z + ((q.b.val : ℤ) - d.val) * z ∧
      (∀ root : ℝ, 0 ≤ root → root * root + ((q.b.val : ℝ) - d.val) * root = q.c.val → root < z) ∧
      1 ≤ (entry unevenExchange.balances 1).val :=
  exchange_above_curve wellFormed_unevenPair previewExchange_unevenPair

end StableSwap.Pool
