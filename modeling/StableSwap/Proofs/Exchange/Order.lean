import StableSwap.Proofs.Curve.BalanceOrder
import StableSwap.Proofs.Exchange.Derivation
import StableSwap.Proofs.Fee

/-!
# Larger payments

Two exchanges from the same pool, of which one pays in more than the other. Each
looks for the balance of the asset that is paid out on its own, and the two searches
may come to rest on different sides of their roots, so that the larger payment may
find a balance that is larger by one unit of the common scale. Neither the fee nor the
division by the rate makes more of this unit than one unit of the asset.

Main statements:

* `Derivation.required_le_succ`, `Derivation.gross_le_succ`: what the curve requires and
  gives up for the larger payment, up to one unit.
* `exchange_le_succ`: the larger payment never buys less, up to one unit.
-/

namespace StableSwap.Pool

variable {p : Pool} {i j : ℕ} {dx dx' : Amount} {r r' : Exchange}

namespace ExchangeTerms.Derivation

variable {s t : ExchangeTerms}

/-- Beside the larger payment no larger balance is required, up to one unit. -/
theorem required_le_succ (hp : p.WellFormed) (hs : s.Derivation p i j dx r)
    (ht : t.Derivation p i j dx' r') (hle : dx.val ≤ dx'.val) :
    t.required.val ≤ s.required.val + 1 := by
  have hscaled : t.scaled = s.scaled := eq_of_eq_ok ht.scaled hs.scaled
  have hinvariant : t.invariant = s.invariant := eq_of_eq_ok ht.invariant hs.invariant
  have hi : i < s.scaled.length := by
    rw [hp.length_scaled hs.scaled]
    exact hs.lt_in
  have hpaid : s.paidIn.val ≤ t.paidIn.val := by
    rw [hs.paidIn, ht.paidIn, hscaled]
    exact Nat.add_le_add_right (Nat.mul_le_mul_right _ hle) _
  have hgiven : List.Forall₂ (fun x y => y.val ≤ x.val) (s.scaled.set i t.paidIn)
      (s.scaled.set i s.paidIn) := by
    rw [forall₂_iff_entry (R := fun x y => y ≤ x) le_rfl]
    refine ⟨by rw [List.length_set, List.length_set], fun k => ?_⟩
    by_cases hk : i = k
    · subst hk
      rwa [entry_set_self hi, entry_set_self hi]
    · rw [entry_set_of_ne hk, entry_set_of_ne hk]
  have hrequired := ht.required
  rw [hscaled, hinvariant] at hrequired
  exact Curve.balance_le_succ_of_le hgiven le_rfl hrequired hs.required

/-- For the larger payment the curve gives up no less, up to one unit. -/
theorem gross_le_succ (hp : p.WellFormed) (hs : s.Derivation p i j dx r)
    (ht : t.Derivation p i j dx' r') (hle : dx.val ≤ dx'.val) :
    s.gross.val ≤ t.gross.val + 1 := by
  have hrequired := hs.required_le_succ hp ht hle
  have hsgross := hs.gross
  have htgross := ht.gross
  rw [eq_of_eq_ok ht.scaled hs.scaled] at htgross
  omega

end ExchangeTerms.Derivation

/-- A larger payment never buys less, up to one unit of the asset that is paid out, for all assets
    and payments that are exchanged at all. -/
theorem exchange_le_succ (hp : p.WellFormed) (hle : dx.val ≤ dx'.val)
    (h : p.previewExchange i j dx = .ok r) (h' : p.previewExchange i j dx' = .ok r') :
    r.amountOut.val ≤ r'.amountOut.val + 1 := by
  obtain ⟨s, hs⟩ := exists_derivation h
  obtain ⟨t, ht⟩ := exists_derivation h'
  have hrate := hp.rate_pos hs.lt_out
  have hgross := hs.gross_le_succ hp ht hle
  have hnet : s.gross.val - s.scaledFee.val ≤ t.gross.val - t.scaledFee.val + 1 :=
    FeeRate.sub_fee_le_succ hp.trade_valid hs.scaledFee ht.scaledFee hgross
  rw [hs.amountOut, ht.amountOut, ← Nat.add_div_right _ hrate]
  exact Nat.div_le_div_right (hnet.trans (Nat.add_le_add_left hrate _))

/-- The outcome of paying in 9 of the asset that the pool has too much of. -/
def unevenLargerExchange : Exchange :=
  { unevenExchange with amountIn := 9, amountOut := 3, balances := [57, 4] }

theorem previewExchange_unevenPair_larger :
    unevenPair.previewExchange 0 1 9 = .ok unevenLargerExchange := by
  decide +kernel

/-- Paying in 9 buys 3 of the other asset, and paying in 5 buys 2. -/
theorem exchange_le_succ_unevenPair :
    unevenExchange.amountOut.val ≤ unevenLargerExchange.amountOut.val + 1 :=
  exchange_le_succ wellFormed_unevenPair (by decide) previewExchange_unevenPair
    previewExchange_unevenPair_larger

end StableSwap.Pool
