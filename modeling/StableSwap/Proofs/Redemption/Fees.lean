import StableSwap.Proofs.Curve.BalanceOrder
import StableSwap.Proofs.Redemption.Derivation

/-!
# The fees of a redemption

A quote reports as its fee what the redeemed asset would have given up without fees, less what
is paid. Both subtractions that lead to it stop at zero, so that they would hide a redemption that
pays more than the asset gives up. It never does: the fees are taken off all balances, beside the
lowered ones the curve requires no less of the redeemed asset, and the unit by which the two
searches may differ is the one that is kept as the margin.

Main statements:

* `Derivation.fallsTo_le_succ`: what the curve requires before and after the fees are charged.
* `Derivation.gross_add_fallsTo_le`: no more is given up than without fees.
* `Derivation.amount_add_fee`, `redemption_accounts_for_fees`: the payment and the reported fee
  make up what would be given up without fees, up to the two divisions by the rate.
-/

namespace StableSwap.Pool

variable {p : Pool} {shares : Amount} {i : ℕ} {o : RedemptionQuote}

namespace RedemptionTerms.Derivation

variable {t : RedemptionTerms}

/-- Beside the scaled balances no more is required than beside the charged ones, up to one
    unit. -/
theorem fallsTo_le_succ (h : t.Derivation p shares i o) :
    t.fallsTo.val ≤ t.required.val + 1 := by
  have hcharged : List.Forall₂ (fun x y => y.val ≤ x.val) t.scaled t.charged := by
    rw [forall₂_iff_entry (R := fun x y => y ≤ x) le_rfl]
    exact ⟨h.length_charged.symm, h.entry_charged_le⟩
  exact Curve.balance_le_succ_of_le hcharged le_rfl h.fallsTo h.required

/-- What the asset gives up after the fees are charged, it would also give up without fees: the
    margin takes up the unit by which the two searches may differ. -/
theorem gross_add_fallsTo_le (h : t.Derivation p shares i o) :
    t.gross.val + t.fallsTo.val ≤ (entry t.scaled i).val := by
  have hrequired := h.fallsTo_le_succ
  calc t.gross.val + t.fallsTo.val ≤ t.gross.val + t.required.val + 1 := by omega
    _ = (entry t.charged i).val := h.gross
    _ ≤ (entry t.scaled i).val := h.entry_charged_le i

/-- The payment and the fee are what would be given up without fees, less the remainders of two
    divisions by the rate. -/
theorem amount_add_fee (h : t.Derivation p shares i o) (hrate : 0 < (entry p.rates i).val) :
    (o.amount.val + o.fee.val) * (entry p.rates i).val ≤ (entry t.scaled i).val - t.fallsTo.val ∧
      (entry t.scaled i).val - t.fallsTo.val <
        (o.amount.val + o.fee.val + 2) * (entry p.rates i).val := by
  have hgiven := h.gross_add_fallsTo_le
  have hwithdraw := h.withdrawFee_le
  have hall : t.gross.val - t.withdrawFee.val +
      ((entry t.scaled i).val - t.fallsTo.val - t.gross.val + t.withdrawFee.val) =
        (entry t.scaled i).val - t.fallsTo.val := by
    omega
  rw [h.amount, h.fee]
  have hbounds := div_add_div_bounds hrate (t.gross.val - t.withdrawFee.val)
    ((entry t.scaled i).val - t.fallsTo.val - t.gross.val + t.withdrawFee.val)
  rwa [hall] at hbounds

end RedemptionTerms.Derivation

/-- A redemption accounts for its fees. Let the asset fall to `fallsTo` beside the scaled balances,
    and give up `gross` beside the charged ones. Then `fallsTo` is at most the balance and `gross`
    at most the difference, so that neither subtraction is cut off; and the payment together with
    the fee, in the common scale, is at most this difference and falls short of it by less than two
    units of the asset, one for each division by the rate. -/
theorem redemption_accounts_for_fees (hp : p.WellFormed)
    (h : p.quoteRedemption shares i = .ok o) :
    ∃ (xs charged : List Amount) (d lower fallsTo required gross : Amount),
      p.scaled = .ok xs ∧
      p.invariant = .ok d ∧
      p.lowered shares d = .ok lower ∧
      Curve.balance xs p.amplification i lower = .ok fallsTo ∧
      p.chargeRedemption i d lower fallsTo xs = .ok charged ∧
      Curve.balance charged p.amplification i lower = .ok required ∧
      Amount.released (entry charged i) required = some gross ∧
      fallsTo.val ≤ (entry xs i).val ∧
      gross.val ≤ (entry xs i).val - fallsTo.val ∧
      (o.amount.val + o.fee.val) * (entry p.rates i).val ≤ (entry xs i).val - fallsTo.val ∧
      (entry xs i).val - fallsTo.val < (o.amount.val + o.fee.val + 2) * (entry p.rates i).val := by
  obtain ⟨t, ht⟩ := exists_redemption_derivation h
  have hgiven := ht.gross_add_fallsTo_le
  obtain ⟨hle, hlt⟩ := ht.amount_add_fee (hp.rate_pos ht.lt_asset)
  have hreleased : Amount.released (entry t.charged i) t.required = some t.gross :=
    Amount.released_eq_some_iff.2 ⟨ht.gross_pos, ht.gross⟩
  exact ⟨t.scaled, t.charged, t.invariant, t.lower, t.fallsTo, t.required, t.gross, ht.scaled,
    ht.invariant, ht.lower, ht.fallsTo, ht.charged, ht.required, hreleased, by omega, by omega,
    hle, hlt⟩

/-- A pool with rates other than one and fees of a tenth on trades and a twentieth on
    withdrawals. -/
def taxedPair : Pool where
  amplification := 2
  balances := [163, 33]
  rates := [5, 3]
  fees := ⟨⟨⟨1000000000, by decide⟩⟩, ⟨⟨500000000, by decide⟩⟩⟩
  supply := 100

theorem wellFormed_taxedPair : taxedPair.WellFormed where
  two_le := by decide
  length_rates := by decide
  rates_pos := by decide
  trade_valid := by decide
  withdraw_valid := by decide

/-- The quote for 40 of the 100 shares. -/
def taxedQuote : RedemptionQuote where
  asset := 0
  shares := 40
  amount := 77
  fee := 5
  balancesBefore := [163, 33]
  balancesAfter := [85, 32]

theorem quoteRedemption_taxedPair : taxedPair.quoteRedemption 40 0 = .ok taxedQuote := by
  decide +kernel

/-- Without fees 418 would be given up. The payment of 77 and the fee of 5 account for 410 of it,
    and with one unit more they would still not account for all. -/
theorem redemption_accounts_for_fees_taxedPair :
    ∃ (xs : List Amount) (d lower fallsTo : Amount),
      taxedPair.scaled = .ok xs ∧
      taxedPair.invariant = .ok d ∧
      taxedPair.lowered 40 d = .ok lower ∧
      Curve.balance xs taxedPair.amplification 0 lower = .ok fallsTo ∧
      (entry xs 0).val - fallsTo.val = 418 ∧
      (77 + 5) * 5 ≤ (entry xs 0).val - fallsTo.val ∧
      (77 + 5 + 1) * 5 < (entry xs 0).val - fallsTo.val ∧
      (entry xs 0).val - fallsTo.val < (77 + 5 + 2) * 5 := by
  have hscaled : taxedPair.scaled = .ok [815, 99] := by decide +kernel
  have hinvariant : taxedPair.invariant = .ok 762 := by decide +kernel
  have hlowered : taxedPair.lowered 40 762 = .ok 458 := by decide +kernel
  have hfallsTo : Curve.balance [815, 99] taxedPair.amplification 0 458 = .ok 397 := by
    decide +kernel
  obtain ⟨xs, charged, d, lower, fallsTo, required, gross, hxs, hd, hlower, hbalance, -, -, -, -, -,
    hle, hlt⟩ := redemption_accounts_for_fees wellFormed_taxedPair quoteRedemption_taxedPair
  obtain rfl := eq_of_eq_ok hscaled hxs
  obtain rfl := eq_of_eq_ok hinvariant hd
  obtain rfl := eq_of_eq_ok hlowered hlower
  obtain rfl := eq_of_eq_ok hfallsTo hbalance
  exact ⟨_, _, _, _, hscaled, hinvariant, hlowered, hfallsTo, rfl, hle, by decide, hlt⟩

end StableSwap.Pool
