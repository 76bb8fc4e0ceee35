import StableSwap.Proofs.Redemption.Derivation

/-!
# What a redemption leaves to the other shares

A redemption lowers the invariant by the part that the shares stand for, rounded
down, and pays what the lowered invariant sets free. If the balances that are
left have at least the lowered invariant, the other shares keep their worth. But
they need not have it: the fees are taken off before the balances are written
back, and what is written back is rounded down to whole units of each asset,
which may be worth more than the one unit of the common scale that is kept.

Main statements:

* `lowered_le_iff`: the other shares keep their worth exactly if the invariant
  does not fall below the lowered one.
* `Derivation.invariant_ge`: what the invariant is at least in any case.
* `redeem_keeps_iff`: both for a redemption, with the balances that are left.
* `redeem_dilutes`: a pool in which a redemption lowers the virtual price.
* `redeem_keeps_iff_freePair`: the same pool without fees, in which it does not.
-/

namespace StableSwap.Pool

variable {p p' : Pool} {shares supply : Amount} {i : ℕ} {o : RedemptionQuote}

/-- With `d` lowered by the part of `s` among `S` shares, rounded down, the fraction `e / S'` for
    the shares that stay is at least `d / S` exactly if `e` is at least the lowered value. -/
theorem lowered_le_iff {d lower e s S S' : ℕ} (hS : 0 < S) (hstay : S' + s = S)
    (hlower : lower + s * d / S = d) : d * S' ≤ e * S ↔ lower ≤ e := by
  have hfloor : s * d / S * S ≤ s * d := Nat.div_mul_le_self _ _
  have hceil : s * d < s * d / S * S + S := Nat.lt_div_mul_add hS
  have hall : d * S' + s * d = d * S := by rw [← hstay]; ring
  have hsplit : lower * S + s * d / S * S = d * S := by rw [← Nat.add_mul, hlower]
  constructor
  · intro h
    by_contra hlt
    have hstep : (e + 1) * S ≤ lower * S := Nat.mul_le_mul_right _ (not_le.1 hlt)
    rw [Nat.add_mul, Nat.one_mul] at hstep
    omega
  · intro h
    have hmul : lower * S ≤ e * S := Nat.mul_le_mul_right _ h
    omega

/-- What the invariant after a redemption is at least, given the scaled balances `xs` that are
    left: the charged balances less the payment support every `s` up to the lowered invariant whose
    power the quotients of the solver reach, and the part `a / b` of these balances that is left
    supports that part of `s`. -/
theorem RedemptionTerms.Derivation.invariant_ge {t : RedemptionTerms}
    (h : t.Derivation p shares i o) {q : Curve.Balance.Quadratic} {z : ℕ}
    (hq : Curve.Balance.quadratic t.charged p.amplification i t.lower = .ok q)
    (hz : q.Exceeds z) {xs : List Amount} {e : Amount}
    (he : Curve.invariant xs p.amplification = .ok e) {s a b : ℕ} (hb : 0 < b)
    (hs : s ≤ t.lower.val)
    (hpow : s ^ t.charged.length ≤ Curve.Exact.roundedPower t.charged.length t.lower.val
      ((t.charged.eraseIdx i).map (·.val)))
    (hleft : List.Forall₂ (fun x y => a * y ≤ b * x) (xs.map (·.val))
      ((t.charged.map (·.val)).set i z)) : a * s / b ≤ e.val := by
  have hlt : i < t.charged.length := by
    apply lt_of_entry_pos
    have := h.gross
    omega
  have hlength : xs.length = t.charged.length := by
    simpa using hleft.length_eq
  have hsupports := (Curve.supports_of_exceeds hq hlt hz hs hpow).scale hb hleft
  rw [← hlength] at hsupports
  exact Curve.le_invariant_of_supports he hsupports

/-- After a redemption the other shares keep their exact worth `D / supply` if and only if the
    invariant of the balances that are left is at least the lowered one; then the virtual price
    does not fall. The invariant is at least every value that the balances support on the exact
    curve. The balances are the charged ones less the payment, rounded down to whole units of each
    asset; before that they lie above the root of the quadratic for the lowered invariant. So what
    the invariant can lose is bounded by the two roundings: by the part `a / b` of the scaled
    balances that remains, and by the `s` whose power the quotients of the solver reach. -/
theorem redeem_keeps_iff (h : p.redeem shares i = .ok (o, p'))
    (hsupply : supply.val + shares.val = p.supply.val) :
    ∃ (xs charged : List Amount) (d lower fallsTo : Amount) (q : Curve.Balance.Quadratic) (z : ℕ),
      p.scaled = .ok xs ∧
      p.invariant = .ok d ∧
      p.lowered shares d = .ok lower ∧
      Curve.balance xs p.amplification i lower = .ok fallsTo ∧
      p.chargeRedemption i d lower fallsTo xs = .ok charged ∧
      Curve.Balance.quadratic charged p.amplification i lower = .ok q ∧
      z + o.amount.val * (entry p.rates i).val = (entry charged i).val ∧
      q.Exceeds z ∧
      (∀ k, (entry p'.balances k).val + (if k = i then o.amount.val else 0) =
        (entry charged k).val / (entry p.rates k).val) ∧
      ∀ (xs' : List Amount) (e : Amount), p'.scaled = .ok xs' →
        (p'.withSupply supply).invariant = .ok e →
          (d.val * supply.val ≤ e.val * p.supply.val ↔ lower.val ≤ e.val) ∧
          (lower.val ≤ e.val → ∀ v w : Amount, p.virtualPrice = .ok v →
            (p'.withSupply supply).virtualPrice = .ok w → v.val ≤ w.val) ∧
          (∀ s, Curve.Exact.Supports (p.amplification.val * xs'.length) (xs'.map (·.val)) s →
            s ≤ e.val) ∧
          ∀ s a b, 0 < b → s ≤ lower.val →
            s ^ charged.length ≤ Curve.Exact.roundedPower charged.length lower.val
              ((charged.eraseIdx i).map (·.val)) →
            List.Forall₂ (fun x y => a * y ≤ b * x) (xs'.map (·.val))
              ((charged.map (·.val)).set i z) →
            a * s / b ≤ e.val := by
  obtain ⟨hquote, rfl⟩ := redeem_eq_ok h
  obtain ⟨t, ht⟩ := exists_redemption_derivation hquote
  obtain ⟨q, z, hq, hz, hexceeds⟩ := ht.exceeds_rest
  obtain ⟨hpos, hlower⟩ := lowered_eq_ok_iff.1 ht.lower
  refine ⟨t.scaled, t.charged, t.invariant, t.lower, t.fallsTo, q, z, ht.scaled, ht.invariant,
    ht.lower, ht.fallsTo, ht.charged, hq, hz, hexceeds, ht.entry_balances, ?_⟩
  intro xs' e hxs' he
  obtain ⟨ys, hys, hinvariant⟩ := invariantOf_eq_ok_iff.1 he
  obtain rfl : xs' = ys := eq_of_eq_ok hxs' hys
  have hiff := lowered_le_iff (e := e.val) hpos hsupply hlower
  refine ⟨hiff, ?_, ?_, ?_⟩
  · intro hle v w hv hw
    have hkeep : SharesKeep p ((p.withBalances o.balancesAfter).withSupply supply) :=
      ⟨t.invariant, e, ht.invariant, he, hiff.2 hle⟩
    exact hkeep.virtualPrice_le hv hw
  · intro s hsupports
    exact Curve.le_invariant_of_supports hinvariant hsupports
  · intro s a b hb hs hpow hleft
    exact ht.invariant_ge hq hexceeds hinvariant hb hs hpow hleft

/-! ## Two redemptions to look at -/

/-- Two assets in equal parts, with the rates and fees of a pool that sets none. -/
def evenConfig : Config where
  amplification := 100
  assetCount := 2
  funding := .balances [10, 10]
  supply := 20

def evenPair : Pool where
  amplification := 100
  balances := [10, 10]
  rates := [Amount.unit, Amount.unit]
  fees := .standard
  supply := 20

/-- The quote for 6 of the 20 shares. The fee on the second asset is far less than one unit of
    it, but one unit is gone. -/
def evenQuote : RedemptionQuote where
  asset := 0
  shares := 6
  amount := 5
  fee := 0
  balancesBefore := [10, 10]
  balancesAfter := [4, 9]

/-- A redemption of part of the shares can lower the virtual price of the others. -/
theorem redeem_dilutes :
    ∃ (p' : Pool) (v w : Amount),
      ofConfig evenConfig = .ok evenPair ∧
      6 < evenPair.supply.val ∧
      evenPair.redeem 6 0 = .ok (evenQuote, p') ∧
      evenPair.virtualPrice = .ok v ∧
      (p'.withSupply 14).virtualPrice = .ok w ∧
      w.val < v.val := by
  refine ⟨evenPair.withBalances evenQuote.balancesAfter, ⟨10 ^ 48, by decide⟩,
    ⟨927775398272896419499110500000 * 10 ^ 18, by decide⟩, ?_, by decide, ?_, ?_, ?_, by decide⟩
  · decide +kernel
  · decide +kernel
  · decide +kernel
  · decide +kernel

/-- The same pool without fees. -/
def freePair : Pool := { evenPair with fees := ⟨.zero, .zero⟩ }

def freeQuote : RedemptionQuote :=
  { evenQuote with balancesAfter := [5, 10] }

theorem redeem_freePair :
    freePair.redeem 6 0 = .ok (freeQuote, freePair.withBalances freeQuote.balancesAfter) := by
  decide +kernel

/-- Without fees nothing is charged: the balances stay whole units of both assets. -/
theorem chargeRedemption_freePair :
    freePair.scaled = .ok [⟨10 ^ 25, by decide⟩, ⟨10 ^ 25, by decide⟩] ∧
      freePair.invariant = .ok ⟨2 * 10 ^ 25, by decide⟩ ∧
      freePair.lowered 6 ⟨2 * 10 ^ 25, by decide⟩ = .ok ⟨14 * 10 ^ 24, by decide⟩ ∧
      Curve.balance [⟨10 ^ 25, by decide⟩, ⟨10 ^ 25, by decide⟩] freePair.amplification 0
        ⟨14 * 10 ^ 24, by decide⟩ = .ok 4015420688541744108589123 ∧
      freePair.chargeRedemption 0 ⟨2 * 10 ^ 25, by decide⟩ ⟨14 * 10 ^ 24, by decide⟩
        4015420688541744108589123 [⟨10 ^ 25, by decide⟩, ⟨10 ^ 25, by decide⟩] =
          .ok [⟨10 ^ 25, by decide⟩, ⟨10 ^ 25, by decide⟩] := by
  decide +kernel

/-- Nothing is lost in writing the balances back, so that they support the lowered invariant. -/
theorem redeem_keeps_iff_freePair :
    ∃ (p' : Pool) (xs : List Amount) (d lower e v w : Amount),
      freePair.redeem 6 0 = .ok (freeQuote, p') ∧
      freePair.invariant = .ok d ∧
      freePair.lowered 6 d = .ok lower ∧
      p'.scaled = .ok xs ∧
      Curve.Exact.Supports (100 * 2) (xs.map (·.val)) lower.val ∧
      (p'.withSupply 14).invariant = .ok e ∧
      lower.val ≤ e.val ∧
      1 * lower.val / 1 ≤ e.val ∧
      d.val * 14 ≤ e.val * 20 ∧
      freePair.virtualPrice = .ok v ∧
      (p'.withSupply 14).virtualPrice = .ok w ∧
      v.val ≤ w.val := by
  have hsupply : (14 : Amount).val + (6 : Amount).val = freePair.supply.val := rfl
  have hxs : (freePair.withBalances freeQuote.balancesAfter).scaled =
      .ok [⟨5 * 10 ^ 24, by decide⟩, ⟨10 ^ 25, by decide⟩] := by
    decide +kernel
  have he : ((freePair.withBalances freeQuote.balancesAfter).withSupply 14).invariant =
      .ok 14990734926199472881415857 := by
    decide +kernel
  have hv : freePair.virtualPrice = .ok ⟨10 ^ 48, by decide⟩ := by decide +kernel
  have hw : ((freePair.withBalances freeQuote.balancesAfter).withSupply 14).virtualPrice =
      .ok 1070766780442819491529704071428571428571428571428 := by
    decide +kernel
  have hsupports : Curve.Exact.Supports (100 * 2) [5 * 10 ^ 24, 10 ^ 25] (14 * 10 ^ 24) := by
    unfold Curve.Exact.Supports
    decide +kernel
  obtain ⟨hscaled, hd, hlower, hfallsTo, hcharged⟩ := chargeRedemption_freePair
  obtain ⟨xs, charged, d, lower, fallsTo, q, z, hscaled', hd', hlower', hfallsTo', hcharged', -, hz,
    -, -, hkeeps⟩ := redeem_keeps_iff redeem_freePair hsupply
  obtain rfl := eq_of_eq_ok hscaled hscaled'
  obtain rfl := eq_of_eq_ok hd hd'
  obtain rfl := eq_of_eq_ok hlower hlower'
  obtain rfl := eq_of_eq_ok hfallsTo hfallsTo'
  obtain rfl := eq_of_eq_ok hcharged hcharged'
  have hpaid : z + 5 * 10 ^ 24 = 10 ^ 25 := hz
  obtain rfl : z = 5 * 10 ^ 24 := by omega
  obtain ⟨hiff, hprice, hexact, hrounded⟩ := hkeeps _ _ hxs he
  have hle := hexact _ hsupports
  have hbound := hrounded (14 * 10 ^ 24) 1 1 Nat.one_pos le_rfl (by decide +kernel)
    (.cons le_rfl (.cons le_rfl .nil))
  exact ⟨_, _, _, _, _, _, _, redeem_freePair, hd, hlower, hxs, hsupports, he, hle, hbound,
    hiff.2 hle, hv, hw, hprice hle _ _ hv hw⟩

end StableSwap.Pool
