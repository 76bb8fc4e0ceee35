import StableSwap.Proofs.Curve.BalanceBound
import StableSwap.Proofs.Exchange.Derivation

/-!
# There and back

A trader pays in `dx` of one asset and at once pays back what was received. The
second exchange starts from the invariant of the balances in between, which is
computed anew and may come out lower than the first one: then the pool gives up
more of the first asset than it was paid. Nothing but the trade fee and the
rounding of the last division stands against that.

Main statements:

* `Derivation.required_back`: the second exchange asks what the balances before
  the first one have to be for the invariant in between.
* `roundTrip_le_iff`: the trader gains nothing exactly if the fee and one unit of
  the asset make up for the fall of the required balance.
* `roundTrip_lt_of_not_exceeds`: the trader loses unless the first balances lie
  above the curve of the invariant in between.
* `roundTrip_lopsidedTriple`: a pool and a payment with which the trader does gain.
-/

namespace StableSwap.Pool

variable {p p₁ p₂ : Pool} {i j : ℕ} {dx : Amount} {r₁ r₂ : Exchange}

/-- Both exchanges of a round trip have their terms. -/
theorem exists_roundTrip_derivation (h₁ : p.exchange i j dx = .ok (r₁, p₁))
    (h₂ : p₁.exchange j i r₁.amountOut = .ok (r₂, p₂)) :
    p₁ = p.withBalances r₁.balances ∧ ∃ s t : ExchangeTerms, s.Derivation p i j dx r₁ ∧
      t.Derivation p₁ j i r₁.amountOut r₂ := by
  rw [exchange_eq_ok_iff] at h₁ h₂
  obtain ⟨s, hs⟩ := exists_derivation h₁.1
  obtain ⟨t, ht⟩ := exists_derivation h₂.1
  exact ⟨h₁.2, s, t, hs, ht⟩

/-- The second exchange of a round trip looks for the balance of asset `i` beside the scaled
    balances that the pool had before the first one. -/
theorem ExchangeTerms.Derivation.required_back {s t : ExchangeTerms} (hp : p.WellFormed)
    (hs : s.Derivation p i j dx r₁)
    (ht : t.Derivation (p.withBalances r₁.balances) j i r₁.amountOut r₂) :
    Curve.balance s.scaled p.amplification i t.invariant = .ok t.required ∧
      entry t.scaled i = s.paidIn := by
  obtain ⟨z, hz, hscaled⟩ := hs.scaled_after hp
  have hlength := hp.length_scaled hs.scaled
  have hi : i < s.scaled.length := by rw [hlength]; exact hs.lt_in
  have hafter : t.scaled = (s.scaled.set i s.paidIn).set j z :=
    eq_of_eq_ok ht.scaled hscaled
  have hentry : entry t.scaled j = z := by
    rw [hafter, entry_set_self (by rw [List.length_set, hlength]; exact hs.lt_out)]
  -- what was paid out comes back, so that asset `j` has its old balance again
  have hback : t.paidIn = entry s.scaled j := by
    apply Word.ext
    rw [ht.paidIn, hentry, hz, entry_scaled hs.scaled j, ← hs.entry_rest, Nat.add_mul, Nat.add_comm]
    rfl
  constructor
  · have hrequired := ht.required
    rw [hafter, hback, List.set_set, List.set_comm _ _ hs.ne, set_entry, Curve.balance_set]
      at hrequired
    exact hrequired
  · rw [hafter, entry_set_of_ne hs.ne.symm, entry_set_self hi]

/-- What the curve gives up in the end falls short of the first scaled balance and the payment by
    the balance that is required and the margin. -/
theorem ExchangeTerms.Derivation.gross_back {s t : ExchangeTerms} (hp : p.WellFormed)
    (hs : s.Derivation p i j dx r₁)
    (ht : t.Derivation (p.withBalances r₁.balances) j i r₁.amountOut r₂) :
    t.gross.val + t.required.val + 1 =
      dx.val * (entry p.rates i).val + (entry s.scaled i).val := by
  obtain ⟨-, hentry⟩ := hs.required_back hp ht
  rw [ht.gross, hentry, hs.paidIn]

/-- What a round trip returns, against what was paid in: with `x` the scaled balance before it
    and `y` what is required in the end, the trader gains `x - y - 1` less the fee, in whole
    units of the asset. -/
theorem gain_eq {x y gross fee rate dx : ℕ} (hrate : 0 < rate) (hle : fee ≤ gross)
    (hgross : gross + y + 1 = dx * rate + x) :
    (((gross - fee) / rate : ℕ) : ℤ) - dx = ((x : ℤ) - y - 1 - fee) / rate := by
  have hnet : ((gross - fee : ℕ) : ℤ) = (x - y - 1 - fee) + dx * rate := by
    have hcast : (gross : ℤ) + y + 1 = dx * rate + x := by exact_mod_cast hgross
    rw [Nat.cast_sub hle]
    omega
  have hrate' : (rate : ℤ) ≠ 0 := by omega
  rw [Int.natCast_ediv, hnet, Int.add_mul_ediv_right _ _ hrate']
  omega

/-- A round trip returns at most what was paid in exactly if the fee on the second exchange and
    one unit of the asset make up for the fall of the required scaled balance from `x`, what it
    was at first, to `y`, what the invariant between the two exchanges asks for. -/
theorem roundTrip_le_iff (hp : p.WellFormed) (h₁ : p.exchange i j dx = .ok (r₁, p₁))
    (h₂ : p₁.exchange j i r₁.amountOut = .ok (r₂, p₂)) :
    ∃ (xs : List Amount) (d y gross fee : Amount),
      p.scaled = .ok xs ∧
      p₁.invariant = .ok d ∧
      Curve.balance xs p.amplification i d = .ok y ∧
      gross.val + y.val + 1 = dx.val * (entry p.rates i).val + (entry xs i).val ∧
      p.fees.tradeFee gross = .ok fee ∧
      (r₂.amountOut.val : ℤ) - dx.val =
        ((entry xs i).val - y.val - 1 - fee.val) / (entry p.rates i).val ∧
      (r₂.amountOut.val ≤ dx.val ↔
        (entry xs i).val ≤ y.val + fee.val + (entry p.rates i).val) := by
  obtain ⟨rfl, s, t, hs, ht⟩ := exists_roundTrip_derivation h₁ h₂
  obtain ⟨hrequired, -⟩ := hs.required_back hp ht
  have hgross := hs.gross_back hp ht
  have hrate := hp.rate_pos hs.lt_in
  have hle := ht.scaledFee_le
  refine ⟨s.scaled, t.invariant, t.required, t.gross, t.scaledFee, hs.scaled, ht.invariant,
    hrequired, hgross, ht.scaledFee, ?_, ?_⟩
  · rw [ht.amountOut]
    exact gain_eq hrate hle hgross
  · rw [ht.amountOut, ← Nat.lt_succ_iff]
    show (t.gross.val - t.scaledFee.val) / (entry p.rates i).val < dx.val + 1 ↔ _
    rw [Nat.div_lt_iff_lt_mul hrate, Nat.add_mul, Nat.one_mul]
    omega

/-- As long as the balances before the round trip do not lie above the curve of the invariant in
    between, the trader loses. -/
theorem roundTrip_lt_of_not_exceeds (hp : p.WellFormed)
    (h₁ : p.exchange i j dx = .ok (r₁, p₁)) (h₂ : p₁.exchange j i r₁.amountOut = .ok (r₂, p₂))
    {xs : List Amount} {d : Amount} {q : Curve.Balance.Quadratic} (hxs : p.scaled = .ok xs)
    (hd : p₁.invariant = .ok d) (hq : Curve.Balance.quadratic xs p.amplification i d = .ok q)
    (hbelow : ¬ q.Exceeds (entry xs i).val) : r₂.amountOut.val < dx.val := by
  obtain ⟨rfl, s, t, hs, ht⟩ := exists_roundTrip_derivation h₁ h₂
  obtain ⟨hrequired, -⟩ := hs.required_back hp ht
  obtain rfl : s.scaled = xs := eq_of_eq_ok hs.scaled hxs
  obtain rfl : t.invariant = d := eq_of_eq_ok ht.invariant hd
  obtain ⟨q', hq', hexceeds⟩ := Curve.exceeds_of_balance hrequired
  obtain rfl : q' = q := eq_of_eq_ok hq' hq
  have hlt : (entry s.scaled i).val < t.required.val + 1 := by
    by_contra hle
    exact hbelow (hexceeds.mono (Nat.not_lt.1 hle))
  have hgross := hs.gross_back hp ht
  have hpos := ht.gross_pos
  have hrate := hp.rate_pos hs.lt_in
  rw [ht.amountOut]
  show (t.gross.val - t.scaledFee.val) / (entry p.rates i).val < dx.val
  rw [Nat.div_lt_iff_lt_mul hrate]
  omega

/-! ## A trader who gains -/

/-- A pool with rates of one and far more of one asset than of the other two. -/
def lopsidedTriple : Pool where
  amplification := 1
  balances := [50, 974046, 2]
  rates := [1, 1, 1]
  fees := .standard
  supply := 0

theorem wellFormed_lopsidedTriple : lopsidedTriple.WellFormed where
  two_le := by decide
  length_rates := by decide
  rates_pos := by decide
  trade_valid := by decide
  withdraw_valid := by decide

/-- The outcome of paying in 1938 of the asset that abounds. -/
def lopsidedExchange : Exchange where
  assetIn := 1
  assetOut := 0
  amountIn := 1938
  amountOut := 1
  fee := 0
  balances := [49, 975984, 2]

/-- The outcome of paying back the one that was received. -/
def lopsidedReturn : Exchange where
  assetIn := 0
  assetOut := 1
  amountIn := 1
  amountOut := 9624
  fee := 3
  balances := [50, 966360, 2]

/-- For the 1938 that were paid in, 9624 are returned, after a fee of 3. -/
theorem roundTrip_lopsidedTriple :
    ∃ p₁ p₂ : Pool,
      lopsidedTriple.exchange 1 0 1938 = .ok (lopsidedExchange, p₁) ∧
      p₁.exchange 0 1 lopsidedExchange.amountOut = .ok (lopsidedReturn, p₂) ∧
      ∃ (xs : List Amount) (d y gross fee : Amount),
        lopsidedTriple.scaled = .ok xs ∧
        p₁.invariant = .ok d ∧
        Curve.balance xs lopsidedTriple.amplification 1 d = .ok y ∧
        gross.val + y.val + 1 =
          1938 * (entry lopsidedTriple.rates 1).val + (entry xs 1).val ∧
        lopsidedTriple.fees.tradeFee gross = .ok fee ∧
        (9624 : ℤ) - 1938 =
          ((entry xs 1).val - y.val - 1 - fee.val) / (entry lopsidedTriple.rates 1).val ∧
        (9624 ≤ 1938 ↔
          (entry xs 1).val ≤ y.val + fee.val + (entry lopsidedTriple.rates 1).val) := by
  have h₁ : lopsidedTriple.exchange 1 0 1938 =
      .ok (lopsidedExchange, lopsidedTriple.withBalances lopsidedExchange.balances) := by
    decide +kernel
  have h₂ : (lopsidedTriple.withBalances lopsidedExchange.balances).exchange 0 1
      lopsidedExchange.amountOut =
        .ok (lopsidedReturn, lopsidedTriple.withBalances lopsidedReturn.balances) := by
    decide +kernel
  exact ⟨_, _, h₁, h₂, roundTrip_le_iff wellFormed_lopsidedTriple h₁ h₂⟩

end StableSwap.Pool
