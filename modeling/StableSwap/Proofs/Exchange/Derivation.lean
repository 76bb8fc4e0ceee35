import StableSwap.Pool.Exchange
import StableSwap.Proofs.Pool.Scaling

/-!
# How an exchange comes about

The values that an exchange goes through on its way to the outcome, and what
ties them together. Every statement about exchanges starts from here and does
not open the operation again.

Main statements:

* `exists_derivation`: an exchange that answers has such values.
* `Derivation.entry_balances`: the balances after the exchange.
* `Derivation.scaled_rest`: what is left, in scaled units, of the asset that is paid out.
* `Derivation.scaled_after`: the scaled balances after the exchange.
-/

namespace StableSwap.Pool

/-- The values that an exchange goes through. -/
structure ExchangeTerms where
  /-- The scaled balances before the exchange. -/
  scaled : List Amount
  invariant : Amount
  /-- The scaled balance of the asset that is paid in, after the payment. -/
  paidIn : Amount
  /-- The scaled balance that the invariant then requires of the other asset. -/
  required : Amount
  /-- What the curve gives up, less the margin. -/
  gross : Amount
  scaledFee : Amount

/-- The terms lead from the pool to the outcome of paying in `dx` of asset `i` for asset `j`. -/
structure ExchangeTerms.Derivation (t : ExchangeTerms) (p : Pool) (i j : ℕ) (dx : Amount)
    (r : Exchange) : Prop where
  lt_in : i < p.assetCount
  lt_out : j < p.assetCount
  ne : i ≠ j
  dx_pos : 0 < dx.val
  scaled : p.scaled = .ok t.scaled
  invariant : p.invariant = .ok t.invariant
  paidIn : t.paidIn.val = dx.val * (entry p.rates i).val + (entry t.scaled i).val
  required : Curve.balance (t.scaled.set i t.paidIn) p.amplification j t.invariant =
    .ok t.required
  gross_pos : 0 < t.gross.val
  gross : t.gross.val + t.required.val + 1 = (entry t.scaled j).val
  scaledFee : p.fees.tradeFee t.gross = .ok t.scaledFee
  scaledFee_le : t.scaledFee.val ≤ t.gross.val
  amountOut : r.amountOut.val = (t.gross.val - t.scaledFee.val) / (entry p.rates j).val
  amountOut_pos : 0 < r.amountOut.val
  fee : r.fee.val = t.scaledFee.val / (entry p.rates j).val
  balances : ∃ balanceIn balanceOut : Amount,
    balanceIn.val = (entry p.balances i).val + dx.val ∧
      balanceOut.val + r.amountOut.val = (entry p.balances j).val ∧
      r.balances = (p.balances.set i balanceIn).set j balanceOut

theorem checkPair_eq_ok_iff {p : Pool} {i j : ℕ} {u : Unit} :
    p.checkPair i j = .ok u ↔ i < p.assetCount ∧ j < p.assetCount ∧ i ≠ j := by
  simp only [checkPair, checkAsset, bind_eq_ok_iff, require_eq_ok_iff, exists_const]

theorem exchange_eq_ok_iff {p p' : Pool} {i j : ℕ} {dx : Amount} {r : Exchange} :
    p.exchange i j dx = .ok (r, p') ↔
      p.previewExchange i j dx = .ok r ∧ p' = p.withBalances r.balances :=
  bind_pair_eq_ok_iff

/-- An exchange that answers has terms that lead to its outcome. -/
theorem exists_derivation {p : Pool} {i j : ℕ} {dx : Amount} {r : Exchange}
    (h : p.previewExchange i j dx = .ok r) : ∃ t : ExchangeTerms, t.Derivation p i j dx r := by
  simp only [previewExchange, balanceFor, checkPair, checkAsset, bind_eq_ok_iff,
    require_eq_ok_iff, demand_eq_ok_iff, Word.mul_eq_ok_iff, Word.add_eq_ok_iff,
    Word.sub_eq_ok_iff, Word.div_eq_ok_iff, Amount.released_eq_some_iff, Amount.debit_eq_ok_iff,
    pure, Except.pure, Except.ok.injEq] at h
  obtain ⟨_, ⟨_, hi, _, hj, hne⟩, _, hdx, xs, hxs, deposited, hdeposited, x, hx, y,
    ⟨_, _, xs', hxs', d, hd, hy⟩, gross, ⟨hgross_pos, hgross⟩, scaledFee, hfee, net, hnet,
    amountOut, ⟨_, hout⟩, _, hout_pos, fee, ⟨_, hfee'⟩, balanceIn, hin, balanceOut, hrest, rfl⟩ := h
  obtain rfl : xs = xs' := eq_of_eq_ok hxs hxs'
  have hle : scaledFee.val ≤ gross.val := by omega
  have hnet' : net.val = gross.val - scaledFee.val := by omega
  refine ⟨⟨xs, d, x, y, gross, scaledFee⟩, ?_⟩
  exact
    { lt_in := hi
      lt_out := hj
      ne := hne
      dx_pos := hdx
      scaled := hxs
      invariant := by
        rw [invariant, invariantOf, bind_eq_ok_iff]
        exact ⟨xs, hxs, hd⟩
      paidIn := by rw [hx, hdeposited]
      required := hy
      gross_pos := hgross_pos
      gross := hgross
      scaledFee := hfee
      scaledFee_le := hle
      amountOut := by rw [hout, hnet']
      amountOut_pos := hout_pos
      fee := hfee'
      balances := ⟨balanceIn, balanceOut, hin, hrest, rfl⟩ }

namespace ExchangeTerms.Derivation

variable {t : ExchangeTerms} {p : Pool} {i j : ℕ} {dx : Amount} {r : Exchange}

/-- The payment leaves the balance of the other asset, which falls by what is paid out. -/
theorem entry_rest (h : t.Derivation p i j dx r) :
    (entry r.balances j).val + r.amountOut.val = (entry p.balances j).val := by
  obtain ⟨balanceIn, balanceOut, -, hrest, hbalances⟩ := h.balances
  rw [hbalances, entry_set_self (by rw [List.length_set]; exact h.lt_out), hrest]

theorem length_balances (h : t.Derivation p i j dx r) : r.balances.length = p.assetCount := by
  obtain ⟨balanceIn, balanceOut, -, -, hbalances⟩ := h.balances
  rw [hbalances, List.length_set, List.length_set]
  rfl

/-- An exchange adds the payment to the balance of one asset and takes what it pays out off that of
    the other. -/
theorem entry_balances (h : t.Derivation p i j dx r) (k : ℕ) :
    (entry r.balances k).val + (if k = j then r.amountOut.val else 0) =
      (entry p.balances k).val + (if k = i then dx.val else 0) := by
  by_cases hk : k = j
  · subst hk
    rw [if_pos rfl, if_neg (Ne.symm h.ne), h.entry_rest, Nat.add_zero]
  · obtain ⟨balanceIn, balanceOut, hin, -, hbalances⟩ := h.balances
    rw [hbalances, entry_set_of_ne (Ne.symm hk), if_neg hk, Nat.add_zero]
    by_cases hi : k = i
    · subst hi
      rw [entry_set_self h.lt_in, if_pos rfl, hin]
    · rw [entry_set_of_ne (Ne.symm hi), if_neg hi, Nat.add_zero]

/-- The scaled balance that an exchange leaves of the asset it pays out: what the invariant
    requires, the margin, the fee, and what the division by the rate left over. -/
theorem scaled_rest (h : t.Derivation p i j dx r) :
    (entry r.balances j).val * (entry p.rates j).val =
      t.required.val + 1 + t.scaledFee.val +
        (t.gross.val - t.scaledFee.val) % (entry p.rates j).val := by
  have hxs := entry_scaled h.scaled j
  have hdivision := Nat.div_add_mod (t.gross.val - t.scaledFee.val) (entry p.rates j).val
  rw [← h.amountOut, Nat.mul_comm] at hdivision
  rw [← h.entry_rest, Nat.add_mul, ← h.gross] at hxs
  have hle := h.scaledFee_le
  omega

/-- The scaled balances after an exchange differ from those before it in the two assets that
    were exchanged. -/
theorem scaled_after (h : t.Derivation p i j dx r) (hp : p.WellFormed) :
    ∃ z : Amount, z.val = (entry r.balances j).val * (entry p.rates j).val ∧
      (p.withBalances r.balances).scaled = .ok ((t.scaled.set i t.paidIn).set j z) := by
  obtain ⟨balanceIn, balanceOut, hin, hrest, hbalances⟩ := h.balances
  have hlength := hp.length_scaled h.scaled
  have hi : i < t.scaled.length := by rw [hlength]; exact h.lt_in
  have hj : j < (t.scaled.set i t.paidIn).length := by
    rw [List.length_set, hlength]
    exact h.lt_out
  have hrest' : entry r.balances j = balanceOut := by
    rw [hbalances, entry_set_self (by rw [List.length_set]; exact h.lt_out)]
  have hz : balanceOut.val * (entry p.rates j).val < Word.size 256 := by
    have hxs := entry_scaled h.scaled j
    have hle : balanceOut.val * (entry p.rates j).val ≤ (entry t.scaled j).val := by
      rw [hxs, ← hrest]
      exact Nat.mul_le_mul_right _ (Nat.le_add_right _ _)
    exact Nat.lt_of_le_of_lt hle (entry t.scaled j).isLt
  have hpaid : t.paidIn.val = balanceIn.val * (entry p.rates i).val := by
    rw [h.paidIn, hin, entry_scaled h.scaled i, Nat.add_mul, Nat.add_comm]
  refine ⟨⟨_, hz⟩, by rw [hrest'], ?_⟩
  show p.scale r.balances = _
  rw [hbalances]
  exact scale_set (scale_set h.scaled hi hpaid) hj rfl

end ExchangeTerms.Derivation

/-! ## An exchange to look at -/

/-- A pool with rates of one whose balances lie far apart. -/
def unevenPair : Pool where
  amplification := 3
  balances := [48, 7]
  rates := [1, 1]
  fees := .standard
  supply := 0

theorem wellFormed_unevenPair : unevenPair.WellFormed where
  two_le := by decide
  length_rates := by decide
  rates_pos := by decide
  trade_valid := by decide
  withdraw_valid := by decide

/-- The outcome of paying in 5 of the asset that the pool has too much of. -/
def unevenExchange : Exchange where
  assetIn := 0
  assetOut := 1
  amountIn := 5
  amountOut := 2
  fee := 0
  balances := [53, 5]

theorem previewExchange_unevenPair :
    unevenPair.previewExchange 0 1 5 = .ok unevenExchange := by
  decide +kernel

end StableSwap.Pool
