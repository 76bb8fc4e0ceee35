import StableSwap.Proofs.Exchange.Payment

/-!
# A quote and the exchange that it is for

A quote says what the curve gives up for a payment that is given in the common unit; an
exchange is told the payment in units of the asset, keeps the margin, takes the fee, and
pays in units of the other asset. Each forms the balances after the payment in its own
way. They ask the curve the same all the same, so that the exchange ends as the quote
says, down to the cause of a refusal.

Main statements:

* `quote_of_scaled`, `previewExchange_of_scaled`: both are the search for the same balance, and
  then what each makes of it.
* `payOut_of_quoted`: what an exchange makes of it, told from the fall of the balance.
* `previewExchange_of_quote`: how the exchange ends, told from the quote.
-/

namespace StableSwap.Pool

variable {p : Pool} {i j : ℕ} {dx payment : Amount} {xs : List Amount}

section Scaled

variable (hpair : p.checkPair i j = .ok ()) (hxs : p.scaled = .ok xs)
include hpair hxs

/-- Once the balances are scaled, a quote searches for the balance beside the payment. -/
theorem quote_of_scaled {x : Amount} (hx : x.val = (entry xs i).val + payment.val) :
    p.quote i j payment = (do return (entry xs j).monus (← p.balanceFor i j x)) := by
  have hadd : (entry xs i).add payment "quote: x" = .ok x := Word.add_eq_ok_iff.2 hx
  simp only [quote, hpair, hxs, hadd, ok_bind]

/-- An exchange searches for the same balance, and pays what it comes to. -/
theorem previewExchange_of_scaled (hdx : 0 < dx.val)
    (hpayment : payment.val = dx.val * (entry p.rates i).val) {x : Amount}
    (hx : x.val = (entry xs i).val + payment.val) :
    p.previewExchange i j dx = (do p.payOut i j dx xs (← p.balanceFor i j x)) := by
  have hmul : dx.mul (entry p.rates i) "exchange: dx·rate" = .ok payment :=
    Word.mul_eq_ok_iff.2 hpayment
  have hadd : payment.add (entry xs i) "exchange: x" = .ok x := by
    rw [Word.add_eq_ok_iff, hx, Nat.add_comm]
  simp only [previewExchange_eq, hpair, require, if_pos hdx, hxs, hmul, hadd, ok_bind]

end Scaled

/-- The rest of an exchange, told from the fall of the balance to the required one. -/
theorem payOut_of_quoted (hp : p.WellFormed) (hi : i < p.assetCount) (hj : j < p.assetCount)
    (hxs : p.scaled = .ok xs)
    (hin : ((entry p.balances i).val + dx.val) * (entry p.rates i).val < Word.size 256)
    {required q : Amount} (hq : q = (entry xs j).monus required) :
    (q.val ≤ 1 → p.payOut i j dx xs required = .error (.rejectedTrade "output is not positive")) ∧
    (1 < q.val →
      let gross := q.val - 1
      let product := gross * p.fees.trade.numerator.val
      let fee := product / FeeRate.denominator
      let rate := (entry p.rates j).val
      let out := (gross - fee) / rate
      (p.payOut i j dx xs required = .error (.overflow "fee: amount·rate") ↔
        Word.size 256 ≤ product) ∧
      (product < Word.size 256 →
        ((∃ reason, p.payOut i j dx xs required = .error (.rejectedTrade reason)) ↔ out = 0) ∧
        (out ≠ 0 → ∃ r, p.payOut i j dx xs required = .ok r ∧ r.amountOut.val = out ∧
          r.fee.val = fee / rate ∧ (r.amountOut.val + r.fee.val) * rate ≤ gross))) := by
  have hval : q.val = (entry xs j).val - required.val := by rw [hq, Word.val_monus]
  constructor
  · intro hle
    exact payOut_of_not_released (by omega)
  · intro hlt
    exact payOut_of_released hp hi hj hxs hin (by omega) (Nat.sub_pos_of_lt hlt)

/-- How an exchange ends, told from the quote for its payment, where the payment and the scaled
    balance with the payment added are in range. A quote that is refused refuses the exchange for
    the same cause. A quote of one unit at most is taken up by the margin, and the exchange is
    rejected. Of any other quote one unit less is given up; the exchange is refused if the fee on
    that is out of range, rejected if what is left after the fee is less than a unit of the asset,
    and pays what is left in whole units otherwise. -/
theorem previewExchange_of_quote (hp : p.WellFormed) (hi : i < p.assetCount)
    (hj : j < p.assetCount) (hne : i ≠ j) (hdx : 0 < dx.val)
    (hpayment : payment.val = dx.val * (entry p.rates i).val)
    (hsum : (entry p.balances i).val * (entry p.rates i).val + payment.val < Word.size 256) :
    (∀ e, p.quote i j payment = .error e → p.previewExchange i j dx = .error e) ∧
    ∀ q, p.quote i j payment = .ok q →
      (q.val ≤ 1 → p.previewExchange i j dx = .error (.rejectedTrade "output is not positive")) ∧
      (1 < q.val →
        let gross := q.val - 1
        let product := gross * p.fees.trade.numerator.val
        let fee := product / 10 ^ 10
        let rate := (entry p.rates j).val
        let out := (gross - fee) / rate
        (p.previewExchange i j dx = .error (.overflow "fee: amount·rate") ↔ 2 ^ 256 ≤ product) ∧
        (product < 2 ^ 256 →
          ((∃ reason, p.previewExchange i j dx = .error (.rejectedTrade reason)) ↔ out = 0) ∧
          (out ≠ 0 → ∃ r, p.previewExchange i j dx = .ok r ∧ r.amountOut.val = out ∧
            r.fee.val = fee / rate ∧ (r.amountOut.val + r.fee.val) * rate ≤ gross))) := by
  have hpair : p.checkPair i j = .ok () := checkPair_eq_ok_iff.2 ⟨hi, hj, hne⟩
  cases hscaled : p.scaled with
  | error e =>
    have hquote : p.quote i j payment = .error e := by
      simp only [quote, hpair, hscaled, ok_bind, error_bind]
    have hexchange : p.previewExchange i j dx = .error e := by
      simp only [previewExchange_eq, hpair, require, if_pos hdx, hscaled, ok_bind, error_bind]
    rw [hquote, hexchange]
    constructor
    · rintro e' ⟨⟩
      rfl
    · rintro q ⟨⟩
  | ok xs =>
    have hsum' : (entry xs i).val + payment.val < Word.size 256 := by
      rw [entry_scaled hscaled]
      exact hsum
    have hin : ((entry p.balances i).val + dx.val) * (entry p.rates i).val < Word.size 256 := by
      rw [Nat.add_mul, ← hpayment]
      exact hsum
    have hquote : p.quote i j payment = _ := quote_of_scaled hpair hscaled (x := ⟨_, hsum'⟩) rfl
    have hexchange :=
      previewExchange_of_scaled hpair hscaled hdx hpayment (x := ⟨_, hsum'⟩) rfl
    cases hrequired : p.balanceFor i j ⟨_, hsum'⟩ with
    | error e =>
      rw [hrequired, error_bind] at hquote hexchange
      rw [hquote, hexchange]
      constructor
      · rintro e' ⟨⟩
        rfl
      · rintro q ⟨⟩
    | ok required =>
      rw [hrequired, ok_bind] at hquote hexchange
      rw [hquote, hexchange]
      constructor
      · rintro e ⟨⟩
      · rintro q ⟨⟩
        exact payOut_of_quoted hp hi hj hscaled hin rfl

/-- A pool with rates other than one and a fee of an eighth on trades. -/
def tolledPair : Pool :=
  { unevenPair with rates := [5, 3], fees := ⟨⟨⟨1250000000, by decide⟩⟩, .zero⟩ }

theorem wellFormed_tolledPair : tolledPair.WellFormed where
  two_le := by decide
  length_rates := by decide
  rates_pos := by decide
  trade_valid := by decide
  withdraw_valid := by decide

/-- For 10 of the second asset 65 are quoted. Of the 64 beside the margin 8 are the fee, and the
    remaining 56 pay for 11 of the first asset. -/
theorem previewExchange_of_quote_tolledPair :
    tolledPair.quote 1 0 30 = .ok 65 ∧
      ∃ r, tolledPair.previewExchange 1 0 10 = .ok r ∧ r.amountOut = 11 ∧ r.fee = 1 ∧
        (r.amountOut.val + r.fee.val) * 5 ≤ 64 := by
  have hquote : tolledPair.quote 1 0 30 = .ok 65 := by decide +kernel
  obtain ⟨-, hanswers⟩ := @previewExchange_of_quote tolledPair 1 0 10 30 wellFormed_tolledPair
    (by decide) (by decide) (by decide) (by decide) rfl (by decide)
  obtain ⟨-, hends⟩ := (hanswers 65 hquote).2 (by decide)
  obtain ⟨r, hr, hamount, hfee, hle⟩ := (hends (by decide)).2 (by decide)
  have hamount' : r.amountOut = 11 := Word.ext hamount
  have hfee' : r.fee = 1 := Word.ext hfee
  exact ⟨hquote, r, hr, hamount', hfee', hle⟩

end StableSwap.Pool
