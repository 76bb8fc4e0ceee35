import StableSwap.Proofs.Exchange.Derivation
import StableSwap.Proofs.Fee

/-!
# From the required balance to the payment

Once the curve has said what balance it requires of the asset that is paid out, the rest
of an exchange is arithmetic on that one number. In a well-formed pool there are four
ways for it to end, and the numbers tell which: the curve gives up nothing beyond the
margin, the fee on what it gives up is out of range, the rest is less than one unit of
the asset, or the exchange answers. The checks in between always pass.

Main statements:

* `previewExchange_eq`: an exchange is the search for the required balance, and then `payOut`.
* `payOut_of_not_released`, `payOut_of_fee_overflow`, `payOut_of_rounds_to_zero`, `exists_payOut`:
  the four ways to end.
* `payOut_of_released`: which of the last three it is.
* `payOut_cases`: there is no other.
-/

namespace StableSwap.Pool

/-- The rest of an exchange once the balance `required` of asset `j` is known, beside the scaled
    balances `xs`. -/
def payOut (p : Pool) (i j : ℕ) (dx : Amount) (xs : List Amount) (required : Amount) :
    Except PoolError Exchange := do
  let gross ← demand (Amount.released (entry xs j) required)
    (.rejectedTrade "output is not positive")
  let scaledFee ← p.fees.tradeFee gross
  let net ← gross.sub scaledFee "exchange: net output"
  let amountOut ← net.div (entry p.rates j)
  require (0 < amountOut.val) (.rejectedTrade "output rounds to zero")
  let fee ← scaledFee.div (entry p.rates j)
  let balanceIn ← (entry p.balances i).add dx "exchange: balance in"
  let balanceOut ← Amount.debit j (entry p.balances j) amountOut
  return { assetIn := i, assetOut := j, amountIn := dx, amountOut, fee,
           balances := (p.balances.set i balanceIn).set j balanceOut }

theorem previewExchange_eq (p : Pool) (i j : ℕ) (dx : Amount) :
    p.previewExchange i j dx = (do
      p.checkPair i j
      require (0 < dx.val) (.invalidQuantity "exchange amount must be positive")
      let xs ← p.scaled
      let deposited ← dx.mul (entry p.rates i) "exchange: dx·rate"
      let x ← deposited.add (entry xs i) "exchange: x"
      let required ← p.balanceFor i j x
      p.payOut i j dx xs required) := rfl

variable {p : Pool} {i j : ℕ} {dx required : Amount} {xs : List Amount}

/-- Where the required balance and the margin take up what there is, the exchange is rejected. -/
theorem payOut_of_not_released (h : (entry xs j).val ≤ required.val + 1) :
    p.payOut i j dx xs required = .error (.rejectedTrade "output is not positive") := by
  have hnone : Amount.released (entry xs j) required = none := by
    rw [Amount.released, if_neg (Nat.not_lt.2 h)]
  rw [payOut, hnone]
  rfl

section Released

variable {gross : ℕ}

/-- What is given up beyond the margin. -/
theorem exists_released (h : gross + required.val + 1 = (entry xs j).val) (hpos : 0 < gross) :
    ∃ g : Amount, Amount.released (entry xs j) required = some g ∧ g.val = gross := by
  have hlt : gross < Word.size 256 := by
    have := (entry xs j).isLt
    omega
  exact ⟨⟨gross, hlt⟩, Amount.released_eq_some_iff.2 ⟨hpos, h⟩, rfl⟩

/-- A fee that is out of range refuses the exchange. -/
theorem payOut_of_fee_overflow (h : gross + required.val + 1 = (entry xs j).val)
    (hpos : 0 < gross) (hfee : Word.size 256 ≤ gross * p.fees.trade.numerator.val) :
    p.payOut i j dx xs required = .error (.overflow "fee: amount·rate") := by
  obtain ⟨g, hg, rfl⟩ := exists_released h hpos
  have hrefused : p.fees.tradeFee g = .error (.overflow "fee: amount·rate") := by
    rw [FeeSchedule.tradeFee, FeeRate.fee, bind_eq_error_iff]
    exact .inl (Word.mul_eq_error_iff.2 ⟨hfee, rfl⟩)
  simp only [payOut, hg, demand, ok_bind, hrefused, error_bind]

/-- What is left after the fee, in whole units of the asset. -/
theorem exists_amountOut (hp : p.WellFormed) (hj : j < p.assetCount) {g : Amount}
    (hfee : g.val * p.fees.trade.numerator.val < Word.size 256) :
    ∃ scaledFee net amountOut : Amount, p.fees.tradeFee g = .ok scaledFee ∧
      g.sub scaledFee "exchange: net output" = .ok net ∧
      net.div (entry p.rates j) = .ok amountOut ∧
      scaledFee.val = g.val * p.fees.trade.numerator.val / FeeRate.denominator ∧
      net.val + scaledFee.val = g.val ∧
      amountOut.val = net.val / (entry p.rates j).val := by
  have hrate := hp.rate_pos hj
  have hlt : g.val * p.fees.trade.numerator.val / FeeRate.denominator < Word.size 256 :=
    Nat.lt_of_le_of_lt (Nat.div_le_self _ _) hfee
  have hcharge : p.fees.tradeFee g = .ok ⟨_, hlt⟩ := FeeRate.fee_eq_ok_iff.2 ⟨hfee, rfl⟩
  generalize (⟨_, hlt⟩ : Amount) = scaledFee at hcharge
  have hle : scaledFee.val ≤ g.val := FeeRate.fee_le hp.trade_valid hcharge
  have hnet : (g.val - scaledFee.val) + scaledFee.val = g.val := Nat.sub_add_cancel hle
  have hnet_lt : g.val - scaledFee.val < Word.size 256 :=
    Nat.lt_of_le_of_lt (Nat.sub_le _ _) g.isLt
  have hout_lt : (g.val - scaledFee.val) / (entry p.rates j).val < Word.size 256 :=
    Nat.lt_of_le_of_lt (Nat.div_le_self _ _) hnet_lt
  refine ⟨scaledFee, ⟨_, hnet_lt⟩, ⟨_, hout_lt⟩, hcharge, Word.sub_eq_ok_iff.2 hnet,
    Word.div_eq_ok_iff.2 ⟨hrate.ne', rfl⟩, (FeeRate.fee_eq_ok_iff.1 hcharge).2, hnet, rfl⟩

/-- Less than a unit of the asset is not paid. -/
theorem payOut_of_rounds_to_zero (hp : p.WellFormed) (hj : j < p.assetCount)
    (h : gross + required.val + 1 = (entry xs j).val) (hpos : 0 < gross)
    (hfee : gross * p.fees.trade.numerator.val < Word.size 256)
    (hzero : (gross - gross * p.fees.trade.numerator.val / FeeRate.denominator) /
      (entry p.rates j).val = 0) :
    p.payOut i j dx xs required = .error (.rejectedTrade "output rounds to zero") := by
  obtain ⟨g, hg, rfl⟩ := exists_released h hpos
  obtain ⟨scaledFee, net, amountOut, hcharge, hsub, hdiv, hfee', hnet, hout⟩ :=
    exists_amountOut hp hj hfee
  have hnone : ¬ 0 < amountOut.val := by
    rw [hout, show net.val = g.val - scaledFee.val by omega, hfee', hzero]
    exact Nat.lt_irrefl 0
  simp only [payOut, hg, demand, ok_bind, hcharge, hsub, hdiv, require, if_neg hnone, error_bind]

/-- Otherwise the exchange answers: the balances are in range because the scaled ones are. -/
theorem exists_payOut (hp : p.WellFormed) (hi : i < p.assetCount) (hj : j < p.assetCount)
    (hxs : p.scaled = .ok xs)
    (hin : ((entry p.balances i).val + dx.val) * (entry p.rates i).val < Word.size 256)
    (h : gross + required.val + 1 = (entry xs j).val) (hpos : 0 < gross)
    (hfee : gross * p.fees.trade.numerator.val < Word.size 256)
    (hout : 0 < (gross - gross * p.fees.trade.numerator.val / FeeRate.denominator) /
      (entry p.rates j).val) :
    ∃ r : Exchange, p.payOut i j dx xs required = .ok r ∧
      r.amountOut.val = (gross - gross * p.fees.trade.numerator.val / FeeRate.denominator) /
        (entry p.rates j).val ∧
      r.fee.val =
        gross * p.fees.trade.numerator.val / FeeRate.denominator / (entry p.rates j).val := by
  obtain ⟨g, hg, rfl⟩ := exists_released h hpos
  obtain ⟨scaledFee, net, amountOut, hcharge, hsub, hdiv, hfee', hnet, hout'⟩ :=
    exists_amountOut hp hj hfee
  have hnet' : net.val = g.val - scaledFee.val := by omega
  rw [← hfee', ← hnet', ← hout'] at hout
  rw [← hfee', ← hnet', ← hout']
  have hrate_in := hp.rate_pos hi
  have hrate := hp.rate_pos hj
  have hbalanceIn : (entry p.balances i).val + dx.val < Word.size 256 :=
    Nat.lt_of_le_of_lt (Nat.le_mul_of_pos_right _ hrate_in) hin
  -- what is paid is worth no more than what was given up, and that no more than the balance
  have hcovered : amountOut.val ≤ (entry p.balances j).val := by
    apply Nat.le_of_mul_le_mul_right _ hrate
    calc amountOut.val * (entry p.rates j).val ≤ net.val := by
          rw [hout']
          exact Nat.div_mul_le_self _ _
      _ ≤ (entry xs j).val := by omega
      _ = (entry p.balances j).val * (entry p.rates j).val := entry_scaled hxs j
  have hrest_lt : (entry p.balances j).val - amountOut.val < Word.size 256 :=
    Nat.lt_of_le_of_lt (Nat.sub_le _ _) (entry p.balances j).isLt
  have hfee_lt : scaledFee.val / (entry p.rates j).val < Word.size 256 :=
    Nat.lt_of_le_of_lt (Nat.div_le_self _ _) scaledFee.isLt
  simp only [payOut, bind_eq_ok_iff, demand_eq_ok_iff, require_eq_ok_iff]
  exact ⟨_, ⟨g, hg, scaledFee, hcharge, net, hsub, amountOut, hdiv, (), hout, ⟨_, hfee_lt⟩,
    Word.div_eq_ok_iff.2 ⟨hrate.ne', rfl⟩, ⟨_, hbalanceIn⟩, Word.add_eq_ok_iff.2 rfl,
    ⟨_, hrest_lt⟩, Amount.debit_eq_ok_iff.2 (Nat.sub_add_cancel hcovered), rfl⟩, rfl, rfl⟩

/-- How the rest of an exchange ends where something is given up. -/
theorem payOut_of_released (hp : p.WellFormed) (hi : i < p.assetCount) (hj : j < p.assetCount)
    (hxs : p.scaled = .ok xs)
    (hin : ((entry p.balances i).val + dx.val) * (entry p.rates i).val < Word.size 256)
    (h : gross + required.val + 1 = (entry xs j).val) (hpos : 0 < gross) :
    let product := gross * p.fees.trade.numerator.val
    let fee := product / FeeRate.denominator
    let rate := (entry p.rates j).val
    let out := (gross - fee) / rate
    (p.payOut i j dx xs required = .error (.overflow "fee: amount·rate") ↔
        Word.size 256 ≤ product) ∧
      (product < Word.size 256 →
        ((∃ reason, p.payOut i j dx xs required = .error (.rejectedTrade reason)) ↔ out = 0) ∧
        (out ≠ 0 → ∃ r, p.payOut i j dx xs required = .ok r ∧ r.amountOut.val = out ∧
          r.fee.val = fee / rate ∧ (r.amountOut.val + r.fee.val) * rate ≤ gross)) := by
  intro product fee rate out
  have hanswer : product < Word.size 256 → out ≠ 0 →
      ∃ r, p.payOut i j dx xs required = .ok r ∧ r.amountOut.val = out ∧
        r.fee.val = fee / rate ∧ (r.amountOut.val + r.fee.val) * rate ≤ gross := by
    intro hfee hout
    obtain ⟨r, hr, hamount, hrest⟩ :=
      exists_payOut hp hi hj hxs hin h hpos hfee (Nat.pos_of_ne_zero hout)
    refine ⟨r, hr, hamount, hrest, ?_⟩
    rw [hamount, hrest]
    have hwhole : fee ≤ gross := FeeRate.part_le hp.trade_valid gross
    exact (div_add_div_bounds (hp.rate_pos hj) _ _).1.trans_eq (Nat.sub_add_cancel hwhole)
  have hreject : product < Word.size 256 → out = 0 →
      p.payOut i j dx xs required = .error (.rejectedTrade "output rounds to zero") :=
    fun hfee hout => payOut_of_rounds_to_zero hp hj h hpos hfee hout
  refine ⟨⟨fun hoverflow => ?_, payOut_of_fee_overflow h hpos⟩, fun hfee =>
    ⟨⟨fun hrejected => ?_, fun hout => ⟨_, hreject hfee hout⟩⟩, hanswer hfee⟩⟩
  · by_contra hfee
    rw [Nat.not_le] at hfee
    by_cases hout : out = 0
    · rw [hreject hfee hout] at hoverflow
      cases hoverflow
    · obtain ⟨r, hr, -⟩ := hanswer hfee hout
      rw [hr] at hoverflow
      cases hoverflow
  · by_contra hout
    obtain ⟨reason, hreason⟩ := hrejected
    obtain ⟨r, hr, -⟩ := hanswer hfee hout
    rw [hr] at hreason
    cases hreason

end Released

/-- There is no other way for the rest of an exchange to end. -/
theorem payOut_cases (hp : p.WellFormed) (hi : i < p.assetCount) (hj : j < p.assetCount)
    (hxs : p.scaled = .ok xs)
    (hin : ((entry p.balances i).val + dx.val) * (entry p.rates i).val < Word.size 256)
    (required : Amount) :
    (∃ r, p.payOut i j dx xs required = .ok r) ∨
      p.payOut i j dx xs required = .error (.rejectedTrade "output is not positive") ∨
      p.payOut i j dx xs required = .error (.overflow "fee: amount·rate") ∨
      p.payOut i j dx xs required = .error (.rejectedTrade "output rounds to zero") := by
  rcases Nat.lt_or_ge (required.val + 1) (entry xs j).val with hlt | hge
  · obtain ⟨gross, hgross⟩ := Nat.exists_eq_add_of_lt hlt
    have hreleased : (gross + 1) + required.val + 1 = (entry xs j).val := by omega
    have hpos : 0 < gross + 1 := Nat.succ_pos gross
    rcases Nat.lt_or_ge ((gross + 1) * p.fees.trade.numerator.val) (Word.size 256) with hfee | hfee
    · rcases Nat.eq_zero_or_pos ((gross + 1 - (gross + 1) * p.fees.trade.numerator.val /
        FeeRate.denominator) / (entry p.rates j).val) with hzero | hout
      · exact .inr (.inr (.inr (payOut_of_rounds_to_zero hp hj hreleased hpos hfee hzero)))
      · obtain ⟨r, hr, -⟩ := exists_payOut hp hi hj hxs hin hreleased hpos hfee hout
        exact .inl ⟨r, hr⟩
    · exact .inr (.inr (.inl (payOut_of_fee_overflow hreleased hpos hfee)))
  · exact .inr (.inl (payOut_of_not_released hge))

end StableSwap.Pool
