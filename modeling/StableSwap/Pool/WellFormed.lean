import StableSwap.Pool

/-!
# Well-formed pools

What every operation may rely on: there are at least two assets, each has one
balance and one positive rate, and no fee takes more than the whole amount.

Main statements:

* `wellFormed_of_ofConfig`, `assetCount_of_ofConfig`: a pool built from a configuration is
  well-formed and has the assets that it names.
* `WellFormed.withBalances`, `WellFormed.withSupply`: it stays so when it takes
  over as many balances, or another supply.
-/

namespace StableSwap.Pool

/-- What every operation on a pool may rely on. -/
structure WellFormed (p : Pool) : Prop where
  two_le : 2 ≤ p.assetCount
  length_rates : p.rates.length = p.assetCount
  rates_pos : ∀ rate ∈ p.rates, 0 < rate.val
  trade_valid : p.fees.trade.isValid = true
  withdraw_valid : p.fees.withdraw.isValid = true

theorem WellFormed.withBalances {p : Pool} (h : p.WellFormed) {balances : List Amount}
    (hlength : balances.length = p.assetCount) : (p.withBalances balances).WellFormed where
  two_le := by
    show 2 ≤ balances.length
    have := h.two_le
    omega
  length_rates := by
    show p.rates.length = balances.length
    rw [hlength, h.length_rates]
  rates_pos := h.rates_pos
  trade_valid := h.trade_valid
  withdraw_valid := h.withdraw_valid

theorem WellFormed.withSupply {p : Pool} (h : p.WellFormed) (supply : Amount) :
    (p.withSupply supply).WellFormed where
  two_le := h.two_le
  length_rates := h.length_rates
  rates_pos := h.rates_pos
  trade_valid := h.trade_valid
  withdraw_valid := h.withdraw_valid

/-- A pool built from a configuration is well-formed. -/
theorem wellFormed_of_ofConfig {c : Config} {p : Pool} (h : ofConfig c = .ok p) :
    p.WellFormed := by
  simp only [ofConfig, Config.validate, bind_eq_ok_iff, require_eq_ok_iff, pure, Except.pure,
    Except.ok.injEq] at h
  obtain ⟨_, ⟨_, htwo, _, _, _, _, _, hrates, _, hpos, _, hfunding, hfees⟩, balances, hbalances,
    rfl⟩ := h
  have hfees := FeeSchedule.validate_eq_ok_iff.1 hfees
  have hlength : balances.length = c.assetCount.val := by
    unfold Config.initialBalances at hbalances
    cases hf : c.funding with
    | balances amounts =>
      rw [hf] at hbalances hfunding
      cases hbalances
      exact require_eq_ok_iff.1 hfunding
    | target d =>
      rw [hf] at hbalances
      simp only [bind_eq_ok_iff] at hbalances
      obtain ⟨_, _, hmap⟩ := hbalances
      rw [length_of_mapM hmap, hrates]
  exact
    { two_le := by show 2 ≤ balances.length; omega
      length_rates := by show c.rates.length = balances.length; omega
      rates_pos := hpos
      trade_valid := hfees.1
      withdraw_valid := hfees.2 }

/-- A pool built from a configuration has as many assets as it says. -/
theorem assetCount_of_ofConfig {c : Config} {p : Pool} (h : ofConfig c = .ok p) :
    p.assetCount = c.assetCount.val := by
  have hlength := (wellFormed_of_ofConfig h).length_rates
  simp only [ofConfig, Config.validate, bind_eq_ok_iff, require_eq_ok_iff, pure, Except.pure,
    Except.ok.injEq] at h
  obtain ⟨_, ⟨_, _, _, _, _, _, _, hrates, _⟩, balances, _, rfl⟩ := h
  exact hlength.symm.trans hrates

end StableSwap.Pool
