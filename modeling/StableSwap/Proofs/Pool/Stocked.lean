import StableSwap.Proofs.Curve.Enclosure
import StableSwap.Proofs.Redemption.Value
import StableSwap.Proofs.Shares.Derivation

/-!
# Balances that stay positive

A pool that lacks an asset is of no use: its invariant, and with it every later
operation, divides by zero. Of the three ways to leave a pool, the proportional one
never takes the last of an asset, and the one in named amounts is settled by the
invariant of what it leaves. A redemption into one asset writes back whole units, and
may round away the last one: of an asset of which there was a single unit, when a fee
is charged on it, and of the redeemed asset, when less than a unit of it is left.

Main statements:

* `invariant_ne_divisionByZero`: what a pool with something of every asset is spared.
* `stocked_of_withdraw`, `stocked_of_withdrawImbalanced`: the withdrawals that leave
  something of every asset.
* `RedemptionTerms.Derivation.entry_pos_iff`: what a redemption leaves.
* `withdrawals_keep_stocked`: all three.
* `withdrawals_empty_asset`: redemptions and a withdrawal that empty an asset.
-/

namespace StableSwap.Pool

/-- There is something of every asset. -/
def Stocked (p : Pool) : Prop := ∀ b ∈ p.balances, 0 < b.val

instance (p : Pool) : Decidable p.Stocked := by
  unfold Stocked
  infer_instance

variable {p p' : Pool}

theorem stocked_iff_entry : p.Stocked ↔ ∀ k < p.assetCount, 0 < (entry p.balances k).val := by
  constructor
  · intro h k hk
    rw [entry_of_lt hk]
    exact h _ (List.getElem_mem hk)
  · intro h b hb
    obtain ⟨k, hk, rfl⟩ := List.getElem_of_mem hb
    have hpos := h k hk
    rwa [entry_of_lt hk] at hpos

/-- Where the scaled balances are positive, the balances are. -/
theorem WellFormed.stocked_of_scaled (hp : p.WellFormed) {xs : List Amount}
    (hxs : p.scaled = .ok xs) (hpos : ∀ x ∈ xs, 0 < x.val) : p.Stocked := by
  rw [stocked_iff_entry]
  intro k hk
  have hlt : k < xs.length := by rwa [hp.length_scaled hxs]
  have hx := hpos _ (List.getElem_mem hlt)
  rw [← entry_of_lt hlt, entry_scaled hxs] at hx
  exact Nat.pos_of_mul_pos_right hx

/-- The invariant of a pool with something of every asset is not refused for a division by zero. -/
theorem WellFormed.invariant_ne_divisionByZero (hp : p.WellFormed) (h : p.Stocked) :
    p.invariant ≠ .error .divisionByZero := by
  intro herror
  rw [invariant, invariantOf, bind_eq_error_iff] at herror
  obtain hscale | ⟨xs, hxs, hinvariant⟩ := herror
  · obtain ⟨x, _, hmul⟩ := exists_step_of_mapM_error hscale
    cases (Word.mul_eq_error_iff.1 hmul).2
  · exact Curve.invariant_ne_divisionByZero (hp.scale_pos hxs h) hinvariant

/-! ## Withdrawals -/

/-- A withdrawal of part of the shares leaves something of every asset: it pays at most the part
    of each balance that the shares stand for. -/
theorem stocked_of_withdraw {shares : Amount} {o : Withdrawal} (hstocked : p.Stocked)
    (hshares : shares.val < p.supply.val) (h : p.withdraw shares = .ok (o, p')) : p'.Stocked := by
  obtain ⟨hpreview, rfl⟩ := withdraw_eq_ok_iff.1 h
  obtain ⟨hsupply, _, _, hentry⟩ := entry_of_withdrawal hpreview
  rw [stocked_iff_entry] at hstocked ⊢
  intro k hk
  show 0 < (entry o.balances k).val
  change k < o.balances.length at hk
  rw [length_of_withdrawal hpreview] at hk
  obtain ⟨hrest, hvalue⟩ := hentry k
  have hpart : (entry p.balances k).val * shares.val / p.supply.val < (entry p.balances k).val := by
    apply Nat.div_lt_of_lt_mul
    rw [Nat.mul_comm]
    exact Nat.mul_lt_mul_of_pos_right hshares (hstocked k hk)
  omega

/-- A withdrawal in named amounts never takes everything: the shares for that and one more are not
    there. -/
theorem WithdrawalTerms.Derivation.sum_pos {t : WithdrawalTerms} {amounts : List Amount}
    {o : ImbalancedWithdrawal} (h : t.Derivation p amounts o) {xs : List Amount}
    (hxs : p.scale o.balances = .ok xs) : 0 < (xs.map (·.val)).sum := by
  obtain ⟨ys, hys, hinvariant⟩ := invariantOf_eq_ok_iff.1 h.after
  obtain rfl : xs = ys := eq_of_eq_ok hxs hys
  by_contra hzero
  have hafter := Curve.eq_sum_of_invariant hinvariant (by omega)
  have hall : (o.invariantBefore.val - o.invariantAfter.val) * p.supply.val /
      o.invariantBefore.val = p.supply.val := by
    rw [show o.invariantAfter.val = 0 by omega, Nat.sub_zero]
    exact Nat.mul_div_cancel_left _ h.before_pos
  have hburned := h.burned
  have hle := h.burned_le
  omega

/-- A withdrawal in named amounts leaves something of every asset if it leaves more than one unit of
    the common scale in all, because the invariant of what it leaves has to be found. -/
theorem stocked_of_withdrawImbalanced {amounts : List Amount} {o : ImbalancedWithdrawal}
    (hp : p.WellFormed) (h : p.withdrawImbalanced amounts = .ok (o, p')) {xs : List Amount}
    (hxs : p'.scaled = .ok xs) (hsum : (xs.map (·.val)).sum ≠ 1) : p'.Stocked := by
  obtain ⟨hpreview, rfl⟩ := withdrawImbalanced_eq_ok_iff.1 h
  obtain ⟨t, ht⟩ := previewImbalancedWithdrawal_eq_ok_iff.1 hpreview
  have hpos := ht.sum_pos hxs
  obtain ⟨ys, hys, hinvariant⟩ := invariantOf_eq_ok_iff.1 ht.after
  obtain rfl : xs = ys := eq_of_eq_ok hxs hys
  apply (hp.withBalances ht.length_balances).stocked_of_scaled hxs
  exact Curve.pos_of_invariant hinvariant (by omega)

/-! ## Redemptions -/

/-- What a redemption leaves of the redeemed asset in the common scale, before it is written back:
    more than the lowered invariant requires. -/
theorem RedemptionTerms.Derivation.exists_rest {t : RedemptionTerms} {shares : Amount} {i : ℕ}
    {o : RedemptionQuote} (h : t.Derivation p shares i o) :
    ∃ z, z + o.amount.val * (entry p.rates i).val = (entry t.charged i).val ∧
      t.required.val < z := by
  have hpaid : o.amount.val * (entry p.rates i).val ≤ t.gross.val := by
    rw [h.amount]
    exact (Nat.div_mul_le_self _ _).trans (Nat.sub_le _ _)
  have hgross := h.gross
  exact ⟨(entry t.charged i).val - o.amount.val * (entry p.rates i).val, by omega, by omega⟩

/-- A redemption empties another asset only if there was a single unit of it, and then exactly if
    anything is charged on it; it empties the redeemed asset exactly if less than a unit is
    left. -/
theorem RedemptionTerms.Derivation.entry_pos_iff {t : RedemptionTerms} {shares : Amount} {i : ℕ}
    {o : RedemptionQuote} (h : t.Derivation p shares i o) (hp : p.WellFormed)
    (hstocked : p.Stocked) {z : ℕ}
    (hz : z + o.amount.val * (entry p.rates i).val = (entry t.charged i).val) :
    (∀ k < p.assetCount, k ≠ i → (0 < (entry o.balancesAfter k).val ↔
      2 ≤ (entry p.balances k).val ∨ entry t.charged k = entry t.scaled k)) ∧
      (0 < (entry o.balancesAfter i).val ↔ (entry p.rates i).val ≤ z) := by
  constructor
  · intro k hk hki
    have hlt : k < t.scaled.length := by rwa [hp.length_scaled h.scaled]
    have hrate := hp.rate_pos hk
    have hbalance := stocked_iff_entry.1 hstocked k hk
    have hscaled := entry_scaled h.scaled k
    have hhalf := h.entry_scaled_le hp hlt hki
    have hle := h.entry_charged_le k
    have hwritten := h.entry_balances k
    rw [if_neg hki, Nat.add_zero] at hwritten
    rw [hwritten, Nat.div_pos_iff]
    constructor
    · intro ⟨_, hunit⟩
      by_contra hnone
      obtain ⟨hone, hfee⟩ := not_or.1 hnone
      rw [show (entry p.balances k).val = 1 by omega, Nat.one_mul] at hscaled
      exact hfee (Word.ext (by omega))
    · intro hkeep
      refine ⟨hrate, ?_⟩
      obtain htwo | hfree := hkeep
      · have hdouble : 2 * (entry p.rates k).val ≤
            (entry p.balances k).val * (entry p.rates k).val := Nat.mul_le_mul_right _ htwo
        omega
      · rw [hfree, hscaled]
        exact Nat.le_mul_of_pos_left _ hbalance
  · have hrate := hp.rate_pos h.lt_asset
    have hwritten := h.entry_balances i
    rw [if_pos rfl, ← hz, Nat.add_mul_div_right _ _ hrate] at hwritten
    rw [Nat.add_right_cancel hwritten, Nat.div_pos_iff]
    exact and_iff_right hrate

/-! ## All ways out -/

/-- Withdrawals from a pool with something of every asset. A proportional withdrawal of part of the
    shares leaves something of every asset, and so does a withdrawal in named amounts that leaves
    more than one unit of the common scale. A redemption does so with two exceptions. Of
    another asset a single unit is lost exactly if anything is charged on it; of the redeemed
    asset the last unit is lost exactly if less than a unit is left, after the fee and the payment,
    although this is more than the lowered invariant requires. While there is something of every
    asset, the invariant is not refused for a division by zero. -/
theorem withdrawals_keep_stocked (hp : p.WellFormed) (hstocked : p.Stocked) :
    (∀ (shares : Amount) (o : Withdrawal) (p' : Pool), shares.val < p.supply.val →
      p.withdraw shares = .ok (o, p') →
        p'.Stocked ∧ p'.invariant ≠ .error .divisionByZero) ∧
    (∀ (amounts : List Amount) (o : ImbalancedWithdrawal) (p' : Pool) (xs : List Amount),
      p.withdrawImbalanced amounts = .ok (o, p') → p'.scaled = .ok xs →
        (xs.map (·.val)).sum ≠ 1 →
        p'.Stocked ∧ p'.invariant ≠ .error .divisionByZero) ∧
    ∀ (shares : Amount) (i : ℕ) (o : RedemptionQuote) (p' : Pool),
      p.redeem shares i = .ok (o, p') →
      ∃ (xs charged : List Amount) (d lower fallsTo required : Amount) (z : ℕ),
        p.scaled = .ok xs ∧
        p.invariant = .ok d ∧
        p.lowered shares d = .ok lower ∧
        Curve.balance xs p.amplification i lower = .ok fallsTo ∧
        p.chargeRedemption i d lower fallsTo xs = .ok charged ∧
        Curve.balance charged p.amplification i lower = .ok required ∧
        z + o.amount.val * (entry p.rates i).val = (entry charged i).val ∧
        required.val < z ∧
        (∀ k < p.assetCount, k ≠ i → (0 < (entry p'.balances k).val ↔
          2 ≤ (entry p.balances k).val ∨ entry charged k = entry xs k)) ∧
        (0 < (entry p'.balances i).val ↔ (entry p.rates i).val ≤ z) ∧
        (p'.Stocked → p'.invariant ≠ .error .divisionByZero) := by
  refine ⟨?_, ?_, ?_⟩
  · intro shares o p' hshares h
    have hkeep := stocked_of_withdraw hstocked hshares h
    obtain ⟨hpreview, rfl⟩ := withdraw_eq_ok_iff.1 h
    exact ⟨hkeep,
      (hp.withBalances (length_of_withdrawal hpreview)).invariant_ne_divisionByZero hkeep⟩
  · intro amounts o p' xs h hxs hsum
    have hkeep := stocked_of_withdrawImbalanced hp h hxs hsum
    obtain ⟨hpreview, rfl⟩ := withdrawImbalanced_eq_ok_iff.1 h
    obtain ⟨t, ht⟩ := previewImbalancedWithdrawal_eq_ok_iff.1 hpreview
    exact ⟨hkeep, (hp.withBalances ht.length_balances).invariant_ne_divisionByZero hkeep⟩
  · intro shares i o p' h
    obtain ⟨hquote, rfl⟩ := redeem_eq_ok h
    obtain ⟨t, ht⟩ := exists_redemption_derivation hquote
    obtain ⟨z, hz, hrequired⟩ := ht.exists_rest
    obtain ⟨hothers, hredeemed⟩ := ht.entry_pos_iff hp hstocked hz
    refine ⟨t.scaled, t.charged, t.invariant, t.lower, t.fallsTo, t.required, z, ht.scaled,
      ht.invariant, ht.lower, ht.fallsTo, ht.charged, ht.required, hz, hrequired, hothers,
      hredeemed, ?_⟩
    exact (hp.withBalances (ht.length_balances hp)).invariant_ne_divisionByZero

/-! ## Pools to look at -/

theorem wellFormed_evenPair : evenPair.WellFormed where
  two_le := by decide
  length_rates := by decide
  rates_pos := by decide
  trade_valid := by decide
  withdraw_valid := by decide

theorem withdraw_evenPair :
    evenPair.withdraw 6 =
      .ok (⟨6, [3, 3], [0, 0], [7, 7]⟩, evenPair.withBalances [7, 7]) := by
  decide +kernel

theorem withdrawImbalanced_evenPair :
    evenPair.withdrawImbalanced [1, 4] =
        .ok (⟨6, [1, 4], [0, 0], ⟨2 * 10 ^ 25, by decide⟩, 14996907844196278597119100, [9, 6]⟩,
          evenPair.withBalances [9, 6]) ∧
      (evenPair.withBalances [9, 6]).scaled =
        .ok [⟨9 * 10 ^ 24, by decide⟩, ⟨6 * 10 ^ 24, by decide⟩] := by
  decide +kernel

theorem chargeRedemption_evenPair :
    evenPair.redeem 6 0 = .ok (evenQuote, evenPair.withBalances [4, 9]) ∧
      evenPair.scaled = .ok [⟨10 ^ 25, by decide⟩, ⟨10 ^ 25, by decide⟩] ∧
      evenPair.invariant = .ok ⟨2 * 10 ^ 25, by decide⟩ ∧
      evenPair.lowered 6 ⟨2 * 10 ^ 25, by decide⟩ = .ok ⟨14 * 10 ^ 24, by decide⟩ ∧
      Curve.balance [⟨10 ^ 25, by decide⟩, ⟨10 ^ 25, by decide⟩] evenPair.amplification 0
        ⟨14 * 10 ^ 24, by decide⟩ = .ok 4015420688541744108589123 ∧
      evenPair.chargeRedemption 0 ⟨2 * 10 ^ 25, by decide⟩ ⟨14 * 10 ^ 24, by decide⟩
        4015420688541744108589123 [⟨10 ^ 25, by decide⟩, ⟨10 ^ 25, by decide⟩] =
          .ok [9999403084137708348821718, 9999400000000000000000000] := by
  decide +kernel

/-- Two assets in equal parts, of which each way out leaves something. -/
theorem withdrawals_keep_stocked_evenPair :
    evenPair.WellFormed ∧
      evenPair.Stocked ∧
      6 < evenPair.supply.val ∧
      (evenPair.withBalances [7, 7]).Stocked ∧
      (evenPair.withBalances [9, 6]).Stocked ∧
      (evenPair.withBalances [9, 6]).invariant ≠ .error .divisionByZero ∧
      (evenPair.withBalances [4, 9]).Stocked ∧
      (evenPair.withBalances [4, 9]).invariant ≠ .error .divisionByZero := by
  have hwellFormed := wellFormed_evenPair
  have hstocked : evenPair.Stocked := by decide
  obtain ⟨himbalanced, hleft⟩ := withdrawImbalanced_evenPair
  obtain ⟨hredeem, hscaled, hd, hlower, hfallsTo, hcharged⟩ := chargeRedemption_evenPair
  obtain ⟨hwithdraw, hnamed, hquote⟩ := withdrawals_keep_stocked hwellFormed hstocked
  obtain ⟨hseven, -⟩ := hwithdraw 6 _ _ (by decide) withdraw_evenPair
  obtain ⟨hnine, hdefined⟩ := hnamed _ _ _ _ himbalanced hleft (by decide)
  obtain ⟨xs, charged, d, lower, fallsTo, required, z, hscaled', hd', hlower', hfallsTo', hcharged',
    -, hz, -, hother, hasset, hspared⟩ := hquote 6 0 _ _ hredeem
  obtain rfl := eq_of_eq_ok hscaled hscaled'
  obtain rfl := eq_of_eq_ok hd hd'
  obtain rfl := eq_of_eq_ok hlower hlower'
  obtain rfl := eq_of_eq_ok hfallsTo hfallsTo'
  obtain rfl := eq_of_eq_ok hcharged hcharged'
  have hpaid : z + 5 * 10 ^ 24 = 9999403084137708348821718 := hz
  have hfirst : 0 < (entry [4, 9] 0).val := hasset.2 (by show 10 ^ 24 ≤ z; omega)
  have hsecond : 0 < (entry [4, 9] 1).val := (hother 1 (by decide) (by decide)).2 (.inl (by decide))
  have hrest : (evenPair.withBalances [4, 9]).Stocked := by
    rw [stocked_iff_entry]
    intro k hk
    change k < 2 at hk
    obtain rfl | rfl : k = 0 ∨ k = 1 := by omega
    · exact hfirst
    · exact hsecond
  exact ⟨hwellFormed, hstocked, by decide, hseven, hnine, hdefined, hrest, hspared hrest⟩

/-- A pool with a single unit of the second asset. -/
def dustPair : Pool := { evenPair with balances := [10, 1] }

def dustConfig : Config := { evenConfig with funding := .balances [10, 1] }

/-- The quote for 6 of the 20 shares takes 3 units of the first asset, but the fee that is charged
    on the second one takes its only unit. -/
def dustQuote : RedemptionQuote where
  asset := 0
  shares := 6
  amount := 3
  fee := 0
  balancesBefore := [10, 1]
  balancesAfter := [6, 0]

/-- The quote for 11 of the 20 shares of two assets in equal parts. It takes 9 units of the first
    asset; less than a unit is kept, which is not written back. -/
def drainingQuote : RedemptionQuote where
  asset := 0
  shares := 11
  amount := 9
  fee := 0
  balancesBefore := [10, 10]
  balancesAfter := [0, 9]

/-- A pool whose units are those of the common scale. -/
def tinyPair : Pool := { evenPair with balances := [2, 1], rates := [1, 1] }

def tinyConfig : Config := { evenConfig with funding := .balances [2, 1], rates := [1, 1] }

/-- Taking one unit of each asset leaves a single unit in all, which the invariant is not
    searched for. -/
def tinyWithdrawal : ImbalancedWithdrawal where
  amounts := [1, 1]
  burned := 14
  fees := [0, 0]
  balances := [1, 0]
  invariantBefore := 3
  invariantAfter := 1

/-- A redemption of part of the shares can take the last unit of another asset or of the redeemed
    one, after which the invariant is refused, and a withdrawal in named amounts can leave a
    single unit in all. -/
theorem withdrawals_empty_asset :
    ∃ dusted drained tiny : Pool,
      (ofConfig dustConfig = .ok dustPair ∧ dustPair.Stocked ∧ 6 < dustPair.supply.val ∧
        dustPair.redeem 6 0 = .ok (dustQuote, dusted) ∧
        ¬ dusted.Stocked ∧ dusted.invariant = .error .divisionByZero) ∧
      (ofConfig evenConfig = .ok evenPair ∧ evenPair.Stocked ∧ 11 < evenPair.supply.val ∧
        evenPair.redeem 11 0 = .ok (drainingQuote, drained) ∧
        ¬ drained.Stocked ∧ drained.invariant = .error .divisionByZero) ∧
      (ofConfig tinyConfig = .ok tinyPair ∧ tinyPair.Stocked ∧ 0 < tinyPair.supply.val ∧
        tinyPair.withdrawImbalanced [1, 1] = .ok (tinyWithdrawal, tiny) ∧
        ¬ tiny.Stocked) := by
  refine ⟨dustPair.withBalances dustQuote.balancesAfter,
    evenPair.withBalances drainingQuote.balancesAfter,
    tinyPair.withBalances tinyWithdrawal.balances, ?_, ?_, ?_⟩
  · decide +kernel
  · decide +kernel
  · decide +kernel

end StableSwap.Pool
