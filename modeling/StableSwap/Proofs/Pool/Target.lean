import StableSwap.Proofs.Curve.EvenBalances
import StableSwap.Proofs.Pool.Scaling

/-!
# Pools funded for a target

A configuration may name the invariant that its pool is to have instead of the balances.
Every asset is then given the same share of it, brought to whole units of the asset by
its rate and rounded down. Where the rates divide the share nothing is rounded, the scaled
balances are even, and the invariant is their sum: the target, if the number of assets
divides it.

Main statements:

* `exists_initialBalances_iff`: the balances exist exactly if each of them is in range.
* `forall₂_of_initialBalances`: each is its share in whole units.
* `scaled_of_even`: the scaled balances, where the rates divide the share.
* `ofConfig_target`: the pool, its balances and its invariant.
-/

namespace StableSwap

namespace Config

variable {c : Config} {target : Amount} {balances : List Amount}

/-- The share of a target that each asset is given, in the common unit. -/
def share (c : Config) (target : Amount) : ℕ :=
  target.val / c.assetCount.val * Amount.unit.val

/-- If the number of assets divides the target, the shares make it up. -/
theorem mul_share_of_dvd (h : c.assetCount.val ∣ target.val) :
    c.assetCount.val * c.share target = target.val * Amount.unit.val := by
  rw [share, ← Nat.mul_assoc, Nat.mul_div_cancel' h]

/-- What a valid configuration says of its assets. -/
theorem assets_of_validate (h : c.validate = .ok ()) :
    2 ≤ c.assetCount.val ∧ 0 < c.amplification.val ∧ c.rates.length = c.assetCount.val ∧
      ∀ rate ∈ c.rates, 0 < rate.val := by
  simp only [validate, bind_eq_ok_iff, require_eq_ok_iff] at h
  obtain ⟨_, hcount, _, hamp, _, _, _, hlength, _, hrates, _⟩ := h
  exact ⟨hcount, hamp, hlength, hrates⟩

theorem initialBalances_of_target (hfunding : c.funding = .target target)
    (hcount : 0 < c.assetCount.val) :
    ∃ share : Amount, share.val * Amount.unit.val = c.share target ∧
      c.initialBalances = c.rates.mapM fun rate =>
        share.mulDiv Amount.unit.val rate.val "initial balance" := by
  have hlt := (Nat.div_le_self target.val c.assetCount.val).trans_lt target.isLt
  refine ⟨⟨_, hlt⟩, rfl, ?_⟩
  have hdiv : target.div c.assetCount.val = .ok ⟨_, hlt⟩ :=
    Word.div_eq_ok_iff.2 ⟨hcount.ne', rfl⟩
  simp only [initialBalances, hfunding, hdiv, ok_bind]

/-- Each balance is the share in whole units of its asset. -/
theorem forall₂_of_initialBalances (hfunding : c.funding = .target target)
    (hcount : 0 < c.assetCount.val) (h : c.initialBalances = .ok balances) :
    List.Forall₂ (fun (b rate : Amount) => 0 < rate.val ∧ b.val = c.share target / rate.val)
      balances c.rates := by
  obtain ⟨share, hshare, hbalances⟩ := initialBalances_of_target hfunding hcount
  rw [hbalances, mapM_eq_ok_iff_forall₂] at h
  refine (h.imp fun rate b hb => ?_).flip
  obtain ⟨hrate, hb⟩ := Word.mulDiv_eq_ok_iff.1 hb
  rw [hshare] at hb
  exact ⟨Nat.pos_of_ne_zero hrate, hb⟩

/-- The balances can be formed exactly if each of them is in range. -/
theorem exists_initialBalances_iff (hfunding : c.funding = .target target)
    (hcount : 0 < c.assetCount.val) (hrates : ∀ rate ∈ c.rates, 0 < rate.val) :
    (∃ balances, c.initialBalances = .ok balances) ↔
      ∀ rate ∈ c.rates, c.share target / rate.val < Word.size 256 := by
  obtain ⟨share, hshare, hbalances⟩ := initialBalances_of_target hfunding hcount
  rw [hbalances, exists_mapM_iff]
  apply forall₂_congr
  intro rate hrate
  simp only [Word.mulDiv_eq_ok_iff, hshare]
  constructor
  · rintro ⟨b, -, hb⟩
    exact hb ▸ b.isLt
  · intro hlt
    exact ⟨⟨_, hlt⟩, (hrates rate hrate).ne', rfl⟩

end Config

namespace Pool

variable {c : Config} {p : Pool} {target : Amount}

/-! ## The pool -/

/-- A valid configuration has a pool exactly if its balances can be formed. -/
theorem exists_ofConfig_iff (hvalid : c.validate = .ok ()) :
    (∃ p, ofConfig c = .ok p) ↔ ∃ balances, c.initialBalances = .ok balances := by
  simp only [ofConfig, hvalid, ok_bind, bind_eq_ok_iff, pure, Except.pure, Except.ok.injEq]
  constructor
  · rintro ⟨_, balances, hbalances, _⟩
    exact ⟨balances, hbalances⟩
  · rintro ⟨balances, hbalances⟩
    exact ⟨_, balances, hbalances, rfl⟩

/-- What the curve sees of a pool is taken from its configuration. -/
theorem origin_of_ofConfig (h : ofConfig c = .ok p) :
    c.initialBalances = .ok p.balances ∧ p.rates = c.rates ∧ p.amplification = c.amplification := by
  simp only [ofConfig, bind_eq_ok_iff, pure, Except.pure, Except.ok.injEq] at h
  obtain ⟨_, _, balances, hbalances, rfl⟩ := h
  exact ⟨hbalances, rfl, rfl⟩

/-- Where the rates divide an amount, the quotients scale back to it. -/
theorem scaled_quotients {balances rates : List Amount} {share : ℕ}
    (h : List.Forall₂ (fun (b rate : Amount) => 0 < rate.val ∧ b.val = share / rate.val)
      balances rates)
    (hdvd : ∀ rate ∈ rates, rate.val ∣ share) :
    (balances.zip rates).map (fun (b, rate) => b.val * rate.val) =
      List.replicate balances.length share := by
  induction h with
  | nil => rfl
  | @cons b rate balances rates hb _ ih =>
    have hfirst : b.val * rate.val = share := by
      rw [hb.2]
      exact Nat.div_mul_cancel (hdvd rate List.mem_cons_self)
    have hrest := ih fun r hr => hdvd r (List.mem_cons_of_mem rate hr)
    rw [List.zip_cons_cons, List.map_cons, List.length_cons, List.replicate_succ]
    exact congrArg₂ List.cons hfirst hrest

/-- A pool whose balances scale to the same share has it as every scaled balance, if it is in
    range. -/
theorem scaled_of_even {share : ℕ} (hcount : 0 < p.assetCount)
    (h : (p.balances.zip p.rates).map (fun (b, rate) => b.val * rate.val) =
      List.replicate p.assetCount share) :
    (∃ x : Amount, x.val = share ∧ p.scaled = .ok (List.replicate p.assetCount x)) ∨
      Word.size 256 ≤ share ∧ p.scaled = .error (.overflow "normalized balance") := by
  rcases Nat.lt_or_ge share (Word.size 256) with hlt | hge
  · refine .inl ⟨⟨share, hlt⟩, rfl, ?_⟩
    rw [scaled, scale_eq_ok_iff, h, List.map_replicate]
  · refine .inr ⟨hge, ?_⟩
    cases hscaled : p.scaled with
    | ok xs =>
      rw [scaled, scale_eq_ok_iff, h] at hscaled
      have hmem : share ∈ xs.map (·.val) := by
        rw [hscaled]
        exact List.mem_replicate.2 ⟨hcount.ne', rfl⟩
      obtain ⟨x, _, rfl⟩ := List.mem_map.1 hmem
      exact absurd x.isLt (Nat.not_lt.2 hge)
    | error e =>
      obtain ⟨_, _, hmul⟩ := exists_step_of_mapM_error hscaled
      rw [(Word.mul_eq_error_iff.1 hmul).2]

/-- The invariant of such a pool is the sum of the shares, as far as the numerator of the only pass
    is in range. -/
theorem invariant_of_even {share : ℕ} (hcount : 0 < p.assetCount)
    (hlength : p.assetCount < Word.size 64) (hamp : 0 < p.amplification.val)
    (h : (p.balances.zip p.rates).map (fun (b, rate) => b.val * rate.val) =
      List.replicate p.assetCount share) :
    let numerator := (p.amplification.val * p.assetCount + p.assetCount) *
      (p.assetCount * share) ^ 2
    (numerator < Word.size 512 ∧ ∃ d, p.invariant = .ok d ∧ d.val = p.assetCount * share) ∨
      Word.size 512 ≤ numerator ∧ ∃ term, p.invariant = .error (.overflow term) := by
  intro numerator
  obtain ⟨x, rfl, hscaled⟩ | ⟨hge, hscaled⟩ := scaled_of_even hcount h
  · have hinvariant :
        p.invariant = Curve.invariant (List.replicate p.assetCount x) p.amplification := by
      rw [invariant, invariantOf, ← scaled, hscaled, ok_bind]
    rw [hinvariant]
    rcases Nat.lt_or_ge numerator (Word.size 512) with hlt | hge
    · exact .inl ⟨hlt, Curve.invariant_of_numerator_lt hcount hamp (fun _ => hlength) hlt⟩
    · exact .inr ⟨hge, Curve.overflow_of_le_numerator hcount hamp hge⟩
  · refine .inr ⟨?_, "normalized balance", ?_⟩
    · by_contra hlt
      have hsum := Curve.sum_lt_of_numerator hcount (Nat.not_le.1 hlt)
      have hshare : share ≤ p.assetCount * share := Nat.le_mul_of_pos_left share hcount
      omega
    · rw [invariant, invariantOf, ← scaled, hscaled, error_bind]

/-- The pool of a valid configuration that names a target, for any number of assets and any rates.
    It is built exactly if the share in whole units is in range for every asset, and each balance is
    then worth the share, less what is no whole unit. If moreover the rates divide the share, the
    invariant is the sum of the shares, and with it the target if the number of assets divides that;
    only where the numerator of the solver's only pass is out of range is it refused, for a term
    that is too large. -/
theorem ofConfig_target (hvalid : c.validate = .ok ()) (hfunding : c.funding = .target target) :
    let n := c.assetCount.val
    let share := c.share target
    ((∃ p, ofConfig c = .ok p) ↔ ∀ rate ∈ c.rates, share / rate.val < Word.size 256) ∧
    ∀ p, ofConfig c = .ok p →
      p.rates = c.rates ∧
      List.Forall₂ (fun (b rate : Amount) =>
        b.val * rate.val ≤ share ∧ share < (b.val + 1) * rate.val) p.balances p.rates ∧
      ((∀ rate ∈ c.rates, rate.val ∣ share) →
        let numerator := (c.amplification.val * n + n) * (n * share) ^ 2
        (numerator < Word.size 512 ∧ ∃ d, p.invariant = .ok d ∧ d.val = n * share ∧
          (n ∣ target.val → d.val = target.val * Amount.unit.val)) ∨
        Word.size 512 ≤ numerator ∧ ∃ term, p.invariant = .error (.overflow term)) := by
  intro n share
  obtain ⟨htwo, hamp, hlength, hrates⟩ := Config.assets_of_validate hvalid
  have hcount : 0 < n := by omega
  constructor
  · rw [exists_ofConfig_iff hvalid]
    exact Config.exists_initialBalances_iff hfunding hcount hrates
  · intro p hp
    obtain ⟨hbalances, hprates, hpamp⟩ := origin_of_ofConfig hp
    have hassets : p.assetCount = n := assetCount_of_ofConfig hp
    have hshares := Config.forall₂_of_initialBalances hfunding hcount hbalances
    rw [← hprates] at hshares
    refine ⟨hprates, hshares.imp ?_, ?_⟩
    · rintro b rate ⟨hrate, hb⟩
      rw [hb, Nat.add_mul, Nat.one_mul]
      exact ⟨Nat.div_mul_le_self _ _, Nat.lt_div_mul_add hrate⟩
    · intro hdvd
      rw [← hprates] at hdvd
      have hinvariant := invariant_of_even (hassets ▸ hcount) (hassets ▸ c.assetCount.isLt)
        (hpamp ▸ hamp) (scaled_quotients hshares hdvd)
      rw [hassets, hpamp] at hinvariant
      refine hinvariant.imp_left ?_
      rintro ⟨hlt, d, hd, hvalue⟩
      exact ⟨hlt, d, hd, hvalue, fun hn => hvalue.trans (Config.mul_share_of_dvd hn)⟩

/-- A target of 30000 for three assets, of which the second and the third have the same rate. -/
def targetTriple : Config where
  amplification := 720
  assetCount := 3
  funding := .target 30000
  rates := [⟨10 ^ 6, by decide⟩, ⟨10 ^ 18, by decide⟩, ⟨10 ^ 18, by decide⟩]

/-- The largest target there is, for two assets that are held in the common unit. -/
def vastTarget : Config where
  amplification := 720
  assetCount := 2
  funding := .target ⟨Word.size 256 - 1, by decide⟩

/-- The pool for a target of 30000 has the invariant of the target. The largest target there is has
    a pool, but one without an invariant, and no pool if its rates are one. -/
theorem ofConfig_target_targetTriple :
    targetTriple.validate = .ok () ∧ targetTriple.funding = .target 30000 ∧
      (∃ p, ofConfig targetTriple = .ok p ∧
        List.Forall₂ (fun (b rate : Amount) => b.val * rate.val ≤ 10000 * Amount.unit.val ∧
          10000 * Amount.unit.val < (b.val + 1) * rate.val) p.balances p.rates ∧
        ∃ d, p.invariant = .ok d ∧ d.val = 30000 * Amount.unit.val) ∧
      (∃ p term, ofConfig vastTarget = .ok p ∧ p.invariant = .error (.overflow term)) ∧
      ¬ ∃ p, ofConfig { vastTarget with rates := [1, 1] } = .ok p := by
  have hvalid : targetTriple.validate = .ok () := by decide +kernel
  have hvast : vastTarget.validate = .ok () := by decide +kernel
  obtain ⟨hbuilt, hpool⟩ := ofConfig_target hvalid rfl
  obtain ⟨hvastBuilt, hvastPool⟩ := ofConfig_target hvast rfl
  refine ⟨hvalid, rfl, ?_, ?_, ?_⟩
  · obtain ⟨p, hp⟩ := hbuilt.2 (by decide +kernel)
    obtain ⟨-, hbalances, hinvariant⟩ := hpool p hp
    obtain ⟨-, d, hd, -, hvalue⟩ | ⟨hlarge, -⟩ := hinvariant (by decide +kernel)
    · exact ⟨p, hp, hbalances, d, hd, hvalue (by decide)⟩
    · exact absurd hlarge (by decide +kernel)
  · obtain ⟨p, hp⟩ := hvastBuilt.2 (by decide +kernel)
    obtain ⟨-, -, hinvariant⟩ := hvastPool p hp
    obtain ⟨hsmall, -⟩ | ⟨-, term, hterm⟩ := hinvariant (by decide +kernel)
    · exact absurd hsmall (by decide +kernel)
    · exact ⟨p, term, hp, hterm⟩
  · intro hexists
    have hunit := (ofConfig_target (c := { vastTarget with rates := [1, 1] }) (by decide +kernel)
      rfl).1.1 hexists
    exact absurd hunit (by decide +kernel)

end Pool

end StableSwap
