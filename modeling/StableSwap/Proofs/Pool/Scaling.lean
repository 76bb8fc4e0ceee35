import StableSwap.Pool.WellFormed
import StableSwap.Proofs.Pool.Entry

/-!
# Scaled balances

What the curve sees of a pool, entry by entry: each balance times its rate.

Main statements:

* `div_add_div_bounds`: what is lost when two amounts are brought back to whole units.
* `scale_eq_ok_iff`: scaling answers with the products, if all are in range.
* `scale_eq_ok_iff_entry`: the same, read at each asset.
* `WellFormed.scale_pos`: positive balances are positive when scaled.
* `scale_set`: a new balance of one asset changes the scaled entry of that asset only.
-/

namespace StableSwap.Pool

/-- Two amounts that are brought to whole units on their own lose less than two units. -/
theorem div_add_div_bounds {rate : ℕ} (hrate : 0 < rate) (a b : ℕ) :
    (a / rate + b / rate) * rate ≤ a + b ∧ a + b < (a / rate + b / rate + 2) * rate := by
  have ha : a / rate * rate ≤ a := Nat.div_mul_le_self _ _
  have hb : b / rate * rate ≤ b := Nat.div_mul_le_self _ _
  have ha' : a < a / rate * rate + rate := Nat.lt_div_mul_add hrate
  have hb' : b < b / rate * rate + rate := Nat.lt_div_mul_add hrate
  rw [Nat.add_mul, Nat.add_mul, Nat.add_mul]
  omega

variable {p : Pool}

theorem scale_eq_ok_iff {balances xs : List Amount} :
    p.scale balances = .ok xs ↔
      xs.map (·.val) = (balances.zip p.rates).map fun (b, r) => b.val * r.val := by
  unfold scale
  exact mapM_eq_ok_iff_map fun _ _ => Word.mul_eq_ok_iff

/-- Scaling answers with one entry for each balance that has a rate, and each entry is the
    product of the two. -/
theorem scale_eq_ok_iff_entry {balances xs : List Amount} :
    p.scale balances = .ok xs ↔
      xs.length = min balances.length p.rates.length ∧
        ∀ i, (entry xs i).val = (entry balances i).val * (entry p.rates i).val := by
  rw [scale_eq_ok_iff]
  exact map_zip_iff_entry Nat.zero_mul Nat.mul_zero

/-- A well-formed pool has one scaled balance for each asset. -/
theorem WellFormed.length_scaled (hp : p.WellFormed) {xs : List Amount}
    (h : p.scaled = .ok xs) : xs.length = p.assetCount := by
  rw [(scale_eq_ok_iff_entry.1 h).1, hp.length_rates]
  exact Nat.min_self _

theorem entry_scaled {xs : List Amount} (h : p.scaled = .ok xs) (i : ℕ) :
    (entry xs i).val = (entry p.balances i).val * (entry p.rates i).val :=
  (scale_eq_ok_iff_entry.1 h).2 i

/-- Scaling keeps balances positive. -/
theorem WellFormed.scale_pos (hp : p.WellFormed) {balances xs : List Amount}
    (h : p.scale balances = .ok xs) (hpos : ∀ b ∈ balances, 0 < b.val) : ∀ x ∈ xs, 0 < x.val := by
  intro x hx
  have hmem : x.val ∈ xs.map (·.val) := List.mem_map_of_mem hx
  rw [scale_eq_ok_iff.1 h] at hmem
  obtain ⟨⟨b, rate⟩, hpair, hval⟩ := List.mem_map.1 hmem
  obtain ⟨hb, hrate⟩ := List.of_mem_zip hpair
  rw [← hval]
  exact Nat.mul_pos (hpos b hb) (hp.rates_pos rate hrate)

theorem WellFormed.rate_pos (hp : p.WellFormed) {i : ℕ} (hi : i < p.assetCount) :
    0 < (entry p.rates i).val := by
  have hlt : i < p.rates.length := by rwa [hp.length_rates]
  rw [entry_of_lt hlt]
  exact hp.rates_pos _ (List.getElem_mem hlt)

/-- A new balance of one asset changes the scaled entry of that asset only. -/
theorem scale_set {balances xs : List Amount} (h : p.scale balances = .ok xs) {i : ℕ}
    (hi : i < xs.length) {b x : Amount} (hx : x.val = b.val * (entry p.rates i).val) :
    p.scale (balances.set i b) = .ok (xs.set i x) := by
  rw [scale_eq_ok_iff_entry] at h ⊢
  obtain ⟨hlength, hentry⟩ := h
  refine ⟨by simpa using hlength, fun k => ?_⟩
  by_cases hk : i = k
  · subst hk
    rw [entry_set_self hi, entry_set_self (by omega), hx]
  · rw [entry_set_of_ne hk, entry_set_of_ne hk, hentry k]

end StableSwap.Pool
