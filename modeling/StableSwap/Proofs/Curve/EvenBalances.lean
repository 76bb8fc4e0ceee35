import StableSwap.Proofs.Curve.Agreement
import StableSwap.Proofs.Curve.Enclosure

/-!
# Pools that hold as much of every asset

For `n` balances of `x` the sum `S = n·x` solves the invariant equation, and the search
begins there. Every quotient of the product gives `S` back, and so does the pass, which
ends the search: all that can go wrong is that something formed on the way is too large.
The largest of it is the numerator `(L + n)·S²`.

Main statements:

* `chain_replicate`, `invariantStep_replicate`: the product and the pass lead from the sum to the
  sum.
* `fits_pass_replicate`: the pass is in range exactly if its numerator is.
* `finds_replicate`: the search finds the sum.
* `invariant_replicate`: the invariant is the sum, up to where the numerator is in range.
-/

namespace StableSwap.Curve

namespace Exact

variable {n x leverage : ℕ}

/-! ## The pass from the sum -/

theorem chain_replicate (hn : 0 < n) (hx : 0 < x) (m : ℕ) :
    chain n (n * x) (List.replicate m x) (n * x) = n * x := by
  induction m with
  | zero => rfl
  | succ m ih =>
    rw [List.replicate_succ, chain_cons, Nat.mul_div_cancel _ (Nat.mul_pos hn hx)]
    exact ih

/-- The divisor of the pass from the sum. -/
theorem divisor_replicate (hleverage : 0 < leverage) (s : ℕ) :
    (leverage - 1) * s + (n + 1) * s = leverage * s + s * n := by
  obtain ⟨l, rfl⟩ := Nat.exists_eq_add_of_lt hleverage
  rw [Nat.add_sub_cancel]
  ring

theorem invariantStep_replicate (hn : 0 < n) (hx : 0 < x) (hleverage : 0 < leverage) :
    invariantStep leverage (List.replicate n x) (n * x) = n * x := by
  have hsum : 0 < n * x := Nat.mul_pos hn hx
  have hdivisor : 0 < leverage * (n * x) + n * x * n :=
    Nat.add_pos_left (Nat.mul_pos hleverage hsum) _
  simp only [invariantStep, List.length_replicate, List.sum_replicate_nat]
  rw [chain_replicate hn hx, divisor_replicate hleverage, Nat.mul_comm,
    Nat.mul_div_cancel _ hdivisor]

namespace Reckoning

theorem fits_chain_replicate (hn : 0 < n) (hx : 0 < x) (m : ℕ) :
    (chain n (n * x) (List.replicate (m + 1) x) (n * x)).Fits ↔
      n * x * (n * x) < Word.size 512 := by
  have hsum : 0 < n * x := Nat.mul_pos hn hx
  have hvalue : (factor n (n * x) (n * x) x).value = n * x := Nat.mul_div_cancel _ hsum
  have hfactor : (factor n (n * x) (n * x) x).Fits ↔ n * x * (n * x) < Word.size 512 := by
    simp only [factor, fits_bind, fits_mul, fits_div]
    have hle : n * x ≤ n * x * (n * x) := Nat.le_mul_of_pos_right _ hsum
    constructor
    · intro h
      exact h.1
    · intro h
      exact ⟨h, hle.trans_lt h, hsum.ne'⟩
  induction m with
  | zero =>
    rw [chain, List.replicate_one, List.foldlM_cons, fits_bind, hfactor]
    exact and_iff_left (fits_pure _)
  | succ m ih =>
    rw [chain, List.replicate_succ, List.foldlM_cons, fits_bind, hfactor]
    rw [hvalue]
    exact (and_congr_right fun _ => ih).trans and_self_iff

/-- The pass from the sum is in range if its numerator is. -/
theorem fits_pass_replicate (hn : 0 < n) (hx : 0 < x) (hleverage : 0 < leverage) :
    (invariantPass (leverage - 1) (n + 1) (leverage * (n * x)) (List.replicate n x) (n * x)).Fits ↔
      (leverage + n) * (n * x) ^ 2 < Word.size 512 := by
  have hsum : 0 < n * x := Nat.mul_pos hn hx
  have hchain : (chain n (n * x) (List.replicate n x) (n * x)).Fits ↔
      n * x * (n * x) < Word.size 512 := by
    obtain ⟨m, rfl⟩ := Nat.exists_eq_add_of_lt hn
    rw [Nat.zero_add]
    exact fits_chain_replicate (Nat.succ_pos m) hx m
  simp only [invariantPass, List.length_replicate, fits_bind, fits_mul, fits_add, fits_div, hchain,
    value_add, value_mul, value_chain, chain_replicate hn hx, divisor_replicate hleverage]
  generalize n * x = s at hsum
  have hnumerator : (leverage * s + s * n) * s = (leverage + n) * s ^ 2 := by ring
  have hscale : leverage * s + s * n ≤ (leverage * s + s * n) * s :=
    Nat.le_mul_of_pos_right _ hsum
  have hcount : s ≤ s * n := Nat.le_mul_of_pos_right _ hn
  have hsquare : s * s ≤ (leverage * s + s * n) * s := Nat.mul_le_mul_right _ (by omega)
  have hown : (leverage - 1) * s ≤ leverage * s := Nat.mul_le_mul_right _ (Nat.sub_le _ _)
  have hcross : (n + 1) * s ≤ leverage * s + s * n := by
    rw [← divisor_replicate hleverage]
    exact Nat.le_add_left _ _
  rw [← hnumerator]
  constructor
  · intro h
    exact h.2.2.2.1
  · intro h
    refine ⟨?_, ?_, ?_, h, ?_, ?_, ?_, ?_⟩ <;> omega

end Reckoning

/-! ## The search -/

namespace Reckoning

variable {amplification : ℕ}

/-- The search for the invariant of even balances finds their sum, if the numerator of its first
    pass is in range. -/
theorem finds_replicate (hn : 0 < n) (hamp : 0 < amplification)
    (hnumerator : (amplification * n + n) * (n * x) ^ 2 < Word.size 512) :
    (invariantSearch amplification (List.replicate n x)).value.Finds passLimit (n * x) := by
  have hcurrent := (value_invariantSearch amplification (List.replicate n x)).1
  have hpass := pass_invariantSearch amplification (List.replicate n x)
  have hvalue := (value_invariantSearch amplification (List.replicate n x)).2 (n * x)
  rw [List.sum_replicate_nat] at hcurrent hpass
  rw [List.length_replicate] at hpass hvalue
  by_cases hrest : (invariantSearch amplification (List.replicate n x)).value.AtRest
  · exact (Search.finds_of_atRest hrest).2 hcurrent
  · have hx : 0 < x := by
      apply Nat.pos_of_ne_zero
      rintro rfl
      apply hrest
      rw [Search.AtRest, hcurrent]
      exact ⟨Nat.zero_le _, Nat.zero_le _⟩
    have hleverage : 0 < amplification * n := Nat.mul_pos hamp hn
    have hstays := invariantStep_replicate hn hx hleverage
    have hnext :
        (invariantSearch amplification (List.replicate n x)).value.next.current = n * x := by
      rw [Search.next, hcurrent, hvalue, hstays]
    apply (@Search.finds_succ _ 254 _ hrest).2
    refine ⟨?_, (Search.finds_of_atRest ?_).2 hnext⟩
    · rw [hcurrent, hpass]
      exact (fits_pass_replicate hn hx hleverage).2 hnumerator
    · rw [Search.AtRest, hnext, Search.next, hcurrent]
      exact ⟨Nat.le_succ _, Nat.le_succ _⟩

end Reckoning

end Exact

open Exact Invariant

variable {n : ℕ} {x : Amount} {amplification : Word 64}

/-- The leverage of a pool and the number of its assets are in range together, if that number is a
    machine word or the numerator is in range. -/
theorem leverage_add_lt_of_numerator (hlength : x.val = 0 → n < Word.size 64)
    (hnumerator : (amplification.val * n + n) * (n * x.val) ^ 2 < Word.size 512) (hn : 0 < n) :
    amplification.val * n + n < Word.size 512 := by
  rcases Nat.eq_zero_or_pos x.val with hzero | hx
  · exact leverage_add_lt amplification (hlength hzero)
  · have hsquare : 0 < (n * x.val) ^ 2 := Nat.pow_pos (Nat.mul_pos hn hx)
    exact (Nat.le_mul_of_pos_right _ hsquare).trans_lt hnumerator

/-- With its numerator in range, the sum is an amount. -/
theorem sum_lt_of_numerator {y : ℕ} (hn : 0 < n)
    (hnumerator : (amplification.val * n + n) * (n * y) ^ 2 < Word.size 512) :
    n * y < Word.size 256 := by
  have hsquare : n * y * (n * y) < Word.size 256 * Word.size 256 := by
    calc n * y * (n * y) = (n * y) ^ 2 := (sq _).symm
      _ ≤ (amplification.val * n + n) * (n * y) ^ 2 :=
          Nat.le_mul_of_pos_left _ (Nat.add_pos_right _ hn)
      _ < Word.size 512 := hnumerator
      _ = Word.size 256 * Word.size 256 := Word.size_add 256 256
  exact Nat.mul_self_lt_mul_self_iff.1 hsquare

/-- The invariant of even balances is their sum, if the numerator is in range. -/
theorem invariant_of_numerator_lt (hn : 0 < n) (hamp : 0 < amplification.val)
    (hlength : x.val = 0 → n < Word.size 64)
    (hnumerator : (amplification.val * n + n) * (n * x.val) ^ 2 < Word.size 512) :
    ∃ d : Amount, invariant (List.replicate n x) amplification = .ok d ∧ d.val = n * x.val := by
  refine ⟨⟨n * x.val, sum_lt_of_numerator hn hnumerator⟩, ?_, rfl⟩
  apply (solves (List.replicate n x) amplification).answer_eq_ok_iff.2
  rw [List.map_replicate]
  refine ⟨?_, Reckoning.finds_replicate hn hamp hnumerator⟩
  have hleverage := Nat.mul_pos hamp hn
  have hterms := leverage_add_lt_of_numerator hlength hnumerator hn
  have hsquare : n * x.val ≤ (n * x.val) ^ 2 := Nat.le_self_pow two_ne_zero _
  have hsum : n * x.val ≤ (amplification.val * n + n) * (n * x.val) ^ 2 :=
    hsquare.trans (Nat.le_mul_of_pos_left _ (Nat.add_pos_right _ hn))
  have hleveraged : amplification.val * n * (n * x.val) ≤
      (amplification.val * n + n) * (n * x.val) ^ 2 :=
    Nat.mul_le_mul (Nat.le_add_right _ _) hsquare
  apply Reckoning.fits_invariantSearch
  all_goals simp only [List.length_replicate, List.sum_replicate_nat]
  all_goals omega

/-- A sum of one has a numerator in range. -/
theorem one_lt_sum_of_numerator (hn : 0 < n)
    (hnumerator : Word.size 512 ≤ (amplification.val * n + n) * (n * x.val) ^ 2) :
    1 < n * x.val := by
  by_contra hle
  obtain hzero | hone : n * x.val = 0 ∨ n * x.val = 1 := by omega
  · rw [hzero] at hnumerator
    exact absurd hnumerator (Nat.not_le.2 (Word.size_pos 512))
  · obtain rfl : n = 1 := Nat.eq_one_of_mul_eq_one_right hone
    rw [hone, one_pow, Nat.mul_one, Nat.mul_one] at hnumerator
    have hamp : amplification.val + 1 ≤ Word.size 64 := amplification.isLt
    have hsize : Word.size 64 < Word.size 512 := Word.size_lt_size (by decide)
    omega

/-- Even balances are refused for a term that is too large, if the numerator is. -/
theorem overflow_of_le_numerator (hn : 0 < n) (hamp : 0 < amplification.val)
    (hnumerator : Word.size 512 ≤ (amplification.val * n + n) * (n * x.val) ^ 2) :
    ∃ term, invariant (List.replicate n x) amplification = .error (.overflow term) := by
  have hsum := one_lt_sum_of_numerator hn hnumerator
  have hx : 0 < x.val := Nat.pos_of_mul_pos_left (by omega : 0 < n * x.val)
  have hcurrent := (Reckoning.value_invariantSearch amplification.val (List.replicate n x.val)).1
  have hpass := Reckoning.pass_invariantSearch amplification.val (List.replicate n x.val)
  have hsolves := solves (List.replicate n x) amplification
  rw [List.sum_replicate_nat] at hcurrent hpass
  rw [List.length_replicate] at hpass
  rw [List.map_replicate] at hsolves
  have hrefused : ∃ e, invariant (List.replicate n x) amplification = .error e ∧
      ArithmeticRefusal e := by
    apply hsolves.refused_of_not_fits
    · rintro ⟨hle, -⟩
      rw [hcurrent, Reckoning.previous_invariantSearch] at hle
      omega
    · rw [hcurrent, hpass, Reckoning.fits_pass_replicate hn hx (Nat.mul_pos hamp hn)]
      omega
  obtain ⟨e, he, rfl | ⟨term, rfl⟩⟩ := hrefused
  · have hpos : ∀ y ∈ List.replicate n x, 0 < y.val := by
      intro y hy
      rw [List.eq_of_mem_replicate hy]
      exact hx
    exact absurd he (invariant_ne_divisionByZero hpos)
  · exact ⟨term, he⟩

/-- The closed form of the invariant of even balances, for any number of them, any balance and every
    amplification: it is the sum `S`, if the numerator `(L + n)·S²` of the only pass is in range,
    and otherwise the solver is refused for a term that is too large. A pool with nothing of any
    asset makes no pass, and its sum is zero as long as the number of the assets is a machine word;
    beyond that the leverage could be out of range. -/
theorem invariant_replicate (hn : 0 < n) (hamp : 0 < amplification.val)
    (hlength : x.val = 0 → n < Word.size 64) :
    let numerator := (amplification.val * n + n) * (n * x.val) ^ 2
    (numerator < Word.size 512 →
      ∃ d : Amount, invariant (List.replicate n x) amplification = .ok d ∧ d.val = n * x.val) ∧
      (Word.size 512 ≤ numerator →
        ∃ term, invariant (List.replicate n x) amplification = .error (.overflow term)) :=
  ⟨invariant_of_numerator_lt hn hamp hlength, overflow_of_le_numerator hn hamp⟩

/-- Three balances of five have the invariant fifteen; three of half the range of an amount are too
    large to have one. -/
theorem invariant_replicate_triple :
    let half : Amount := ⟨Word.size 255, Word.size_lt_size (by decide)⟩
    (∃ d : Amount, invariant [5, 5, 5] 2 = .ok d ∧ d.val = 15) ∧
      ∃ term, invariant [half, half, half] 2 = .error (.overflow term) := by
  intro half
  constructor
  · apply (invariant_replicate (n := 3) (x := 5) _ _ _).1
    all_goals decide +kernel
  · apply (invariant_replicate (n := 3) (x := half) _ _ _).2
    all_goals decide +kernel

end StableSwap.Curve
