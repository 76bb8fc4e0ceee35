import StableSwap.Proofs.Curve.Division

/-!
# Between the least balance and the sum

The search for the invariant of positive balances need not come to rest, and the
product of quotients may be rounded down to zero on the way. Every value it goes
through is enclosed nevertheless: none falls below the invariant of a pool that
holds as much of every asset as there is of the scarcest, and none exceeds the sum
by more than one part in `L` of itself.

Main statements:

* `Exact.Enclosed.invariantStep`: a pass from an enclosed value leads to an enclosed
  value. The upper bound compares a fraction of two sums with the fractions of their
  parts.
* `Exact.Enclosed.divisor_pos`: a pass from an enclosed value has a positive divisor.
* `invariant_ne_divisionByZero`: positive balances are never refused for a division.
* `invariant_enclosed`: what both come to for the solver.
-/

namespace StableSwap.Curve

namespace Exact

/-- The value lies between the number of the balances times the least of them, and their sum in
    the proportion `L / (L − 1)`. -/
structure Enclosed (leverage : ℕ) (xs : List ℕ) (d : ℕ) : Prop where
  least_le : ∀ m, (∀ x ∈ xs, m ≤ x) → xs.length * m ≤ d
  le_sum : (leverage - 1) * d ≤ leverage * xs.sum

variable {leverage : ℕ} {xs : List ℕ} {d : ℕ}

/-- The search begins with an enclosed value. -/
theorem enclosed_sum (leverage : ℕ) (xs : List ℕ) : Enclosed leverage xs xs.sum where
  least_le m hm := List.card_nsmul_le_sum xs m hm
  le_sum := Nat.mul_le_mul_right _ (Nat.sub_le _ _)

/-- The upper bound is kept by a quotient of sums whose parts keep it. -/
theorem le_of_mediant {l a n p d e : ℕ} (hbound : l * e ≤ a)
    (hstep : d * (l * e + (n + 1) * p) ≤ (a + p * n) * e)
    (hdivisor : 0 < l * e + (n + 1) * p) : l * d ≤ a := by
  have hparts : l * ((a + p * n) * e) ≤ a * (l * e + (n + 1) * p) := by
    calc l * ((a + p * n) * e) = a * (l * e) + p * n * (l * e) := by ring
      _ ≤ a * (l * e) + p * n * a := Nat.add_le_add_left (Nat.mul_le_mul_left _ hbound) _
      _ ≤ a * (l * e) + p * n * a + a * p := Nat.le_add_right _ _
      _ = a * (l * e + (n + 1) * p) := by ring
  apply Nat.le_of_mul_le_mul_right _ hdivisor
  calc l * d * (l * e + (n + 1) * p) = l * (d * (l * e + (n + 1) * p)) := by ring
    _ ≤ l * ((a + p * n) * e) := Nat.mul_le_mul_left _ hstep
    _ ≤ a * (l * e + (n + 1) * p) := hparts

/-- A pass from an enclosed value leads to an enclosed value. -/
theorem Enclosed.invariantStep (h : Enclosed leverage xs d) (hleverage : 0 < leverage)
    (hdivisor : 0 < (leverage - 1) * d + (xs.length + 1) * chain xs.length d xs d) :
    Enclosed leverage xs (invariantStep leverage xs d) where
  least_le m hm := (supports_least hleverage hm).le_invariantStep hdivisor
  le_sum := by
    apply le_of_mediant h.le_sum _ hdivisor
    exact Nat.div_mul_le_self _ _

/-- A pass from an enclosed value has a positive divisor. -/
theorem Enclosed.divisor_pos {amplification : ℕ} (h : Enclosed (amplification * xs.length) xs d)
    (hleverage : 0 < amplification * xs.length) (hpos : ∀ x ∈ xs, 0 < x) :
    0 < (amplification * xs.length - 1) * d + (xs.length + 1) * chain xs.length d xs d := by
  have hlength : 0 < xs.length := Nat.pos_of_mul_pos_left hleverage
  have hd : 0 < d := by
    have hleast := h.least_le 1 hpos
    omega
  by_cases hone : 1 < amplification * xs.length
  · have hfirst : 0 < (amplification * xs.length - 1) * d := Nat.mul_pos (by omega) hd
    omega
  · -- a leverage of one is that of a single balance, and its quotient does not vanish
    have hsingle : xs.length = 1 := by
      have hle := Nat.le_mul_of_pos_left xs.length (Nat.pos_of_mul_pos_right hleverage)
      omega
    obtain ⟨x, rfl⟩ := List.length_eq_one_iff.1 hsingle
    have hx : x ≤ d := by simpa using h.least_le x (by simp)
    have hquotient : 0 < chain 1 d [x] d := by
      show 0 < d * d / (1 * x)
      apply Nat.div_pos _ (by simpa using hpos)
      rw [Nat.one_mul]
      exact hx.trans (Nat.le_mul_of_pos_left d hd)
    exact Nat.add_pos_right _ (Nat.mul_pos (by omega) hquotient)

end Exact

open Exact Invariant

variable {balances : List Amount} {amplification : Word 64}

/-- A pass of the solver from an enclosed value leads to an enclosed value. -/
theorem enclosed_of_step {t : Terms} (ht : terms balances amplification = .ok t) {d d' : Wide}
    (hd : Enclosed (amplification.val * balances.length) (balances.map (·.val)) d.val)
    (h : step t d = .ok d') :
    Enclosed (amplification.val * balances.length) (balances.map (·.val)) d'.val := by
  obtain ⟨hd', hdivisor⟩ := eq_invariantStep ht h
  rw [hd']
  apply hd.invariantStep (leverage_pos_of_terms ht)
  rwa [List.length_map]

/-- The solver makes its passes from enclosed values only. -/
theorem enclosed_of_visits {t : Terms} (ht : terms balances amplification = .ok t) {d : Wide}
    (h : Visits (step t) passLimit 0 t.sum d) :
    Enclosed (amplification.val * balances.length) (balances.map (·.val)) d.val := by
  apply h.holds (fun _ _ hd hstep => enclosed_of_step ht hd hstep)
  rw [(terms_eq_ok ht).2.2.2.1]
  exact enclosed_sum _ _

/-- The search for the invariant of positive balances is refused only for a term out of range. -/
theorem refusedOnlyFor_search (hpos : ∀ x ∈ balances, 0 < x.val) :
    RefusedOnlyFor IsOverflow (search balances amplification) := by
  unfold search
  apply (refusedOnlyFor_terms (fun term _ => isOverflow term) _ _).bind
  intro t ht
  apply refusedOnlyFor_settle
  intro d hd
  have henclosed := enclosed_of_visits ht hd
  have hleverage := leverage_pos_of_terms ht
  rw [← List.length_map (f := Word.val)] at henclosed hleverage
  have hdivisor := henclosed.divisor_pos hleverage (by simpa using hpos)
  rw [List.length_map] at hdivisor
  exact refusedOnlyFor_step_of_pos ht hpos hdivisor

/-- The invariant of positive balances is not refused for a division. -/
theorem invariant_ne_divisionByZero (hpos : ∀ x ∈ balances, 0 < x.val) :
    invariant balances amplification ≠ .error .divisionByZero := by
  intro h
  rw [invariant, report, Report.answer_eq_error_iff] at h
  obtain h | ⟨_, _, ⟨_, _, h⟩ | ⟨_, h⟩⟩ := h
  · obtain ⟨term, hterm⟩ := refusedOnlyFor_search hpos _ h
    cases hterm
  · cases h
  · cases h

/-- The value with which the search ends is enclosed, whether it has come to rest or not. -/
theorem enclosed_of_settle {t : Terms} (ht : terms balances amplification = .ok t) {halt : Halt}
    (h : settle (step t) passLimit 0 t.sum = .ok halt) :
    Enclosed (amplification.val * balances.length) (balances.map (·.val)) halt.value.val := by
  apply settle_holds (fun _ _ hd hstep => enclosed_of_step ht hd hstep) h
  rw [(terms_eq_ok ht).2.2.2.1]
  exact enclosed_sum _ _

/-- The answer of the solver is an enclosed value. -/
theorem enclosed_of_invariant {d : Amount} (h : invariant balances amplification = .ok d) :
    Enclosed (amplification.val * balances.length) (balances.map (·.val)) d.val := by
  obtain ⟨t, _, ht, hsettle, -, hd⟩ := exists_settled_of_invariant h
  rw [hd]
  exact enclosed_of_settle ht hsettle

/-- The solver with positive balances: it is not refused for a division by zero, its answer lies
    between the number of the balances times the least of them and their sum in the proportion
    `L / (L − 1)`, and so does every value from which it makes a pass, whether it comes to rest
    afterwards or not. -/
theorem invariant_enclosed {balances : List Amount} {amplification : Word 64}
    (hpos : ∀ x ∈ balances, 0 < x.val) :
    let n := balances.length
    let leverage := amplification.val * n
    let sum := (balances.map (·.val)).sum
    invariant balances amplification ≠ .error .divisionByZero ∧
      (∀ d : Amount, invariant balances amplification = .ok d →
        (∀ m, (∀ x ∈ balances, m ≤ x.val) → n * m ≤ d.val) ∧
          (leverage - 1) * d.val ≤ leverage * sum) ∧
      ∀ (t : Terms) (d : Wide), terms balances amplification = .ok t →
        Visits (step t) passLimit 0 t.sum d →
          (∀ m, (∀ x ∈ balances, m ≤ x.val) → n * m ≤ d.val) ∧
            (leverage - 1) * d.val ≤ leverage * sum := by
  intro n leverage sum
  have hbounds : ∀ {d : ℕ}, Enclosed leverage (balances.map (·.val)) d →
      (∀ m, (∀ x ∈ balances, m ≤ x.val) → n * m ≤ d) ∧ (leverage - 1) * d ≤ leverage * sum := by
    intro d hd
    refine ⟨?_, hd.le_sum⟩
    intro m hm
    have hleast := hd.least_le m (by simpa using hm)
    rwa [List.length_map] at hleast
  refine ⟨invariant_ne_divisionByZero hpos, ?_, ?_⟩
  · intro d hd
    exact hbounds (enclosed_of_invariant hd)
  · intro t d ht hd
    exact hbounds (enclosed_of_visits ht hd)

/-- What stays the same while the invariant of 33 and 1 is sought. -/
def restlessTerms : Terms where
  balances := [33, 1]
  leverageLessOne := 1
  countPlusOne := 3
  sum := 34
  leveragedSum := 68

/-- The search for the invariant of 33 and 1 goes from 34 to 24, and then back and forth between 20
    and 18; that for 34 and 1 ends at 20. -/
theorem invariant_enclosed_restlessPair :
    (invariant [33, 1] 1 ≠ .error .divisionByZero ∧
      terms [33, 1] 1 = .ok restlessTerms ∧
      Visits (step restlessTerms) passLimit 0 restlessTerms.sum 18 ∧
      2 * 1 ≤ 18 ∧ (2 - 1) * 18 ≤ 2 * 34) ∧
    invariant [34, 1] 1 = .ok 20 ∧ 2 * 1 ≤ 20 ∧ (2 - 1) * 20 ≤ 2 * 35 := by
  have hterms : terms [33, 1] 1 = .ok restlessTerms := by decide +kernel
  have hvisits : Visits (step restlessTerms) passLimit 0 restlessTerms.sum 18 := by
    show Visits (step restlessTerms) (251 + 4) 0 34 18
    have hfirst : step restlessTerms 34 = .ok 24 := by decide +kernel
    have hsecond : step restlessTerms 24 = .ok 20 := by decide +kernel
    have hthird : step restlessTerms 20 = .ok 18 := by decide +kernel
    refine .later (by decide +kernel) hfirst ?_
    refine .later (by decide +kernel) hsecond ?_
    exact .later (by decide +kernel) hthird (.first (by decide +kernel))
  have hanswer : invariant [34, 1] 1 = .ok 20 := by decide +kernel
  have hrestless : ∀ x ∈ ([33, 1] : List Amount), 0 < x.val := by decide
  have hresting : ∀ x ∈ ([34, 1] : List Amount), 0 < x.val := by decide
  obtain ⟨hdivision, -, hpasses⟩ := @invariant_enclosed [33, 1] 1 hrestless
  have hpass := hpasses restlessTerms 18 hterms hvisits
  rw [show (18 : Wide).val = 18 by decide +kernel] at hpass
  obtain ⟨hleast, hsum⟩ := hpass
  obtain ⟨-, hanswers, -⟩ := @invariant_enclosed [34, 1] 1 hresting
  obtain ⟨hleast', hsum'⟩ := hanswers 20 hanswer
  exact ⟨⟨hdivision, hterms, hvisits, hleast 1 hrestless, hsum⟩, hanswer, hleast' 1 hresting, hsum'⟩

end StableSwap.Curve
