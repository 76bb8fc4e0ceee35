import StableSwap.Proofs.Curve.InvariantBound
import StableSwap.Proofs.Refusal

/-!
# Balances that are missing

The search for the invariant divides by every balance. A balance of zero therefore
stops the first pass; but where the balances add up to one at most, no pass is made,
and nothing is divided. Positive balances leave one divisor that could vanish, the
one at the end of a pass.

Main statements:

* `refusedOnlyFor_settle`, `refusedOnlyFor_answer`: the causes for which a solver is refused
  are those of its passes, and two of its own.
* `pos_of_invariant`, `eq_sum_of_invariant`: the solver answers for balances of more than one in
  all only if none of them is zero, and for any others with their sum.
* `refusedOnlyFor_terms`, `refusedOnlyFor_step`: what begins the search and a pass are refused for
  the terms that they name, and a pass for its divisors as well.
* `refusedOnlyFor_step_of_pos`: with positive balances and a positive divisor at its end, a pass is
  refused only for a term that is out of range.
* `refusedOnlyFor_invariant`: what the solver is refused for.
-/

namespace StableSwap

variable {α β : Type} {f : β → α → Except PoolError β} {as : List α} {b c : β}

/-- A chain of steps along a list that answers has answered at every entry. -/
theorem exists_step_of_foldlM (h : as.foldlM f b = .ok c) {a : α} (ha : a ∈ as) :
    ∃ b' c', f b' a = .ok c' := by
  induction as generalizing b with
  | nil => simp at ha
  | cons x xs ih =>
    rw [List.foldlM_cons, bind_eq_ok_iff] at h
    obtain ⟨b', hb', h⟩ := h
    simp only [List.mem_cons] at ha
    obtain rfl | ha := ha
    · exact ⟨b, b', hb'⟩
    · exact ih h ha

namespace Curve

variable {causes : PoolError → Prop}

/-- A repetition is refused for the causes of the passes that it makes. -/
theorem refusedOnlyFor_settle {step : Wide → Except PoolError Wide} {budget : Nat}
    {previous current : Wide}
    (hstep : ∀ y, Visits step budget previous current y → RefusedOnlyFor causes (step y)) :
    RefusedOnlyFor causes (settle step budget previous current) := by
  intro e he
  obtain ⟨y, hy, he⟩ := exists_visits_of_settle_error he
  exact hstep y hy e he

/-- A solver is refused for the causes of its search, for an answer that is too large, and for
    not coming to rest. -/
theorem refusedOnlyFor_answer {quantity result : String} {search : Except PoolError Halt}
    (hsearch : RefusedOnlyFor causes search) (hresult : causes (.overflow result))
    (hrest : causes (.noConvergence quantity)) :
    RefusedOnlyFor causes (Report.of quantity result search).answer := by
  intro e he
  obtain he | ⟨halt, -, ⟨-, -, rfl⟩ | ⟨-, rfl⟩⟩ := Report.answer_eq_error_iff.1 he
  · exact hsearch e he
  · exact hresult
  · exact hrest

theorem refusedOnlyFor_total {term : String} (h : causes (.overflow term))
    (balances : List Amount) : RefusedOnlyFor causes (total term balances) := by
  apply RefusedOnlyFor.foldlM
  intro x _ s
  exact Word.refusedOnlyFor_add h

theorem refusedOnlyFor_leverage {term : String} (h : causes (.overflow term))
    (amplification : Word 64) (n : Nat) :
    RefusedOnlyFor causes (leverage term amplification n) := Word.refusedOnlyFor_mul h

namespace Invariant

variable {balances : List Amount} {amplification : Word 64} {t : Terms} {d p : Wide}

/-- A product that could be formed has no divisor of zero. -/
theorem pos_of_product (h : product balances d = .ok p) {x : Amount} (hx : x ∈ balances) :
    0 < x.val := by
  obtain ⟨q, r, hfactor⟩ := exists_step_of_foldlM h hx
  simp only [factor, bind_eq_ok_iff, Word.mul_eq_ok_iff, Word.div_eq_ok_iff, Amount.val_wide]
    at hfactor
  obtain ⟨divisor, hdivisor, _, _, hne, _⟩ := hfactor
  rw [hdivisor] at hne
  exact Nat.pos_of_ne_zero (Nat.ne_zero_of_mul_ne_zero_left hne)

/-- The terms that the search for the invariant names when they are out of range. -/
def termNames : List String :=
  ["D: A·n", "D: A·n − 1", "D: n + 1", "D: S", "D: A·n·S", "D: n·x", "D: D_P·D", "D: D_P·n",
    "D: numerator sum", "D: numerator", "D: (A·n − 1)·D", "D: (n + 1)·D_P", "D: denominator",
    "D: result"]

/-- A product of quotients is refused for its terms, and for a balance that makes a divisor zero. -/
theorem refusedOnlyFor_factors (hterms : ∀ term ∈ termNames, causes (.overflow term)) {n : Nat}
    {given : List Amount} (hzero : ∀ x ∈ given, x.val * n = 0 → causes .divisionByZero) :
    RefusedOnlyFor causes (given.foldlM (factor n d) p) := by
  apply RefusedOnlyFor.foldlM
  intro x hx q
  unfold factor
  apply (Word.refusedOnlyFor_mul (hterms _ (by decide))).bind
  intro divisor hdivisor
  apply (Word.refusedOnlyFor_mul (hterms _ (by decide))).bind
  intro product _
  apply Word.refusedOnlyFor_div
  rw [Word.mul_eq_ok_iff.1 hdivisor]
  exact hzero x hx

/-- A pass is refused for its terms, for a balance that makes a divisor zero, and for the divisor at
    its end. -/
theorem refusedOnlyFor_step (hterms : ∀ term ∈ termNames, causes (.overflow term))
    (hzero : ∀ x ∈ t.balances, x.val * t.balances.length = 0 → causes .divisionByZero)
    (hdivisor : ∀ p, product t.balances d = .ok p →
      t.leverageLessOne.val * d.val + t.countPlusOne.val * p.val = 0 → causes .divisionByZero) :
    RefusedOnlyFor causes (step t d) := by
  unfold step
  apply (refusedOnlyFor_factors hterms hzero).bind
  intro p hp
  apply (Word.refusedOnlyFor_mul (hterms _ (by decide))).bind
  intro weighted _
  apply (Word.refusedOnlyFor_add (hterms _ (by decide))).bind
  intro scale _
  apply (Word.refusedOnlyFor_mul (hterms _ (by decide))).bind
  intro numerator _
  apply (Word.refusedOnlyFor_mul (hterms _ (by decide))).bind
  intro own hown
  apply (Word.refusedOnlyFor_mul (hterms _ (by decide))).bind
  intro cross hcross
  apply (Word.refusedOnlyFor_add (hterms _ (by decide))).bind
  intro denominator hdenominator
  apply Word.refusedOnlyFor_div
  rw [Word.add_eq_ok_iff.1 hdenominator, Word.mul_eq_ok_iff.1 hown, Word.mul_eq_ok_iff.1 hcross]
  exact hdivisor p hp

/-- A pass over positive balances whose own divisor is positive is refused only for a term out of
    range. -/
theorem refusedOnlyFor_step_of_pos (ht : terms balances amplification = .ok t)
    (hpos : ∀ x ∈ balances, 0 < x.val)
    (hdivisor : 0 < (amplification.val * balances.length - 1) * d.val + (balances.length + 1) *
      Exact.chain balances.length d.val (balances.map (·.val)) d.val) :
    RefusedOnlyFor IsOverflow (step t d) := by
  obtain ⟨hbalances, hless, hcount, -, -⟩ := terms_eq_ok ht
  have hlength := Nat.pos_of_mul_pos_left (leverage_pos_of_terms ht)
  have hlever : t.leverageLessOne.val = amplification.val * balances.length - 1 := by omega
  apply refusedOnlyFor_step fun term _ => isOverflow term
  · rw [hbalances]
    intro x hx hzero
    exact absurd hzero (Nat.mul_pos (hpos x hx) hlength).ne'
  · rw [hbalances]
    intro p hp hzero
    rw [hlever, hcount, product_eq_ok hp] at hzero
    exact absurd hzero hdivisor.ne'

theorem refusedOnlyFor_terms (hterms : ∀ term ∈ termNames, causes (.overflow term))
    (balances : List Amount) (amplification : Word 64) :
    RefusedOnlyFor causes (terms balances amplification) := by
  unfold terms
  apply (refusedOnlyFor_leverage (hterms _ (by decide)) _ _).bind
  intro leverage _
  apply (Word.refusedOnlyFor_sub fun _ => hterms _ (by decide)).bind
  intro leverageLessOne _
  apply (Word.refusedOnlyFor_fit (hterms _ (by decide))).bind
  intro countPlusOne _
  apply (refusedOnlyFor_total (hterms _ (by decide)) _).bind
  intro sum _
  apply (Word.refusedOnlyFor_mul (hterms _ (by decide))).bind
  intro leveragedSum _
  exact .pure _

end Invariant

open Invariant

variable {balances : List Amount} {amplification : Word 64}

/-- The solver is refused for its terms, for a divisor, and for not coming to rest. -/
theorem refusedOnlyFor_invariant (hterms : ∀ term ∈ termNames, causes (.overflow term))
    (hzero : causes .divisionByZero) (hrest : causes (.noConvergence "D")) :
    RefusedOnlyFor causes (invariant balances amplification) := by
  unfold invariant report search
  refine refusedOnlyFor_answer ?_ (hterms _ (by decide)) hrest
  refine .bind (refusedOnlyFor_terms hterms _ _) ?_
  intro t _
  apply refusedOnlyFor_settle
  intro y _
  exact Invariant.refusedOnlyFor_step hterms (fun _ _ _ => hzero) fun _ _ _ => hzero

/-- The solver answers for balances of more than one in all only if none of them is zero: the
    first pass divides by each. -/
theorem pos_of_invariant {d : Amount} (h : invariant balances amplification = .ok d)
    (hsum : 1 < (balances.map (·.val)).sum) : ∀ x ∈ balances, 0 < x.val := by
  intro x hx
  obtain ⟨t, _, ht, hsettle, -, -⟩ := exists_settled_of_invariant h
  obtain ⟨hbalances, -, -, htotal, -⟩ := terms_eq_ok ht
  have hfar : near t.sum 0 = false := near_zero_eq_false (htotal ▸ hsum)
  obtain ⟨next, hstep, -⟩ := (settle_succ_eq_ok_iff hfar).1 hsettle
  rw [step, bind_eq_ok_iff] at hstep
  obtain ⟨p, hp, _⟩ := hstep
  rw [hbalances] at hp
  exact pos_of_product hp hx

/-- Where the balances add up to one at most, no pass is made, and the sum is the answer. -/
theorem eq_sum_of_invariant {d : Amount} (h : invariant balances amplification = .ok d)
    (hsum : (balances.map (·.val)).sum ≤ 1) : d.val = (balances.map (·.val)).sum := by
  obtain ⟨t, _, ht, hsettle, -, hd⟩ := exists_settled_of_invariant h
  obtain ⟨-, -, -, htotal, -⟩ := terms_eq_ok ht
  have hnear : near t.sum 0 = true := near_zero_iff.2 (htotal ▸ hsum)
  rw [settle_of_near hnear] at hsettle
  cases hsettle
  exact hd.trans htotal

end Curve

end StableSwap
