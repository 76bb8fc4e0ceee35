import StableSwap.Proofs.Curve.BalanceBound
import StableSwap.Proofs.Curve.Division

/-!
# The divisor of the balance solver

A pass from `y` divides by `2·y + b − d`, and in most pools `b` is less than `d`. The
divisor is positive all the same: one more than the outcome of a pass lies above the
root of the quadratic, where the other factor `y + 1 + b − d` is positive. That leaves
the outcome zero with `b = d` and `c = 0`, and to it no pass leads that does not also
end the repetition.

Main statements:

* `divisor_pos_of_step`: a pass that does not end the repetition leads to a value with a
  positive divisor.
* `divisor_pos_of_visits`: so do all values from which the solver makes a pass.
* `refusedOnlyFor_coefficients`, `refusedOnlyFor_pass`: the quadratic and a pass are refused for the
  terms that they name and for their divisors.
* `refusedOnlyFor_quadratic`, `refusedOnlyFor_step`: neither the quadratic beside positive
  balances nor a pass with a positive divisor is refused for a divisor.
* `refusedOnlyFor_balance`: what the solver is refused for.
* `balance_divisor_pos`: what they come to for the solver.
-/

namespace StableSwap.Curve

namespace Balance

variable {q : Quadratic} {y y' : Wide} {e : PoolError} {causes : PoolError → Prop}

/-- The terms that the search for a balance names when they are out of range. -/
def termNames : List String :=
  ["y: A·n", "y: S'", "y: c·D", "y: x·n", "y: n·A·n", "y: b", "y: y²", "y: y² + c", "y: 2y",
    "y: 2y + b", "y: denominator", "y: result"]

/-- The causes that no divisor has: it would be zero, or the one at the end of a pass negative. -/
def ApartFromDivisor (e : PoolError) : Prop := e ≠ .divisionByZero ∧ e ≠ .overflow "y: denominator"

theorem apartFromDivisor_overflow {term : String} (h : term ≠ "y: denominator") :
    ApartFromDivisor (.overflow term) := by
  simp [ApartFromDivisor, h]

theorem apartFromDivisor_noConvergence (quantity : String) :
    ApartFromDivisor (.noConvergence quantity) := by
  simp [ApartFromDivisor]

/-! ## Passes -/

/-- A pass that does not end the repetition leads to a value with a positive divisor. -/
theorem divisor_pos_of_step (h : step q y = .ok y') (hfar : near y' y = false) :
    q.target.val < y'.val * 2 + q.b.val := by
  have hexceeds := exceeds_step h
  have hfactor := hexceeds.factor_pos
  rcases Nat.eq_zero_or_pos y'.val with hzero | hpos
  · -- the divisor is `b - d`, and it vanishes only together with `c`
    rw [hzero] at hexceeds hfactor ⊢
    by_contra hnot
    have hb : q.b.val = q.target.val := by
      push_cast at hfactor
      omega
    have hc : q.c.val = 0 := by
      unfold Quadratic.Exceeds at hexceeds
      rw [hb] at hexceeds
      push_cast at hexceeds
      omega
    -- then a pass halves, and leads to zero from zero or one
    obtain ⟨hy', hdivisor⟩ := eq_balanceStep h
    rw [hb] at hdivisor
    have hhalf : y.val * y.val / (y.val * 2) = 0 := by
      rw [← hzero, hy', Exact.balanceStep, hb, hc, Nat.add_zero, Nat.add_sub_cancel]
    have hsmall : y.val * y.val < y.val * 2 := by
      rcases Nat.div_eq_zero_iff.1 hhalf with hnone | hlt
      · omega
      · exact hlt
    have hlt := Nat.lt_of_mul_lt_mul_left hsmall
    have hnear : near y' y = true := by
      rw [near_iff]
      omega
    rw [hnear] at hfar
    cases hfar
  · push_cast at hfactor
    omega

/-- Every value from which the repetition makes a pass has a positive divisor, if the first one
    has. -/
theorem Visits.divisor_pos {budget : ℕ} {previous current : Wide}
    (h : Visits (step q) budget previous current y)
    (hcurrent : near current previous = false → q.target.val < current.val * 2 + q.b.val) :
    q.target.val < y.val * 2 + q.b.val := by
  induction h with
  | first hfar => exact hcurrent hfar
  | later _ hnext _ ih => exact ih fun hfar => divisor_pos_of_step hnext hfar

/-- The solver begins with the target, and makes a pass only from a target of more than one. -/
theorem divisor_pos_of_visits (h : Visits (step q) passLimit 0 q.target y) :
    q.target.val < y.val * 2 + q.b.val := by
  apply Visits.divisor_pos h
  intro hfar
  have hlarge : ¬ q.target.val ≤ 1 := by
    rw [← near_zero_iff, hfar]
    exact Bool.false_ne_true
  omega

/-- A pass is refused for its terms, and for a divisor that is zero or would be negative. -/
theorem refusedOnlyFor_pass
    (hterms : ∀ term ∈ termNames, term ≠ "y: denominator" → causes (.overflow term))
    (hnegative : y.val * 2 + q.b.val < q.target.val → causes (.overflow "y: denominator"))
    (hzero : y.val * 2 + q.b.val = q.target.val → causes .divisionByZero) :
    RefusedOnlyFor causes (step q y) := by
  unfold step
  apply (Word.refusedOnlyFor_mul (hterms _ (by decide) (by decide))).bind
  intro square _
  apply (Word.refusedOnlyFor_add (hterms _ (by decide) (by decide))).bind
  intro numerator _
  apply (Word.refusedOnlyFor_mul (hterms _ (by decide) (by decide))).bind
  intro double hdouble
  apply (Word.refusedOnlyFor_add (hterms _ (by decide) (by decide))).bind
  intro shifted hshifted
  have hvalue : shifted.val = y.val * 2 + q.b.val := by
    rw [Word.add_eq_ok_iff.1 hshifted, Word.mul_eq_ok_iff.1 hdouble]
  refine .bind (Word.refusedOnlyFor_sub (hvalue ▸ hnegative)) ?_
  intro denominator hdenominator
  have hdifference := Word.sub_eq_ok_iff.1 hdenominator
  exact Word.refusedOnlyFor_div fun hnone => hzero (by omega)

/-- A pass with a positive divisor is not refused for it. -/
theorem refusedOnlyFor_step (hdivisor : q.target.val < y.val * 2 + q.b.val) :
    RefusedOnlyFor ApartFromDivisor (step q y) := by
  apply refusedOnlyFor_pass
  · intro term _ hterm
    exact apartFromDivisor_overflow hterm
  · intro hnegative
    omega
  · intro hzero
    omega

/-! ## The quadratic -/

variable {balances : List Amount} {amplification : Word 64} {k : ℕ} {d : Amount}

/-- The quadratic is refused for its terms, and where a balance, their number or the amplification
    is zero. -/
theorem refusedOnlyFor_coefficients
    (hterms : ∀ term ∈ termNames, term ≠ "y: denominator" → causes (.overflow term))
    (hmissing : ∀ x ∈ balances.eraseIdx k, x.val * balances.length = 0 → causes .divisionByZero)
    (hzero : amplification.val * balances.length * balances.length = 0 → causes .divisionByZero) :
    RefusedOnlyFor causes (quadratic balances amplification k d) := by
  unfold quadratic
  apply (refusedOnlyFor_leverage (hterms _ (by decide) (by decide)) _ _).bind
  intro leverage hleverage
  have hlever := leverage_eq_ok_iff.1 hleverage
  apply (refusedOnlyFor_total (hterms _ (by decide) (by decide)) _).bind
  intro sum _
  refine .bind (.foldlM ?_ _) ?_
  · intro x hx c
    unfold factor
    apply (Word.refusedOnlyFor_mul (hterms _ (by decide) (by decide))).bind
    intro product _
    apply (Word.refusedOnlyFor_mul (hterms _ (by decide) (by decide))).bind
    intro divisor hdivisor
    apply Word.refusedOnlyFor_div
    rw [Word.mul_eq_ok_iff.1 hdivisor]
    exact hmissing x hx
  intro partialC _
  apply (Word.refusedOnlyFor_mul (hterms _ (by decide) (by decide))).bind
  intro lastProduct _
  apply (Word.refusedOnlyFor_mul (hterms _ (by decide) (by decide))).bind
  intro lastDivisor hlastDivisor
  have hlast : lastDivisor.val = amplification.val * balances.length * balances.length := by
    rw [Word.mul_eq_ok_iff.1 hlastDivisor, hlever]
  refine .bind (Word.refusedOnlyFor_div (hlast ▸ hzero)) ?_
  intro c _
  refine .bind (Word.refusedOnlyFor_div fun hnone => hzero ?_) ?_
  · rw [← hlever, hnone, Nat.zero_mul]
  intro share _
  apply (Word.refusedOnlyFor_add (hterms _ (by decide) (by decide))).bind
  intro b _
  exact .pure _

/-- The quadratic beside positive balances is not refused for a divisor. -/
theorem refusedOnlyFor_quadratic (hn : 0 < balances.length) (hamp : 0 < amplification.val)
    (hpos : ∀ x ∈ balances.eraseIdx k, 0 < x.val) :
    RefusedOnlyFor ApartFromDivisor (quadratic balances amplification k d) := by
  apply refusedOnlyFor_coefficients
  · intro term _ hterm
    exact apartFromDivisor_overflow hterm
  · intro x hx hzero
    exact absurd hzero (Nat.mul_pos (hpos x hx) hn).ne'
  · intro hzero
    exact absurd hzero (Nat.mul_pos (Nat.mul_pos hamp hn) hn).ne'

end Balance

open Balance

/-- The solver is refused for its terms, for a divisor, and for not coming to rest. -/
theorem refusedOnlyFor_balance {balances : List Amount} {amplification : Word 64} {k : ℕ}
    {d : Amount} {causes : PoolError → Prop}
    (hterms : ∀ term ∈ termNames, causes (.overflow term)) (hzero : causes .divisionByZero)
    (hrest : causes (.noConvergence "y")) :
    RefusedOnlyFor causes (balance balances amplification k d) := by
  unfold balance report search
  refine refusedOnlyFor_answer ?_ (hterms _ (by decide)) hrest
  refine .bind (refusedOnlyFor_coefficients (fun _ hterm _ => hterms _ hterm) (fun _ _ _ => hzero)
    fun _ => hzero) ?_
  intro q _
  apply refusedOnlyFor_settle
  intro y _
  exact refusedOnlyFor_pass (fun _ hterm _ => hterms _ hterm) (fun _ => hterms _ (by decide))
    fun _ => hzero

/-- The divisor of the balance solver, for any target and any asset whose other balances are
    positive: the solver is refused neither for a division by zero nor for a divisor that would be
    negative, since `2·y + b` exceeds the target at every value `y` from which it makes a pass. The
    balance that is sought may be zero, and where no asset has the index, none is left out. -/
theorem balance_divisor_pos {balances : List Amount} {amplification : Word 64} {k : ℕ} {d : Amount}
    (hne : balances ≠ []) (hamp : 0 < amplification.val)
    (hpos : ∀ i (hi : i < balances.length), i ≠ k → 0 < balances[i].val) :
    balance balances amplification k d ≠ .error .divisionByZero ∧
      balance balances amplification k d ≠ .error (.overflow "y: denominator") ∧
      ∀ q y, quadratic balances amplification k d = .ok q →
        Visits (step q) passLimit 0 q.target y → q.target.val < y.val * 2 + q.b.val := by
  have hgiven : ∀ x ∈ balances.eraseIdx k, 0 < x.val := by
    intro x hx
    obtain ⟨i, hi, hik, rfl⟩ := List.mem_eraseIdx_iff_getElem.1 hx
    exact hpos i hi hik
  have hrefused : RefusedOnlyFor ApartFromDivisor (balance balances amplification k d) := by
    apply refusedOnlyFor_answer _ (apartFromDivisor_overflow (by decide))
      (apartFromDivisor_noConvergence _)
    apply (refusedOnlyFor_quadratic (List.length_pos_iff.2 hne) hamp hgiven).bind
    intro q _
    apply refusedOnlyFor_settle
    intro y hy
    exact refusedOnlyFor_step (divisor_pos_of_visits hy)
  refine ⟨?_, ?_, ?_⟩
  · intro h
    exact (hrefused _ h).1 rfl
  · intro h
    exact (hrefused _ h).2 rfl
  · intro q y _ hy
    exact divisor_pos_of_visits hy

/-- The quadratic `t² = 0`, of the target 10 beside a balance of 10. -/
def halvingQuadratic : Quadratic where
  c := 0
  b := 10
  target := 10

/-- With `c` zero and `b` equal to the target the passes halve. They lead from 10 to 5, 2 and 1, and
    end there: zero, whose divisor is zero, is not reached. -/
theorem balance_divisor_pos_halvingPair :
    quadratic [0, 10] 100 0 10 = .ok halvingQuadratic ∧ balance [0, 10] 100 0 10 = .ok 1 ∧
      balance [0, 10] 100 0 10 ≠ .error .divisionByZero ∧
      balance [0, 10] 100 0 10 ≠ .error (.overflow "y: denominator") ∧
      Visits (step halvingQuadratic) passLimit 0 halvingQuadratic.target 2 ∧
      halvingQuadratic.target.val < (2 : Wide).val * 2 + halvingQuadratic.b.val := by
  have hquadratic : quadratic [0, 10] 100 0 10 = .ok halvingQuadratic := by decide +kernel
  have hanswer : balance [0, 10] 100 0 10 = .ok 1 := by decide +kernel
  have hvisits : Visits (step halvingQuadratic) passLimit 0 halvingQuadratic.target 2 := by
    show Visits (step halvingQuadratic) (252 + 3) 0 10 2
    have hfirst : step halvingQuadratic 10 = .ok 5 := by decide +kernel
    have hsecond : step halvingQuadratic 5 = .ok 2 := by decide +kernel
    refine .later (by decide +kernel) hfirst ?_
    exact .later (by decide +kernel) hsecond (.first (by decide +kernel))
  have hothers : ∀ i (hi : i < [(0 : Amount), 10].length), i ≠ 0 →
      0 < [(0 : Amount), 10][i].val := by decide
  obtain ⟨hdivision, hdenominator, hpasses⟩ :=
    @balance_divisor_pos [0, 10] 100 0 10 (by decide) (by decide) hothers
  exact ⟨hquadratic, hanswer, hdivision, hdenominator, hvisits,
    hpasses halvingQuadratic 2 hquadratic hvisits⟩

end StableSwap.Curve
