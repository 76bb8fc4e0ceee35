import StableSwap.Proofs.Curve.Agreement
import StableSwap.Proofs.Curve.BalanceTolerance

/-!
# The balance solver comes to rest

A pass leads from `y` to at most `root + (y − root)² / (2·(y − root) + slope)`, where the
slope is that of the quadratic at its larger root. So it at least halves the distance to
the root from above, and next to the root it moves by one unit at most. A target of
`2^254` is therefore brought to rest by the 255 passes that the solver may make.

That is not enough for a target below the root, from which the first pass may lead as far
as `2^256` above it. But it leads so far only if the root is large, and then the slope is
large as well: once the distance has fallen below the slope, a pass divides it by four.

Main statements:

* `IsRoot.excess_mul_le`: the distance to the root after a pass.
* `Within.halve`, `Within.quarter`, `Within.near_step`: what a pass makes of a value that is
  within a distance of the root.
* `IsRoot.le_of_first_step`: how far the first pass from a target below the root can lead.
* `atRest_of_settle`: the repetition that begins with a target of at most `2^254` comes to rest
  if it ends.
* `balance_settles`: the solver answers or is refused by its arithmetic.
-/

namespace StableSwap.Curve

namespace Balance

variable {q : Quadratic} {root e : ℝ} {y y' : Wide}

/-- The slope of the quadratic at a value. -/
def Quadratic.slope (q : Quadratic) (t : ℝ) : ℝ := 2 * t + ((q.b.val : ℝ) - q.target.val)

/-- The larger root of the quadratic, at which it does not fall. -/
structure Quadratic.IsRoot (q : Quadratic) (root : ℝ) : Prop where
  nonneg : 0 ≤ root
  eq : root * root + ((q.b.val : ℝ) - q.target.val) * root = q.c.val
  slope_nonneg : 0 ≤ q.slope root

theorem Quadratic.exists_root (q : Quadratic) : ∃ root, q.IsRoot root := by
  obtain ⟨root, hnonneg, heq, hgreatest⟩ :=
    exists_isGreatest_root ((q.b.val : ℝ) - q.target.val) (c := q.c.val) (Nat.cast_nonneg _)
  have heq' : root * root + ((q.b.val : ℝ) - q.target.val) * root = q.c.val := heq
  -- the two roots add up to the coefficient of `t`
  have hother : -((q.b.val : ℝ) - q.target.val) - root ≤ root := by
    apply hgreatest
    rw [Set.mem_ofPred_eq]
    linarith
  refine ⟨root, hnonneg, heq', ?_⟩
  unfold Quadratic.slope
  linarith

/-! ## Passes -/

/-- The divisor of a pass that answers is positive. -/
theorem one_le_divisor_of_step (root : ℝ) (h : step q y = .ok y') :
    1 ≤ 2 * (y.val - root) + q.slope root := by
  have hdivisor := (eq_balanceStep h).2
  have hcast : (q.target.val : ℝ) + 1 ≤ y.val * 2 + q.b.val := by exact_mod_cast hdivisor
  unfold Quadratic.slope
  linarith

namespace Quadratic.IsRoot

/-- One more than the outcome of a pass exceeds the root. -/
theorem lt_of_step (hroot : q.IsRoot root) (h : step q y = .ok y') : root < y'.val + 1 := by
  exact_mod_cast (exceeds_step h).root_lt hroot.nonneg hroot.eq

/-- The distance to the root after a pass, times the divisor, is at most the square of the distance
    before. -/
theorem excess_mul_le (hroot : q.IsRoot root) (h : step q y = .ok y') :
    ((y'.val : ℝ) - root) * (2 * (y.val - root) + q.slope root) ≤ (y.val - root) ^ 2 := by
  obtain ⟨hy', hdivisor⟩ := eq_balanceStep h
  have hfloor : y'.val * (y.val * 2 + q.b.val - q.target.val) ≤ y.val * y.val + q.c.val := by
    rw [hy', Exact.balanceStep]
    exact Nat.div_mul_le_self _ _
  have hreal : (y'.val : ℝ) * (y.val * 2 + q.b.val - q.target.val) ≤
      y.val * y.val + q.c.val := by
    have hcast := Nat.cast_sub (R := ℝ) hdivisor.le
    push_cast at hcast
    rw [← hcast]
    exact_mod_cast hfloor
  have heq := hroot.eq
  unfold Quadratic.slope
  linarith

/-- A pass leads to within a distance whose product with the divisor reaches the square of the
    distance before. -/
theorem le_of_sq_le (hroot : q.IsRoot root) (h : step q y = .ok y')
    (hsq : ((y.val : ℝ) - root) ^ 2 ≤ e * (2 * (y.val - root) + q.slope root)) :
    (y'.val : ℝ) ≤ root + e := by
  have hexcess := (hroot.excess_mul_le h).trans hsq
  have hdivisor := one_le_divisor_of_step root h
  have hle := le_of_mul_le_mul_right hexcess (by linarith)
  linarith

/-- From a target below the root the first pass leads beyond the root by its square at most. -/
theorem le_of_first_step (hroot : q.IsRoot root) (htarget : (q.target.val : ℝ) ≤ root)
    (h : step q q.target = .ok y') : (y'.val : ℝ) ≤ root + root ^ 2 := by
  apply hroot.le_of_sq_le h
  have hdivisor := one_le_divisor_of_step root h
  have hnonneg : (0 : ℝ) ≤ q.target.val := Nat.cast_nonneg _
  calc ((q.target.val : ℝ) - root) ^ 2 ≤ root ^ 2 := by nlinarith
    _ ≤ root ^ 2 * (2 * (q.target.val - root) + q.slope root) :=
        le_mul_of_one_le_right (sq_nonneg root) hdivisor

end Quadratic.IsRoot

/-- If the target is below the root, then the slope is at least the root. -/
theorem Quadratic.le_slope (htarget : (q.target.val : ℝ) ≤ root) : root ≤ q.slope root := by
  have hb : (0 : ℝ) ≤ q.b.val := Nat.cast_nonneg _
  unfold Quadratic.slope
  linarith

/-! ## The distance to the root -/

/-- The value is less than a unit below the root, and above it by the distance at most. -/
structure Within (root e : ℝ) (y : Wide) : Prop where
  root_lt : root < y.val + 1
  le : (y.val : ℝ) ≤ root + e

namespace Within

/-- From less than a unit below the root, a pass leads to within any distance of one or more. -/
theorem sq_le_of_lt_root (hy : Within root e y) (hlt : (y.val : ℝ) < root) {e' : ℝ} (he' : 1 ≤ e')
    (h : step q y = .ok y') :
    ((y.val : ℝ) - root) ^ 2 ≤ e' * (2 * (y.val - root) + q.slope root) := by
  have hdivisor := one_le_divisor_of_step root h
  have hunit := hy.root_lt
  calc ((y.val : ℝ) - root) ^ 2 ≤ 1 * 1 := by nlinarith
    _ ≤ e' * (2 * (y.val - root) + q.slope root) :=
        mul_le_mul he' hdivisor (by norm_num) (by linarith)

/-- A pass halves a distance of two or more. -/
theorem halve (hroot : q.IsRoot root) (hy : Within root (2 * e) y) (he : 1 ≤ e)
    (h : step q y = .ok y') : Within root e y' := by
  refine ⟨hroot.lt_of_step h, hroot.le_of_sq_le h ?_⟩
  rcases lt_or_ge (y.val : ℝ) root with hlt | hge
  · exact hy.sq_le_of_lt_root hlt he h
  · have hslope := hroot.slope_nonneg
    have hle := hy.le
    calc ((y.val : ℝ) - root) ^ 2 = (y.val - root) * (y.val - root) := sq _
      _ ≤ 2 * e * (y.val - root) := mul_le_mul_of_nonneg_right (by linarith) (by linarith)
      _ ≤ e * (2 * (y.val - root) + q.slope root) := by nlinarith

/-- A pass divides by four a distance of four or more that is at most half the slope. -/
theorem quarter (hroot : q.IsRoot root) (hy : Within root (4 * e) y) (he : 1 ≤ e)
    (hslope : 8 * e ≤ q.slope root) (h : step q y = .ok y') : Within root e y' := by
  refine ⟨hroot.lt_of_step h, hroot.le_of_sq_le h ?_⟩
  rcases lt_or_ge (y.val : ℝ) root with hlt | hge
  · exact hy.sq_le_of_lt_root hlt he h
  · have hle := hy.le
    have hscaled : e * (8 * e) ≤ e * q.slope root := mul_le_mul_of_nonneg_left hslope (by linarith)
    calc ((y.val : ℝ) - root) ^ 2 = (y.val - root) * (y.val - root) := sq _
      _ ≤ 4 * e * (y.val - root) := mul_le_mul_of_nonneg_right (by linarith) (by linarith)
      _ ≤ e * (2 * (y.val - root) + q.slope root) := by nlinarith

/-- From a value within a unit of the root a pass moves by a unit at most. -/
theorem near_step (hroot : q.IsRoot root) (hy : Within root 1 y) (h : step q y = .ok y') :
    near y' y = true := by
  have hwider : Within root (2 * 1) y := ⟨hy.root_lt, by linarith [hy.le]⟩
  have hy' := hwider.halve hroot le_rfl h
  have hdown : (y.val : ℝ) < y'.val + 2 := by linarith [hy.le, hy'.root_lt]
  have hup : (y'.val : ℝ) < y.val + 2 := by linarith [hy'.le, hy.root_lt]
  have hdown' : y.val < y'.val + 2 := by exact_mod_cast hdown
  have hup' : y'.val < y.val + 2 := by exact_mod_cast hup
  rw [near_iff]
  omega

end Within

/-! ## Repetitions -/

section Settle

variable {budget r m : ℕ} {previous current : Wide} {halt : Halt}

/-- A distance of `2^r` is halved down to one by `r` passes, and the pass after them is short. -/
theorem atRest_of_within (hroot : q.IsRoot root) (hr : r < budget)
    (hcurrent : Within root (2 ^ r) current)
    (h : settle (step q) budget previous current = .ok halt) : halt.atRest = true := by
  apply settle_atRest_of_rank (fun r y => Within root (2 ^ r) y) _ _ hr hcurrent h
  · intro r y y' hy hstep
    rw [pow_succ'] at hy
    exact hy.halve hroot (one_le_pow₀ one_le_two) hstep
  · intro y y' hy hstep
    rw [pow_zero] at hy
    exact hy.near_step hroot hstep

/-- Where the slope is at least `2^(2·m + 1)`, the last `m` of the passes divide the distance by
    four, and `r` passes are enough for a distance of `2^(r + m)`. -/
theorem atRest_of_within_of_slope (hroot : q.IsRoot root) (hslope : 2 ^ (2 * m + 1) ≤ q.slope root)
    (hm : m ≤ r) (hr : r < budget) (hcurrent : Within root (2 ^ (r + m)) current)
    (h : settle (step q) budget previous current = .ok halt) : halt.atRest = true := by
  rw [← min_eq_right (by omega : r + m ≤ 2 * r)] at hcurrent
  apply settle_atRest_of_rank (fun r y => Within root (2 ^ min (2 * r) (r + m)) y) _ _ hr hcurrent h
  · intro r y y' hy hstep
    rcases Nat.lt_or_ge r m with hlt | hge
    · rw [min_eq_left (by omega : 2 * (r + 1) ≤ r + 1 + m)] at hy
      rw [min_eq_left (by omega : 2 * r ≤ r + m)]
      have hquarter : (2 : ℝ) ^ (2 * (r + 1)) = 4 * 2 ^ (2 * r) := by ring
      have hsteep : 8 * 2 ^ (2 * r) ≤ q.slope root := by
        calc (8 : ℝ) * 2 ^ (2 * r) = 2 ^ (2 * r + 3) := by ring
          _ ≤ 2 ^ (2 * m + 1) := pow_le_pow_right₀ one_le_two (by omega)
          _ ≤ q.slope root := hslope
      rw [hquarter] at hy
      exact hy.quarter hroot (one_le_pow₀ one_le_two) hsteep hstep
    · rw [min_eq_right (by omega : r + 1 + m ≤ 2 * (r + 1)), Nat.add_right_comm, pow_succ'] at hy
      rw [min_eq_right (by omega : r + m ≤ 2 * r)]
      exact hy.halve hroot (one_le_pow₀ one_le_two) hstep
  · intro y y' hy hstep
    rw [Nat.mul_zero, Nat.zero_min, pow_zero] at hy
    exact hy.near_step hroot hstep

end Settle

/-- A value from which a pass answers has a square of 512 bits. -/
theorem lt_size_of_step (h : step q y = .ok y') : y.val < Word.size 256 := by
  simp only [step, bind_eq_ok_iff, Word.mul_eq_ok_iff] at h
  obtain ⟨square, hsquare, -⟩ := h
  have hlt := square.isLt
  rw [hsquare, show Word.size 512 = Word.size 256 * Word.size 256 from Word.size_add 256 256] at hlt
  exact Nat.mul_self_lt_mul_self_iff.1 hlt

/-- After a first pass from a target below the root the repetition comes to rest, if it ends. -/
theorem atRest_after_first_step (hroot : q.IsRoot root) (htarget : (q.target.val : ℝ) ≤ root)
    (hfirst : step q q.target = .ok y) {previous : Wide} {halt : Halt}
    (h : settle (step q) 254 previous y = .ok halt) : halt.atRest = true := by
  have hlt := hroot.lt_of_step hfirst
  rcases le_or_gt (y.val : ℝ) (root + 2 ^ 253) with hle | hgt
  · exact atRest_of_within hroot (by decide : 253 < 254) ⟨hlt, hle⟩ h
  · cases hn : near y previous with
    | true =>
      rw [settle_of_near hn] at h
      cases h
      rfl
    | false =>
      -- the pass has led far beyond the root, so that the root is large
      have hsquare := hroot.le_of_first_step htarget hfirst
      have hlarge : 2 ^ (2 * 62 + 1) ≤ root := by
        by_contra hsmall
        rw [not_le] at hsmall
        have hpow : root ^ 2 ≤ 2 ^ 253 := by
          calc root ^ 2 ≤ (2 ^ (2 * 62 + 1)) ^ 2 := pow_le_pow_left₀ hroot.nonneg hsmall.le 2
            _ = 2 ^ 250 := by rw [← pow_mul]
            _ ≤ 2 ^ 253 := pow_le_pow_right₀ one_le_two (by decide)
        linarith
      have hslope := hlarge.trans (Quadratic.le_slope htarget)
      -- and the next pass is possible only from less than `2^256`
      have hwithin : Within root (2 ^ 256) y := by
        obtain ⟨y', hy', -⟩ := (settle_succ_eq_ok_iff hn).1 h
        have hsize : y.val < 2 ^ 256 := lt_size_of_step hy'
        have hsize' : (y.val : ℝ) < 2 ^ 256 := by exact_mod_cast hsize
        exact ⟨hlt, hsize'.le.trans (le_add_of_nonneg_left hroot.nonneg)⟩
      exact atRest_of_within_of_slope hroot hslope (by decide) (by decide : 194 < 254) hwithin h

/-- The repetition that begins with a target of at most `2^254` comes to rest if it ends. -/
theorem atRest_of_settle (htarget : q.target.val ≤ 2 ^ 254) {halt : Halt}
    (h : settle (step q) passLimit 0 q.target = .ok halt) : halt.atRest = true := by
  obtain ⟨root, hroot⟩ := q.exists_root
  have htarget' : (q.target.val : ℝ) ≤ 2 ^ 254 := by exact_mod_cast htarget
  rcases lt_or_ge root q.target.val with habove | hbelow
  · -- from above, every pass halves the distance
    apply atRest_of_within hroot (by decide : 254 < passLimit) _ h
    exact ⟨by linarith, by linarith [hroot.nonneg]⟩
  · cases hn : near q.target 0 with
    | true =>
      rw [settle_of_near hn] at h
      cases h
      rfl
    | false =>
      obtain ⟨y, hy, rest, hrest, rfl⟩ := (settle_succ_eq_ok_iff hn).1 h
      show rest.atRest = true
      exact atRest_after_first_step hroot hbelow hy hrest

/-- From a target of at most `2^254` the solver answers or is refused by its arithmetic. -/
theorem answered_or_refused {balances : List Amount} {amplification : Word 64} {k : ℕ} {d : Amount}
    (hd : d.val ≤ 2 ^ 254) :
    (∃ y passes, report balances amplification k d = ⟨.ok y, some passes⟩ ∧ passes ≤ passLimit) ∨
      ∃ e, balance balances amplification k d = .error e ∧ ArithmeticRefusal e := by
  unfold balance report
  cases hsearch : search balances amplification k d with
  | error e =>
    have hrefusal := (solves balances amplification k d).refusedOnlyFor_search e hsearch
    exact .inr ⟨e, rfl, hrefusal⟩
  | ok halt =>
    rw [search, bind_eq_ok_iff] at hsearch
    obtain ⟨q, hq, hsettle⟩ := hsearch
    have htarget : q.target.val = d.val := (eq_coefficients hq).1
    have hrest := atRest_of_settle (by omega) hsettle
    have hreport : Report.of "y" "y: result" (.ok halt) =
        ⟨Word.fit "y: result" halt.value.val, some halt.passes⟩ := by
      rw [Report.of, Halt.answer, if_pos hrest]
    rw [hreport]
    cases hfit : (Word.fit "y: result" halt.value.val : Except PoolError Amount) with
    | ok y => exact .inl ⟨y, halt.passes, rfl, settle_passes_le hsettle⟩
    | error e => exact .inr ⟨e, rfl, .inr ⟨_, (Word.fit_eq_error_iff.1 hfit).2⟩⟩

end Balance

open Balance

/-- The balance solver comes to rest within its passes, for all balances, every amplification, every
    asset and every target up to `2^254`: it answers after 255 passes at most, or it is refused for
    a division by zero or a term out of range. -/
theorem balance_settles {balances : List Amount} {amplification : Word 64} {k : ℕ} {d : Amount}
    (hd : d.val ≤ 2 ^ 254) :
    balance balances amplification k d ≠ .error (.noConvergence "y") ∧
      ((∃ y passes, report balances amplification k d = ⟨.ok y, some passes⟩ ∧ passes ≤ 255) ∨
        balance balances amplification k d = .error .divisionByZero ∨
        ∃ term, balance balances amplification k d = .error (.overflow term)) := by
  obtain ⟨y, passes, hreport, hpasses⟩ | ⟨e, he, hrefusal⟩ := answered_or_refused hd
  · refine ⟨?_, .inl ⟨y, passes, hreport, hpasses⟩⟩
    rw [balance, hreport]
    intro h
    cases h
  · rw [he]
    refine ⟨?_, .inr ?_⟩
    · rintro ⟨⟩
      exact not_arithmeticRefusal_noConvergence _ hrefusal
    · obtain rfl | ⟨term, rfl⟩ := hrefusal
      · exact .inl rfl
      · exact .inr ⟨term, rfl⟩

/-- From the target `2^129` beside a balance of one the first pass leaps to more than `2^254`, and
    70 more lead down to the root. -/
theorem balance_settles_leapingPair :
    (680564733841876926926749214863536422912 : Amount).val ≤ 2 ^ 254 ∧
      balance [0, 1] 1 0 680564733841876926926749214863536422912 =
        .ok 6277101735386680764005930606668135647836348591189132312575 ∧
      (report [0, 1] 1 0 680564733841876926926749214863536422912).passes = some 71 ∧
      balance [0, 1] 1 0 680564733841876926926749214863536422912 ≠
        .error (.noConvergence "y") ∧
      ∃ y passes, report [0, 1] 1 0 680564733841876926926749214863536422912 =
        ⟨.ok y, some passes⟩ ∧ passes ≤ 255 := by
  have htarget : (680564733841876926926749214863536422912 : Amount).val ≤ 2 ^ 254 := by
    decide +kernel
  have hanswer : balance [0, 1] 1 0 680564733841876926926749214863536422912 =
      .ok 6277101735386680764005930606668135647836348591189132312575 := by decide +kernel
  obtain ⟨hrest, houtcome⟩ := @balance_settles [0, 1] 1 0 _ htarget
  refine ⟨htarget, hanswer, by decide +kernel, hrest, ?_⟩
  obtain hreport | hdivision | ⟨term, hoverflow⟩ := houtcome
  · exact hreport
  · rw [hanswer] at hdivision
    cases hdivision
  · rw [hanswer] at hoverflow
    cases hoverflow

end StableSwap.Curve
