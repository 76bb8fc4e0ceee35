import StableSwap.Curve.Residual
import StableSwap.Proofs.Curve.BalanceBound

/-!
# One run over the balances

The quadratic for a balance needs the sum and the product of quotients of the given ones,
and the residual the sum of the balances and a product of them. Both definitions form
the one after the other.

Specification: a single run over all balances, as `solve_y` (§4.3) and `invariant_error`
(§15) make it. For the quadratic it has the indices with it and passes over the balance that is
sought. At every other it takes in the sum first and the product second. Where a run of
this kind is refused, the two runs are refused for the same cause: a sum of balances
stays in the range of the wide numbers, so that it is always the product that refuses.

Main statements:

* `foldlM_zipIdx_unless`: a run that passes over an index is a run over the other entries.
* `foldlM_takeBeside`: two quantities gathered at once, where the first is never refused.
* `gather_eq`: what a single run for the quadratic gathers.
* `gatheredQuadratic_eq`, `gatheredResidual_eq`: one run gives the same quadratic and the same
  residual as two, or the same refusal.
-/

namespace StableSwap

section

variable {α β : Type} (f : β → α → Except PoolError β)

/-- A run that meets only later indices than the one it passes over takes every entry. -/
theorem foldlM_zipIdx_of_lt {k start : ℕ} (h : k < start) (as : List α) (b : β) :
    (as.zipIdx start).foldlM (fun b (a, i) => if i = k then pure b else f b a) b =
      as.foldlM f b := by
  induction as generalizing start b with
  | nil => rfl
  | cons a as ih =>
    rw [List.zipIdx_cons, List.foldlM_cons, List.foldlM_cons]
    dsimp only
    rw [if_neg h.ne']
    exact congrArg (f b a >>= ·) (funext fun b' => ih (Nat.lt_succ_of_lt h) b')

/-- A run over a list with its indices that passes over one index takes every other entry. -/
theorem foldlM_zipIdx_unless (start k : ℕ) (as : List α) (b : β) :
    (as.zipIdx start).foldlM (fun b (a, i) => if i = start + k then pure b else f b a) b =
      (as.eraseIdx k).foldlM f b := by
  -- the tail begins at the next index, so that `k` is counted from where the run begins
  induction as generalizing start k b with
  | nil => rfl
  | cons a as ih =>
    rw [List.zipIdx_cons, List.foldlM_cons]
    dsimp only
    cases k with
    | zero =>
      rw [if_pos (Nat.add_zero start).symm, List.eraseIdx_cons_zero]
      exact foldlM_zipIdx_of_lt f (Nat.lt_succ_self start) as b
    | succ k =>
      rw [if_neg (by omega), List.eraseIdx_cons_succ, List.foldlM_cons]
      have hindex : start + (k + 1) = start + 1 + k := by omega
      rw [hindex]
      exact congrArg (f b a >>= ·) (funext fun b' => ih (start + 1) k b')

end

namespace Curve

variable {balances given : List Amount}

/-! ## A sum beside something else -/

/-- Takes a balance into a sum and into what the step `f` forms beside it. -/
def takeBeside (term : String) (f : Wide → Amount → Except PoolError Wide)
    (gathered : Wide × Wide) (x : Amount) : Except PoolError (Wide × Wide) := do
  let sum ← gathered.1.add x term
  let other ← f gathered.2 x
  return (sum, other)

/-- Gathered at once or one after the other: as the sum is in range, only the step beside it is
    ever refused, and at the same balance. -/
theorem foldlM_takeBeside (term : String) (f : Wide → Amount → Except PoolError Wide) (s c : Wide)
    (hfits : s.val + (given.map (·.val)).sum < Word.size 512) :
    given.foldlM (takeBeside term f) (s, c) = (do
      let total ← given.foldlM (fun sum (x : Amount) => sum.add x term) s
      let other ← given.foldlM f c
      return (total, other)) := by
  induction given generalizing s c with
  | nil => rfl
  | cons x given ih =>
    rw [List.map_cons, List.sum_cons, ← Nat.add_assoc] at hfits
    obtain ⟨next, hnext⟩ : ∃ next : Wide, next.val = s.val + x.val :=
      ⟨⟨_, Nat.lt_of_le_of_lt (Nat.le_add_right _ _) hfits⟩, rfl⟩
    have hstep : s.add x term = .ok next := Word.add_eq_ok_iff.2 hnext
    rw [← hnext] at hfits
    rw [List.foldlM_cons, List.foldlM_cons, List.foldlM_cons, takeBeside, hstep, ok_bind, ok_bind]
    cases hother : f c x with
    | error e =>
      have htotal : given.foldlM (fun sum (x : Amount) => sum.add x term) next =
          .ok ⟨_, hfits⟩ := sum_eq_ok_iff.2 rfl
      rw [htotal]
      rfl
    | ok c' => exact ih next c' hfits

/-- The balances of a list that is not too long add up to a wide number. -/
theorem sum_lt_size (hlength : given.length < Word.size 256) :
    (given.map (·.val)).sum < Word.size 512 := by
  have hsum : (given.map (·.val)).sum ≤ (given.map (·.val)).length * Word.size 256 := by
    apply List.sum_le_card_nsmul
    intro v hv
    obtain ⟨x, -, rfl⟩ := List.mem_map.1 hv
    exact x.isLt.le
  rw [List.length_map] at hsum
  calc (given.map (·.val)).sum ≤ given.length * Word.size 256 := hsum
    _ < Word.size 256 * Word.size 256 := Nat.mul_lt_mul_of_pos_right hlength (Word.size_pos 256)
    _ = Word.size 512 := (Word.size_add 256 256).symm

/-- The sum of the balances, gathered from zero on, beside what the step forms from `c` on. -/
theorem foldlM_takeBeside_zero (term : String) (f : Wide → Amount → Except PoolError Wide)
    (c : Wide) (hlength : given.length < Word.size 256) :
    given.foldlM (takeBeside term f) (0, c) = (do
      let sum ← total term given
      let other ← given.foldlM f c
      return (sum, other)) := by
  apply foldlM_takeBeside
  rw [Word.val_zero, Nat.zero_add]
  exact sum_lt_size hlength

namespace Balance

variable {n : ℕ} {target : Wide} {k : ℕ}

/-! ## The quadratic for a balance -/

/-- The sum and the product of quotients, gathered in one run that passes over the balance of
    asset `k`. -/
def gather (n : ℕ) (target : Wide) (k : ℕ) (balances : List Amount) :
    Except PoolError (Wide × Wide) :=
  balances.zipIdx.foldlM
    (fun gathered (x, i) =>
      if i = k then pure gathered else takeBeside "y: S'" (factor n target) gathered x)
    (0, target)

/-- The run over all balances gathers the sum and the product of quotients of the given ones. -/
theorem gather_eq (hlength : balances.length < Word.size 256) :
    gather n target k balances = (do
      let sum ← total "y: S'" (balances.eraseIdx k)
      let product ← (balances.eraseIdx k).foldlM (factor n target) target
      return (sum, product)) := by
  have hrun := foldlM_zipIdx_unless (takeBeside "y: S'" (factor n target)) 0 k balances (0, target)
  rw [Nat.zero_add] at hrun
  rw [gather, hrun]
  apply foldlM_takeBeside_zero
  exact Nat.lt_of_le_of_lt (List.length_eraseIdx_le balances k) hlength

/-- The quadratic for the balance of asset `k`, with the given balances gathered in one run. -/
def gatheredQuadratic (balances : List Amount) (amplification : Word 64) (k : ℕ) (d : Amount) :
    Except PoolError Quadratic := do
  let n := balances.length
  let target := d.wide
  let leverage ← leverage "y: A·n" amplification n
  let (sum, partialC) ← gather n target k balances
  let lastProduct ← partialC.mul target "y: c·D"
  let lastDivisor ← leverage.mul n "y: n·A·n"
  let c ← lastProduct.div lastDivisor
  let share ← target.div leverage
  let b ← sum.add share "y: b"
  return { c, b, target }

/-- The quadratic is the same, and where the one is refused, the other is for the same cause. -/
theorem gatheredQuadratic_eq (hlength : balances.length < Word.size 256)
    (amplification : Word 64) (k : ℕ) (d : Amount) :
    gatheredQuadratic balances amplification k d = quadratic balances amplification k d := by
  unfold gatheredQuadratic quadratic
  simp only [gather_eq hlength, bind_assoc, pure_bind]

end Balance

namespace Residual

/-! ## The residual -/

/-- The residual at `d`, with the sum and the product `nⁿ · Πxᵢ` gathered in one run over the
    balances. -/
def gatheredResidual (balances : List Amount) (amplification : Word 64) (d : Amount) :
    Except PoolError Wide := do
  let n := balances.length
  let leverage ← leverage "error: A·n" amplification n
  let d := d.wide
  let (sum, scaledProduct) ← balances.foldlM (takeBeside "error: S" (factor n))
    (0, Word.one (Nat.succ_pos _))
  let power ← power d n
  let left ← (← leverage.mul sum "error: A·n·S").add d "error: left"
  let leveraged ← leverage.mul d "error: A·n·D"
  let last ← power.div scaledProduct
  let right ← leveraged.add last "error: right"
  return left.distance right

/-- The residual is the same, and where the one is refused, the other is for the same cause. -/
theorem gatheredResidual_eq (hlength : balances.length < Word.size 256)
    (amplification : Word 64) (d : Amount) :
    gatheredResidual balances amplification d = residual balances amplification d := by
  unfold gatheredResidual residual scaledProduct
  simp only [foldlM_takeBeside_zero _ _ _ hlength, bind_assoc, pure_bind]

end Residual

end Curve

end StableSwap
