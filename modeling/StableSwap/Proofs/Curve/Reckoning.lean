import StableSwap.Curve.Exact
import StableSwap.Proofs.Refusal

/-!
# Formulas with what they form

A reckoning evaluates a formula over the natural numbers and keeps every
product, sum and difference that it forms on the way, and every divisor. The
formula fits if all of the former are among the wide numbers and none of the
latter is zero. The bounded arithmetic follows a reckoning: where it fits, it
answers with the same value, and where it does not, it is refused for a term
that is out of range or for a division by zero.

Main statements:

* `Follows.bind`: a chain of steps follows the chain of their reckonings.
* `follows_add`, `follows_mul`, `follows_sub`, `follows_div`: the operations.
* `follows_foldlM`: a step repeated along a list.
-/

namespace StableSwap.Curve

open Exact

namespace Exact

/-- The value of a formula, with what was formed to reach it. -/
structure Reckoning (α : Type) where
  value : α
  /-- The products, sums and differences. -/
  terms : List ℤ
  divisors : List ℕ

namespace Reckoning

variable {α β : Type}

instance : Monad Reckoning where
  pure a := ⟨a, [], []⟩
  bind r f :=
    ⟨(f r.value).value, r.terms ++ (f r.value).terms, r.divisors ++ (f r.value).divisors⟩

def add (a b : ℕ) : Reckoning ℕ := ⟨a + b, [(a + b : ℕ)], []⟩

def mul (a b : ℕ) : Reckoning ℕ := ⟨a * b, [(a * b : ℕ)], []⟩

/-- The difference. A negative one is kept among the terms, where the value is zero. -/
def sub (a b : ℕ) : Reckoning ℕ := ⟨a - b, [(a : ℤ) - b], []⟩

/-- The quotient, rounded down. -/
def div (a b : ℕ) : Reckoning ℕ := ⟨a / b, [], [b]⟩

@[simp] theorem value_add (a b : ℕ) : (add a b).value = a + b := rfl

@[simp] theorem value_mul (a b : ℕ) : (mul a b).value = a * b := rfl

/-- Every term is a natural number of 512 bits, and no divisor is zero. -/
def Fits (r : Reckoning α) : Prop :=
  (∀ t ∈ r.terms, 0 ≤ t ∧ t < Word.size 512) ∧ ∀ d ∈ r.divisors, d ≠ 0

instance (r : Reckoning α) : Decidable r.Fits :=
  inferInstanceAs (Decidable ((∀ t ∈ r.terms, 0 ≤ t ∧ t < Word.size 512) ∧ ∀ d ∈ r.divisors, d ≠ 0))

theorem mul_comm (a b : ℕ) : mul a b = mul b a := by
  unfold mul
  rw [Nat.mul_comm]

theorem fits_pure (a : α) : (pure a : Reckoning α).Fits := by
  constructor
  · intro t ht
    cases ht
  · intro d hd
    cases hd

theorem fits_bind (r : Reckoning α) (f : α → Reckoning β) :
    (r >>= f).Fits ↔ r.Fits ∧ (f r.value).Fits := by
  simp only [Fits, bind, List.mem_append, or_imp, forall_and]
  tauto

theorem fits_iff_of_term {t v : ℕ} :
    (⟨v, [(t : ℤ)], []⟩ : Reckoning ℕ).Fits ↔ t < Word.size 512 := by
  simp only [Fits, List.mem_singleton, forall_eq, List.not_mem_nil, false_imp_iff, implies_true,
    and_true]
  omega

theorem fits_add (a b : ℕ) : (add a b).Fits ↔ a + b < Word.size 512 := fits_iff_of_term

theorem fits_mul (a b : ℕ) : (mul a b).Fits ↔ a * b < Word.size 512 := fits_iff_of_term

theorem fits_sub {a b : ℕ} (h : b ≤ a) : (sub a b).Fits ↔ a - b < Word.size 512 := by
  have hterm : (a : ℤ) - b = (a - b : ℕ) := (Int.ofNat_sub h).symm
  unfold sub
  rw [hterm]
  exact fits_iff_of_term

theorem fits_div (a b : ℕ) : (div a b).Fits ↔ b ≠ 0 := by
  simp only [Fits, div, List.not_mem_nil, false_imp_iff, implies_true, true_and,
    List.mem_singleton, forall_eq]

end Reckoning

end Exact

/-! ## Following a reckoning -/

/-- The causes for which the arithmetic refuses: a term is out of range or a divisor is zero. -/
def ArithmeticRefusal (e : PoolError) : Prop := e = .divisionByZero ∨ ∃ term, e = .overflow term

theorem not_arithmeticRefusal_noConvergence (quantity : String) :
    ¬ ArithmeticRefusal (.noConvergence quantity) := by
  simp [ArithmeticRefusal]

variable {α β γ δ : Type}

/-- The computation answers exactly if the reckoning fits, and then with its value as `view` reads
    it. -/
inductive Follows (view : β → α) : Except PoolError β → Reckoning α → Prop
  | answered {b : β} {r : Reckoning α} (fits : r.Fits) (value : view b = r.value) :
      Follows view (.ok b) r
  | refused {e : PoolError} {r : Reckoning α} (fits : ¬ r.Fits) (refusal : ArithmeticRefusal e) :
      Follows view (.error e) r

theorem Follows.of_ok {view : β → α} {x : Except PoolError β} {r : Reckoning α} {b : β}
    (h : Follows view x r) (hx : x = .ok b) : r.Fits ∧ view b = r.value := by
  cases h with
  | answered hfits hvalue =>
    cases hx
    exact ⟨hfits, hvalue⟩
  | refused => cases hx

theorem Follows.of_error {view : β → α} {x : Except PoolError β} {r : Reckoning α}
    {e : PoolError} (h : Follows view x r) (hx : x = .error e) :
    ¬ r.Fits ∧ ArithmeticRefusal e := by
  cases h with
  | answered => cases hx
  | refused hfits hrefusal =>
    cases hx
    exact ⟨hfits, hrefusal⟩

theorem Follows.refusedOnlyFor {view : β → α} {x : Except PoolError β} {r : Reckoning α}
    (h : Follows view x r) : RefusedOnlyFor ArithmeticRefusal x := by
  intro e he
  exact (h.of_error he).2

/-- A reckoning that fits is answered. -/
theorem Follows.exists_ok {view : β → α} {x : Except PoolError β} {r : Reckoning α}
    (h : Follows view x r) (hfits : r.Fits) : ∃ b, x = .ok b ∧ view b = r.value := by
  cases h with
  | @answered b _ _ hvalue => exact ⟨b, rfl, hvalue⟩
  | refused hnot => exact absurd hfits hnot

/-- It is not refused. -/
theorem Follows.not_refused {view : β → α} {x : Except PoolError β} {r : Reckoning α}
    {causes : PoolError → Prop} (h : Follows view x r) (hfits : r.Fits) :
    RefusedOnlyFor causes x := by
  intro e he
  exact absurd hfits (h.of_error he).1

theorem follows_pure {view : β → α} {b : β} {a : α} (h : view b = a) :
    Follows view (pure b) (pure a) := .answered (Reckoning.fits_pure a) h

/-- What is formed may be formed in another order. -/
theorem Follows.congr {view : β → α} {x : Except PoolError β} {r r' : Reckoning α}
    (h : Follows view x r) (hfits : r'.Fits ↔ r.Fits) (hvalue : r'.value = r.value) :
    Follows view x r' := by
  cases h with
  | answered hr hb => exact .answered (hfits.2 hr) (hb.trans hvalue.symm)
  | refused hr hrefusal => exact .refused (mt hfits.1 hr) hrefusal

theorem Follows.bind {view : β → α} {view' : δ → γ} {x : Except PoolError β} {r : Reckoning α}
    {f : β → Except PoolError δ} {g : α → Reckoning γ} (hx : Follows view x r)
    (hf : ∀ b, Follows view' (f b) (g (view b))) : Follows view' (x >>= f) (r >>= g) := by
  cases hx with
  | refused hfits hrefusal =>
    apply Follows.refused _ hrefusal
    intro h
    exact hfits ((Reckoning.fits_bind r g).1 h).1
  | @answered b _ hfits hvalue =>
    have hnext := hf b
    rw [hvalue] at hnext
    show Follows view' (f b) (r >>= g)
    cases hresult : f b with
    | ok c =>
      obtain ⟨hfits', hvalue'⟩ := hnext.of_ok hresult
      exact .answered ((Reckoning.fits_bind r g).2 ⟨hfits, hfits'⟩) hvalue'
    | error e =>
      obtain ⟨hfits', hrefusal⟩ := hnext.of_error hresult
      apply Follows.refused _ hrefusal
      intro h
      exact hfits' ((Reckoning.fits_bind r g).1 h).2

/-! ## The operations -/

/-- A number that is to be among the wide ones is a term with that value. -/
theorem follows_fit (term : String) (v : ℕ) :
    Follows Word.val (Word.fit term v : Except PoolError Wide) ⟨v, [(v : ℤ)], []⟩ := by
  cases h : (Word.fit term v : Except PoolError Wide) with
  | ok w =>
    have hw := Word.fit_eq_ok_iff.1 h
    apply Follows.answered _ hw
    rw [Reckoning.fits_iff_of_term, ← hw]
    exact w.isLt
  | error e =>
    obtain ⟨hlarge, he⟩ := Word.fit_eq_error_iff.1 h
    apply Follows.refused _ (.inr ⟨term, he⟩)
    rw [Reckoning.fits_iff_of_term]
    omega

theorem follows_add (a : Wide) (b : ℕ) (term : String) :
    Follows Word.val (a.add b term) (Reckoning.add a.val b) := by
  unfold Word.add Reckoning.add
  apply follows_fit

theorem follows_mul (a : Wide) (b : ℕ) (term : String) :
    Follows Word.val (a.mul b term) (Reckoning.mul a.val b) := by
  unfold Word.mul Reckoning.mul
  apply follows_fit

theorem follows_sub (a : Wide) (b : ℕ) (term : String) :
    Follows Word.val (a.sub b term) (Reckoning.sub a.val b) := by
  cases h : a.sub b term with
  | ok c =>
    have hc := Word.sub_eq_ok_iff.1 h
    have hterm : (a.val : ℤ) - b = c.val := by omega
    have hvalue : c.val = a.val - b := by omega
    apply Follows.answered _ hvalue
    unfold Reckoning.sub
    rw [hterm, Reckoning.fits_iff_of_term]
    exact c.isLt
  | error e =>
    obtain ⟨hnegative, he⟩ := Word.sub_eq_error_iff.1 h
    apply Follows.refused _ (.inr ⟨term, he⟩)
    intro hfits
    have hrange := hfits.1 ((a.val : ℤ) - b) (List.mem_singleton_self _)
    omega

theorem follows_div (a : Wide) (b : ℕ) : Follows Word.val (a.div b) (Reckoning.div a.val b) := by
  cases h : a.div b with
  | ok c =>
    obtain ⟨hne, hc⟩ := Word.div_eq_ok_iff.1 h
    exact .answered ((Reckoning.fits_div a.val b).2 hne) hc
  | error e =>
    obtain ⟨hzero, he⟩ := Word.div_eq_error_iff.1 h
    apply Follows.refused _ (.inl he)
    intro h
    exact (Reckoning.fits_div a.val b).1 h hzero

/-- A step that is repeated along a list follows the reckoning that is. -/
theorem follows_foldlM {f : Wide → Amount → Except PoolError Wide} {g : ℕ → ℕ → Reckoning ℕ}
    (hf : ∀ a x, Follows Word.val (f a x) (g a.val x.val)) (xs : List Amount) (a : Wide) :
    Follows Word.val (xs.foldlM f a) ((xs.map (·.val)).foldlM g a.val) := by
  induction xs generalizing a with
  | nil => exact follows_pure rfl
  | cons x xs ih =>
    rw [List.foldlM_cons, List.map_cons, List.foldlM_cons]
    apply (hf a x).bind
    exact ih

end StableSwap.Curve
