import StableSwap.Word

/-!
# The causes of a refusal

What a chain of steps may be refused for is read off the chain: a list of causes that
covers every step of it covers the chain. A step has to be covered only where the steps
before it have answered, so that a divisor or a difference may be known by then.

Main statements:

* `RefusedOnlyFor.bind`, `RefusedOnlyFor.foldlM`, `RefusedOnlyFor.mapM`: the causes of a chain, of
  a chain along a list, and of a step on every entry of a list.
* `refusedOnlyFor_require`, `Word.refusedOnlyFor_add` and their companions: the causes of the steps.
-/

namespace StableSwap

variable {α β : Type} {causes : PoolError → Prop}

/-- If the step is refused, then for one of the causes. -/
def RefusedOnlyFor (causes : PoolError → Prop) (x : Except PoolError α) : Prop :=
  ∀ e, x = .error e → causes e

/-- The value of a term lies outside its range. -/
def IsOverflow (e : PoolError) : Prop := ∃ term, e = .overflow term

theorem isOverflow (term : String) : IsOverflow (.overflow term) := ⟨term, rfl⟩

namespace RefusedOnlyFor

protected theorem pure (a : α) : RefusedOnlyFor causes (Pure.pure a) := by
  intro e he
  cases he

protected theorem bind {x : Except PoolError α} {f : α → Except PoolError β}
    (hx : RefusedOnlyFor causes x) (hf : ∀ a, x = .ok a → RefusedOnlyFor causes (f a)) :
    RefusedOnlyFor causes (x >>= f) := by
  intro e he
  rw [bind_eq_error_iff] at he
  obtain he | ⟨a, ha, he⟩ := he
  · exact hx e he
  · exact hf a ha e he

protected theorem foldlM {f : β → α → Except PoolError β} {as : List α}
    (hf : ∀ a ∈ as, ∀ b, RefusedOnlyFor causes (f b a)) (b : β) :
    RefusedOnlyFor causes (as.foldlM f b) := by
  induction as generalizing b with
  | nil => exact .pure b
  | cons a as ih =>
    rw [List.foldlM_cons]
    apply (hf a List.mem_cons_self b).bind
    intro b' _
    exact ih (fun a' ha' => hf a' (List.mem_cons_of_mem a ha')) b'

protected theorem mapM {f : α → Except PoolError β} {as : List α}
    (hf : ∀ a ∈ as, RefusedOnlyFor causes (f a)) : RefusedOnlyFor causes (as.mapM f) := by
  induction as with
  | nil => exact .pure _
  | cons a as ih =>
    rw [List.mapM_cons]
    apply (hf a List.mem_cons_self).bind
    intro b _
    apply (ih fun a' ha' => hf a' (List.mem_cons_of_mem a ha')).bind
    intro bs _
    exact .pure _

end RefusedOnlyFor

theorem refusedOnlyFor_require {condition : Prop} [Decidable condition] {e : PoolError}
    (h : ¬ condition → causes e) : RefusedOnlyFor causes (require condition e) := by
  intro e' he
  obtain ⟨hnot, rfl⟩ := require_eq_error_iff.1 he
  exact h hnot

theorem refusedOnlyFor_demand {value : Option α} {e : PoolError} (h : value = none → causes e) :
    RefusedOnlyFor causes (demand value e) := by
  intro e' he
  obtain ⟨hnone, rfl⟩ := demand_eq_error_iff.1 he
  exact h hnone

namespace Word

variable {bits : Nat} {a : Word bits} {b : Nat} {term : String}

theorem refusedOnlyFor_fit {v : Nat} (h : causes (.overflow term)) :
    RefusedOnlyFor causes (fit term v : Except PoolError (Word bits)) := by
  intro e he
  rw [(fit_eq_error_iff.1 he).2]
  exact h

theorem refusedOnlyFor_add (h : causes (.overflow term)) :
    RefusedOnlyFor causes (a.add b term) := refusedOnlyFor_fit h

theorem refusedOnlyFor_mul (h : causes (.overflow term)) :
    RefusedOnlyFor causes (a.mul b term) := refusedOnlyFor_fit h

theorem refusedOnlyFor_sub (h : a.val < b → causes (.overflow term)) :
    RefusedOnlyFor causes (a.sub b term) := by
  intro e he
  obtain ⟨hlt, rfl⟩ := sub_eq_error_iff.1 he
  exact h hlt

theorem refusedOnlyFor_div (h : b = 0 → causes .divisionByZero) :
    RefusedOnlyFor causes (a.div b) := by
  intro e he
  obtain ⟨hzero, rfl⟩ := div_eq_error_iff.1 he
  exact h hzero

/-- A quotient whose divisor is positive is not refused. -/
theorem refusedOnlyFor_div_of_pos (h : 0 < b) : RefusedOnlyFor causes (a.div b) :=
  refusedOnlyFor_div fun hzero => absurd hzero (Nat.ne_of_gt h)

/-- A proportion that is in range is refused only for its divisor. -/
theorem refusedOnlyFor_mulDiv_of_lt {c : Nat} (hlt : a.val * b / c < size bits)
    (hzero : c = 0 → causes .divisionByZero) : RefusedOnlyFor causes (a.mulDiv b c term) := by
  intro e he
  obtain ⟨hc, rfl⟩ | ⟨_, hle, _⟩ := mulDiv_eq_error_iff.1 he
  · exact hzero hc
  · exact absurd hlt (Nat.not_lt.2 hle)

end Word

end StableSwap
