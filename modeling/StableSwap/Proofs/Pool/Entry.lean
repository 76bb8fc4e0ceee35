import StableSwap.Pool
import Mathlib.Data.List.Forall2
import Mathlib.Data.List.GetD

/-!
# Entries of the lists of a pool

A pool keeps one list for each kind of data and reads it by the index of the
asset. A list formed from two others entry by entry is known by its length and
its entries.

Main statements:

* `entry_set_self`, `entry_set_of_ne`: the entries after one of them is replaced.
* `map_of_mapM`, `mapM_eq_ok_iff_map`: the values that a step on every entry leaves.
* `exists_mapM_iff`: whether it answers at all.
* `forall₂_iff_entry`: two lists related entry by entry.
* `map_zip_iff_entry`, `forall₂_zip_iff_entry`: two lists combined entry by entry.
* `entry_of_mapM_zipIdx`: a step that is told the index, read at one index.
* `entry_of_forall₂`: what the members of two related lists say about their entries.
* `debitAll_eq_ok_iff`: each balance less its charge, read at each asset.
-/

namespace StableSwap

section

variable {α β γ : Type} {f : α → Except PoolError β} {v : β → γ} {w : α → γ} {as : List α}
  {bs : List β}

theorem map_eq_map_iff_forall₂ :
    bs.map v = as.map w ↔ List.Forall₂ (fun b a => v b = w a) bs as := by
  rw [← List.forall₂_eq_eq_eq, List.forall₂_map_left_iff, List.forall₂_map_right_iff]

theorem mapM_eq_ok_iff_forall₂ :
    as.mapM f = .ok bs ↔ List.Forall₂ (fun a b => f a = .ok b) as bs := by
  rw [mapM_eq_ok_iff, map_eq_map_iff_forall₂]

/-- The values that a step on every entry of a list leaves, if each answer has the value. -/
theorem map_of_mapM (hf : ∀ a b, f a = .ok b → v b = w a) (h : as.mapM f = .ok bs) :
    bs.map v = as.map w := by
  rw [mapM_eq_ok_iff_forall₂] at h
  rw [map_eq_map_iff_forall₂]
  exact (h.imp hf).flip

/-- A step on every entry of a list that answers with the entry of a given value answers with
    the list of these values. -/
theorem mapM_eq_ok_iff_map (hf : ∀ a b, f a = .ok b ↔ v b = w a) :
    as.mapM f = .ok bs ↔ bs.map v = as.map w := by
  constructor
  · exact map_of_mapM fun a b => (hf a b).1
  · intro h
    rw [map_eq_map_iff_forall₂] at h
    rw [mapM_eq_ok_iff_forall₂]
    exact (h.imp fun b a => (hf a b).2).flip

/-- Whether a step on every entry of a list answers is decided entry by entry. -/
theorem exists_mapM_iff : (∃ bs, as.mapM f = .ok bs) ↔ ∀ a ∈ as, ∃ b, f a = .ok b := by
  induction as with
  | nil => simp [pure, Except.pure]
  | cons a as ih =>
    rw [List.forall_mem_cons, ← ih]
    simp only [List.mapM_cons, bind_eq_ok_iff, pure, Except.pure, Except.ok.injEq]
    constructor
    · rintro ⟨_, b, hb, bs, hbs, _⟩
      exact ⟨⟨b, hb⟩, bs, hbs⟩
    · rintro ⟨⟨b, hb⟩, bs, hbs⟩
      exact ⟨_, b, hb, bs, hbs, rfl⟩

/-- A step on every entry of a list is refused by one of the entries. -/
theorem exists_step_of_mapM_error {e : PoolError} (h : as.mapM f = .error e) :
    ∃ a ∈ as, f a = .error e := by
  induction as with
  | nil => cases h
  | cons a as ih =>
    rw [List.mapM_cons, bind_eq_error_iff] at h
    obtain h | ⟨b, _, h⟩ := h
    · exact ⟨a, List.mem_cons_self, h⟩
    · rw [bind_eq_error_iff] at h
      obtain h | ⟨_, _, h⟩ := h
      · obtain ⟨a', ha', hstep⟩ := ih h
        exact ⟨a', List.mem_cons_of_mem a ha', hstep⟩
      · cases h

/-- A step that is also told the index, if the index has no part in its answers. -/
theorem mapM_zipIdx_eq_ok_iff_forall₂ {f : α × ℕ → Except PoolError β} {R : α → β → Prop}
    (hf : ∀ a i b, f (a, i) = .ok b ↔ R a b) :
    as.zipIdx.mapM f = .ok bs ↔ List.Forall₂ R as bs := by
  have hf' : ∀ x b, f x = .ok b ↔ R x.1 b := fun x b => hf x.1 x.2 b
  rw [mapM_eq_ok_iff_forall₂]
  simp only [hf']
  rw [← List.forall₂_map_left_iff, List.zipIdx_map_fst]

/-- A step whose answer on each entry is known answers with the list of these answers. -/
theorem mapM_eq_ok_map {g : α → β} (hf : ∀ a ∈ as, f a = .ok (g a)) :
    as.mapM f = .ok (as.map g) := by
  rw [mapM_eq_ok_iff, List.map_map]
  exact List.map_congr_left hf

/-- A step that has one answer wherever it answers. -/
theorem mapM_eq_ok_iff_replicate {condition : α → Prop} {b : β}
    (hf : ∀ a c, f a = .ok c ↔ condition a ∧ c = b) :
    as.mapM f = .ok bs ↔ (∀ a ∈ as, condition a) ∧ bs = List.replicate as.length b := by
  rw [mapM_eq_ok_iff_forall₂]
  simp only [hf]
  induction as generalizing bs with
  | nil => cases bs <;> simp
  | cons a as ih =>
    cases bs with
    | nil => simp [List.replicate_succ]
    | cons c bs =>
      rw [List.forall₂_cons, ih, List.forall_mem_cons, List.length_cons, List.replicate_succ,
        List.cons.injEq]
      tauto

end

namespace Pool

theorem entry_of_lt {values : List Amount} {i : ℕ} (h : i < values.length) :
    entry values i = values[i] := by
  rw [entry, List.getD_eq_getElem _ _ h]

theorem entry_of_ge {values : List Amount} {i : ℕ} (h : values.length ≤ i) :
    entry values i = 0 := by
  rw [entry, List.getD_eq_default _ _ h]

@[simp] theorem entry_nil (i : ℕ) : entry [] i = 0 := rfl

@[simp] theorem entry_replicate_zero (n i : ℕ) : entry (List.replicate n 0) i = 0 := by
  unfold entry
  rw [List.getD_eq_getElem?_getD, List.getElem?_replicate]
  split <;> rfl

/-- A list of zeros is known by its entries. -/
theorem eq_replicate_zero_iff {values : List Amount} {n : ℕ} (hlength : values.length = n) :
    values = List.replicate n 0 ↔ ∀ i < n, (entry values i).val = 0 := by
  constructor
  · rintro rfl i _
    rw [entry_replicate_zero, Word.val_zero]
  · intro h
    rw [List.eq_replicate_iff]
    refine ⟨hlength, fun v hv => ?_⟩
    obtain ⟨i, hi, rfl⟩ := List.mem_iff_getElem.1 hv
    have hzero := h i (hlength ▸ hi)
    rw [entry_of_lt hi] at hzero
    exact Word.ext hzero

theorem lt_of_entry_pos {values : List Amount} {i : ℕ} (h : 0 < (entry values i).val) :
    i < values.length := by
  by_cases hlt : i < values.length
  · exact hlt
  · rw [entry_of_ge (Nat.not_lt.1 hlt)] at h
    exact absurd h (Nat.lt_irrefl 0)

theorem entry_set_self {values : List Amount} {i : ℕ} (h : i < values.length) (a : Amount) :
    entry (values.set i a) i = a := by
  rw [entry_of_lt (by rwa [List.length_set]), List.getElem_set_self]

theorem entry_set_of_ne {values : List Amount} {i j : ℕ} (h : i ≠ j) (a : Amount) :
    entry (values.set i a) j = entry values j := by
  unfold entry
  rw [List.getD_eq_getElem?_getD, List.getElem?_set_ne h, ← List.getD_eq_getElem?_getD]

/-- Writing an entry back changes nothing. -/
theorem set_entry (values : List Amount) (i : ℕ) : values.set i (entry values i) = values := by
  by_cases h : i < values.length
  · rw [entry_of_lt h, List.set_getElem_self]
  · exact List.set_eq_of_length_le (Nat.not_lt.1 h)

/-- Two lists are related entry by entry if they have one length and their entries are related at
    each index. The relation must hold of two missing entries. -/
theorem forall₂_iff_entry {R : ℕ → ℕ → Prop} (hzero : R 0 0) {as bs : List Amount} :
    List.Forall₂ (fun a b => R a.val b.val) as bs ↔
      as.length = bs.length ∧ ∀ i, R (entry as i).val (entry bs i).val := by
  induction as generalizing bs with
  | nil => cases bs <;> simp [hzero]
  | cons a as ih =>
    cases bs with
    | nil => simp
    | cons b bs =>
      rw [List.forall₂_cons, ih, List.length_cons, List.length_cons, Nat.add_right_cancel_iff]
      constructor
      · rintro ⟨hfirst, hlength, hrest⟩
        refine ⟨hlength, fun i => ?_⟩
        cases i with
        | zero => exact hfirst
        | succ i => exact hrest i
      · rintro ⟨hlength, hentry⟩
        exact ⟨hentry 0, hlength, fun i => hentry (i + 1)⟩

/-- A list is formed from two others by an operation on their entries if its length and its
    entries are. The operation must give zero if one of the two entries is missing. -/
theorem map_zip_iff_entry {f : ℕ → ℕ → ℕ} (hleft : ∀ b, f 0 b = 0) (hright : ∀ a, f a 0 = 0)
    {as bs cs : List Amount} :
    cs.map (·.val) = (as.zip bs).map (fun (a, b) => f a.val b.val) ↔
      cs.length = min as.length bs.length ∧
        ∀ i, (entry cs i).val = f (entry as i).val (entry bs i).val := by
  constructor
  · intro h
    have hlength : cs.length = min as.length bs.length := by
      simpa using congrArg List.length h
    refine ⟨hlength, fun i => ?_⟩
    by_cases hi : i < cs.length
    · have ha : i < as.length := by omega
      have hb : i < bs.length := by omega
      have hzip : i < (as.zip bs).length := by rw [List.length_zip]; omega
      have hval := congrArg (·[i]?) h
      rw [entry_of_lt hi, entry_of_lt ha, entry_of_lt hb]
      simpa only [List.getElem?_map, List.getElem?_eq_getElem hi, List.getElem?_eq_getElem hzip,
        List.getElem_zip, Option.map_some, Option.some.injEq] using hval
    · rw [entry_of_ge (Nat.not_lt.1 hi), Word.val_zero]
      rcases Nat.lt_or_ge i as.length with ha | ha
      · rw [entry_of_ge (show bs.length ≤ i by omega), Word.val_zero, hright]
      · rw [entry_of_ge ha, Word.val_zero, hleft]
  · rintro ⟨hlength, hentry⟩
    apply List.ext_getElem
    · simpa using hlength
    · intro i hi _
      rw [List.length_map] at hi
      have ha : i < as.length := by omega
      have hb : i < bs.length := by omega
      have h := hentry i
      rw [entry_of_lt hi, entry_of_lt ha, entry_of_lt hb] at h
      simpa using h

/-- Two lists of one length whose pairs of entries are related to a third one, read at each
    index. The relation must hold of three missing entries. -/
theorem forall₂_zip_iff_entry {R : ℕ → ℕ → ℕ → Prop} (hzero : R 0 0 0) {as bs cs : List Amount}
    (hlength : as.length = bs.length) :
    List.Forall₂ (fun x c => R x.1.val x.2.val c.val) (as.zip bs) cs ↔
      cs.length = as.length ∧ ∀ i, R (entry as i).val (entry bs i).val (entry cs i).val := by
  induction as generalizing bs cs with
  | nil =>
    obtain rfl := List.length_eq_zero_iff.1 hlength.symm
    cases cs <;> simp [hzero]
  | cons a as ih =>
    obtain ⟨b, bs, rfl⟩ := List.exists_cons_of_length_eq_add_one hlength.symm
    rw [List.length_cons, List.length_cons, Nat.add_right_cancel_iff] at hlength
    cases cs with
    | nil => simp
    | cons c cs =>
      rw [List.zip_cons_cons, List.forall₂_cons, ih hlength, List.length_cons, List.length_cons,
        Nat.add_right_cancel_iff]
      constructor
      · rintro ⟨hfirst, hcount, hrest⟩
        refine ⟨hcount, fun i => ?_⟩
        cases i with
        | zero => exact hfirst
        | succ i => exact hrest i
      · rintro ⟨hcount, hentry⟩
        exact ⟨hentry 0, hcount, fun i => hentry (i + 1)⟩

/-- At every index two related lists have a pair of related members or end both. What is read of
    the members is read of the entries. -/
theorem entry_of_forall₂ {α β : Type} {P : α → β → Prop} {as : List α} {bs : List β}
    (h : List.Forall₂ P as bs) (i : ℕ) :
    (∃ a b, P a b ∧ (∀ g : α → Amount, entry (as.map g) i = g a) ∧
        ∀ g : β → Amount, entry (bs.map g) i = g b) ∨
      (∀ g : α → Amount, entry (as.map g) i = 0) ∧ ∀ g : β → Amount, entry (bs.map g) i = 0 := by
  induction h generalizing i with
  | nil => exact .inr ⟨fun _ => rfl, fun _ => rfl⟩
  | @cons a b as bs hab _ ih =>
    cases i with
    | zero => exact .inl ⟨a, b, hab, fun _ => rfl, fun _ => rfl⟩
    | succ i => exact ih i

/-- A step that is told the index, read at one index. -/
theorem entry_of_mapM_zipIdx {f : Amount × ℕ → Except PoolError Amount} {as bs : List Amount}
    (h : as.zipIdx.mapM f = .ok bs) {i : ℕ} (hi : i < as.length) :
    f (entry as i, i) = .ok (entry bs i) := by
  have hlength : bs.length = as.length := by rw [length_of_mapM h, List.length_zipIdx]
  have hstep := congrArg (·[i]?) (mapM_eq_ok_iff.1 h)
  rw [entry_of_lt hi, entry_of_lt (by omega)]
  simpa [List.getElem?_zipIdx, hi, hlength] using hstep

theorem debitAll_eq_ok_iff_forall₂ {balances charges rests : List Amount} :
    Amount.debitAll balances charges = .ok rests ↔
      List.Forall₂ (fun x rest => rest.val + x.2.val = x.1.val) (balances.zip charges) rests := by
  unfold Amount.debitAll
  exact mapM_zipIdx_eq_ok_iff_forall₂ fun _ _ _ => Amount.debit_eq_ok_iff

/-- With one charge for each balance, what is left and the charge make up the balance. -/
theorem debitAll_eq_ok_iff {balances charges rests : List Amount}
    (hlength : balances.length = charges.length) :
    Amount.debitAll balances charges = .ok rests ↔
      rests.length = balances.length ∧
        ∀ i, (entry rests i).val + (entry charges i).val = (entry balances i).val := by
  rw [debitAll_eq_ok_iff_forall₂]
  exact forall₂_zip_iff_entry (R := fun b c r => r + c = b) rfl hlength

/-- Without charges nothing changes. -/
theorem debitAll_replicate_zero (balances : List Amount) :
    Amount.debitAll balances (List.replicate balances.length 0) = .ok balances := by
  rw [debitAll_eq_ok_iff (List.length_replicate).symm]
  refine ⟨rfl, fun i => ?_⟩
  rw [entry_replicate_zero, Word.val_zero, Nat.add_zero]

end Pool

end StableSwap
