import StableSwap.Json.Reader
import StableSwap.Json.Record
import StableSwap.Proofs.Json.Literal
import Mathlib.Data.List.Forall2

/-!
# Documents that read back

A document is plain if its numbers are numbers and its strings and keys hold
their characters as they are. The text of such a document reads back, alone or
in front of more text. The bounds of the readers never bind: a document nests
less deep than its text is long, and has fewer items in a row.

Main statements:

* `readSequence_intercalate`: items with commas between them.
* `Plain.takes`: a plain document in front of more text.
* `Plain.of_length_le`: how deep a document nests.
* `read?_render`: a plain document alone.
* `fields?_zip`, `choice?_of_plain`: the fields of a record and the case of a choice.
-/

namespace StableSwap.Json

/-! ## Items with commas between them -/

theorem renderItems_eq (items : List Json) :
    renderItems items = [','].intercalate (items.map render) := by
  induction items with
  | nil => rfl
  | cons item items ih =>
    cases items with
    | nil => simp [renderItems]
    | cons next items =>
      rw [renderItems, ih]
      simp

/-- The text of one member of an object. -/
def renderMember (member : List Char × Json) : List Char :=
  '"' :: member.1 ++ '"' :: ':' :: member.2.render

theorem renderMembers_eq (members : List (List Char × Json)) :
    renderMembers members = [','].intercalate (members.map renderMember) := by
  induction members with
  | nil => rfl
  | cons member members ih =>
    cases members with
    | nil => simp [renderMembers, renderMember]
    | cons next members =>
      rw [renderMembers, ih]
      simp [renderMember]

/-- There is a comma between any two texts. -/
theorem length_le_intercalate (texts : List (List Char)) :
    texts.length ≤ ([','].intercalate texts).length + 1 := by
  induction texts with
  | nil => exact Nat.zero_le _
  | cons text texts ih =>
    cases texts with
    | nil => simp
    | cons next texts =>
      rw [List.intercalate_cons_cons]
      simp only [List.length_cons, List.length_append, List.length_nil] at ih ⊢
      omega

/-- Each text is a part of the whole. -/
theorem length_le_of_mem {texts : List (List Char)} {text : List Char} (h : text ∈ texts) :
    text.length ≤ ([','].intercalate texts).length := by
  induction texts with
  | nil => cases h
  | cons first texts ih =>
    cases texts with
    | nil =>
      rw [List.mem_singleton] at h
      rw [h, List.intercalate_singleton]
    | cons next texts =>
      rw [List.intercalate_cons_cons]
      simp only [List.length_append]
      rw [List.mem_cons] at h
      obtain rfl | h := h
      · omega
      · have := ih h
        omega

section Items

variable {α : Type} {item : Reader α} {close : Char} {texts : List (List Char)} {as : List α}

/-- The reader takes the value off every text that begins with its own and then ends. -/
def Takes (item : Reader α) (text : List Char) (a : α) : Prop :=
  ∀ rest, Ends rest → item (text ++ rest) = some (a, rest)

/-- A mark that closes a sequence. -/
structure IsClosing (close : Char) : Prop where
  ne_comma : close ≠ ','
  not_blank : isBlank close = false
  not_numeric : isNumeric close = false

theorem skipBlanks_cons {c : Char} (h : isBlank c = false) (s : List Char) :
    skipBlanks (c :: s) = c :: s := by
  simp [skipBlanks, h]

/-- One or more items with commas between them, in front of the mark that closes them. -/
theorem readItems_intercalate (hclose : IsClosing close) (h : List.Forall₂ (Takes item) texts as)
    (hne : texts ≠ []) {limit : ℕ} (hlimit : texts.length ≤ limit) (rest : List Char) :
    readItems item close limit ([','].intercalate texts ++ close :: rest) = some (as, rest) := by
  induction h generalizing limit with
  | nil => exact absurd rfl hne
  | @cons text a texts as hitem htexts ih =>
    cases limit with
    | zero => cases hlimit
    | succ limit =>
      cases htexts with
      | nil =>
        have htake := hitem (close :: rest) (ends_cons hclose.not_numeric rest)
        simp [readItems, htake, skipBlanks_cons hclose.not_blank]
      | @cons next b texts as hnext htexts =>
        have hrest := ih (List.cons_ne_nil _ _) (Nat.le_of_succ_le_succ hlimit)
        have hblank : isBlank ',' = false := by decide
        have htake := hitem (',' :: ([','].intercalate (next :: texts) ++ close :: rest))
          (ends_cons (by decide) _)
        rw [List.intercalate_cons_cons, List.append_assoc, List.append_assoc,
          List.singleton_append, readItems]
        simp [htake, skipBlanks_cons hblank, hclose.ne_comma.symm, hrest]

/-- The text begins with a character that is not passed over and is not the mark. -/
def Opens (close : Char) (text : List Char) : Prop :=
  ∃ c rest, text = c :: rest ∧ isBlank c = false ∧ c ≠ close

theorem readSequence_intercalate (hclose : IsClosing close)
    (h : List.Forall₂ (Takes item) texts as) (hopens : ∀ text ∈ texts, Opens close text)
    (rest : List Char) :
    readSequence item close ([','].intercalate texts ++ close :: rest) = some (as, rest) := by
  cases h with
  | nil => simp [readSequence, skipBlanks_cons hclose.not_blank]
  | @cons text a texts as hitem htexts =>
    have hlimit : (text :: texts).length ≤
        ([','].intercalate (text :: texts) ++ close :: rest).length := by
      have hcommas := length_le_intercalate (text :: texts)
      simp only [List.length_append, List.length_cons] at hcommas ⊢
      omega
    have hitems := readItems_intercalate hclose (List.Forall₂.cons hitem htexts)
      (List.cons_ne_nil _ _) hlimit rest
    obtain ⟨c, tail, rfl, hblank, hne⟩ := hopens text List.mem_cons_self
    obtain ⟨tail', htail⟩ : ∃ tail', [','].intercalate ((c :: tail) :: texts) = c :: tail' := by
      cases texts with
      | nil => exact ⟨tail, List.intercalate_singleton⟩
      | cons next texts => exact ⟨_, List.intercalate_cons_cons⟩
    rw [htail, List.cons_append] at hitems ⊢
    unfold readSequence
    simp only [skipBlanks_cons hblank, if_neg hne]
    exact hitems

end Items

/-! ## Documents -/

/-- The document nests less deep than the bound, its numbers are numbers, and its strings and keys
    hold their characters as they are. -/
inductive Plain : ℕ → Json → Prop
  | null {depth : ℕ} : Plain (depth + 1) null
  | bool {depth : ℕ} (value : Bool) : Plain (depth + 1) (bool value)
  | number {depth : ℕ} {literal : List Char} (hnumber : isNumber literal = true)
      (hnumeric : ∀ c ∈ literal, isNumeric c = true) : Plain (depth + 1) (number literal)
  | string {depth : ℕ} {literal : List Char} (h : PlainText literal) :
      Plain (depth + 1) (string literal)
  | array {depth : ℕ} {items : List Json} (h : ∀ item ∈ items, Plain depth item) :
      Plain (depth + 1) (array items)
  | object {depth : ℕ} {members : List (List Char × Json)}
      (hkey : ∀ member ∈ members, PlainText member.1)
      (h : ∀ member ∈ members, Plain depth member.2) : Plain (depth + 1) (object members)

/-- The text of a document begins with no blank and with no closing mark. -/
theorem Plain.opens {depth : ℕ} {v : Json} (h : Plain depth v) : Opens ']' v.render := by
  cases h with
  | null => exact ⟨_, _, rfl, by decide, by decide⟩
  | bool value => cases value <;> exact ⟨_, _, rfl, by decide, by decide⟩
  | @number _ literal hnumber hnumeric =>
    obtain ⟨c, tail, rfl⟩ := List.exists_cons_of_ne_nil (ne_nil_of_isNumber hnumber)
    have hc := hnumeric c List.mem_cons_self
    exact ⟨c, tail, rfl, not_blank_of_numeric hc, ne_of_numeric hc (by decide)⟩
  | string => exact ⟨_, _, rfl, by decide, by decide⟩
  | array => exact ⟨_, _, rfl, by decide, by decide⟩
  | object => exact ⟨_, _, rfl, by decide, by decide⟩

/-- Outside the number itself the reader of a document reads what the reader of numbers does. -/
theorem readValue_of_numeric {c : Char} (hc : isNumeric c = true) (depth : ℕ) (s : List Char) :
    readValue (depth + 1) (c :: s) = do
      let (literal, s) ← takeNumber (c :: s)
      return (number literal, s) := by
  rw [readValue, skipBlanks_cons (not_blank_of_numeric hc)]
  split <;> rename_i heq
  all_goals first | rfl | cases heq; exact absurd hc (by decide)

theorem takes_member {item : Reader Json} {key : List Char} {v : Json} (hkey : PlainText key)
    (hv : Takes item v.render v) : Takes (readMember item) (renderMember (key, v)) (key, v) := by
  intro rest hrest
  have htake := takeString_of_plain hkey (':' :: (v.render ++ rest))
  have hcolon : isBlank ':' = false := by decide
  have hquote : isBlank '"' = false := by decide
  simp [renderMember, readMember, skipBlanks_cons hquote, skipBlanks_cons hcolon, htake,
    hv rest hrest]

/-- A plain document in front of more text. -/
theorem Plain.takes {depth : ℕ} {v : Json} (h : Plain depth v) :
    Takes (readValue depth) v.render v := by
  induction h with
  | null =>
    intro rest _
    rfl
  | bool value =>
    intro rest _
    cases value <;> rfl
  | @number depth literal hnumber hnumeric =>
    intro rest hrest
    have htake := takeNumber_of_ends hnumber hnumeric hrest
    obtain ⟨c, tail, rfl⟩ := List.exists_cons_of_ne_nil (ne_nil_of_isNumber hnumber)
    rw [render, List.cons_append, readValue_of_numeric (hnumeric c List.mem_cons_self),
      ← List.cons_append, htake]
    rfl
  | @string depth literal hliteral =>
    intro rest _
    have htake := takeString_of_plain hliteral rest
    have hquote : isBlank '"' = false := by decide
    simp [render, readValue, skipBlanks_cons hquote, htake]
  | @array depth items hitems ih =>
    intro rest _
    have hclosing : IsClosing ']' := ⟨by decide, by decide, by decide⟩
    have htexts : List.Forall₂ (Takes (readValue depth)) (items.map render) items := by
      rw [List.forall₂_map_left_iff, List.forall₂_same]
      exact ih
    have hopens : ∀ text ∈ items.map render, Opens ']' text := by
      intro text htext
      obtain ⟨item, hitem, rfl⟩ := List.mem_map.1 htext
      exact (hitems item hitem).opens
    have hsequence := readSequence_intercalate hclosing htexts hopens rest
    have hbracket : isBlank '[' = false := by decide
    simp [render, renderItems_eq, readValue, skipBlanks_cons hbracket, hsequence]
  | @object depth members hkey _ ih =>
    intro rest _
    have hclosing : IsClosing '}' := ⟨by decide, by decide, by decide⟩
    have htexts : List.Forall₂ (Takes (readMember (readValue depth))) (members.map renderMember)
        members := by
      rw [List.forall₂_map_left_iff, List.forall₂_same]
      intro member hmember
      exact takes_member (hkey member hmember) (ih member hmember)
    have hopens : ∀ text ∈ members.map renderMember, Opens '}' text := by
      intro text htext
      obtain ⟨member, _, rfl⟩ := List.mem_map.1 htext
      exact ⟨_, _, rfl, by decide, by decide⟩
    have hsequence := readSequence_intercalate hclosing htexts hopens rest
    have hbrace : isBlank '{' = false := by decide
    simp [render, renderMembers_eq, readValue, skipBlanks_cons hbrace, hsequence]

theorem Plain.render_ne_nil {depth : ℕ} {v : Json} (h : Plain depth v) : v.render ≠ [] := by
  obtain ⟨c, rest, htext, -, -⟩ := h.opens
  rw [htext]
  exact List.cons_ne_nil c rest

/-- A document nests less deep than its text is long. -/
theorem Plain.of_length_le {depth bound : ℕ} {v : Json} (h : Plain depth v)
    (hbound : v.render.length ≤ bound + 1) : Plain (bound + 1) v := by
  induction h generalizing bound with
  | null => exact .null
  | bool value => exact .bool value
  | number hnumber hnumeric => exact .number hnumber hnumeric
  | string hliteral => exact .string hliteral
  | @array depth items hitems ih =>
    apply Plain.array
    intro item hitem
    have hpos := List.length_pos_of_ne_nil (hitems item hitem).render_ne_nil
    have hle := length_le_of_mem (List.mem_map_of_mem (f := render) hitem)
    simp only [render, renderItems_eq, List.length_cons, List.length_append] at hbound
    cases bound with
    | zero => omega
    | succ bound => exact ih item hitem (by omega)
  | @object depth members hkey hmembers ih =>
    apply Plain.object hkey
    intro member hmember
    have hpos := List.length_pos_of_ne_nil (hmembers member hmember).render_ne_nil
    have hle := length_le_of_mem (List.mem_map_of_mem (f := renderMember) hmember)
    simp only [render, renderMembers_eq, renderMember, List.length_cons, List.length_append]
      at hbound hle
    cases bound with
    | zero => omega
    | succ bound => exact ih member hmember (by omega)

/-- A plain document reads back from its text. -/
theorem read?_render {depth : ℕ} {v : Json} (h : Plain depth v) : read? v.render = some v := by
  have htakes := (h.of_length_le (Nat.le_succ _)).takes [] ends_nil
  rw [List.append_nil] at htakes
  rw [read?, htakes]
  rfl

/-! ## Records -/

theorem mapM_eq_some {α β : Type} {read : α → Option β} {as : List α} {bs : List β}
    (h : List.Forall₂ (fun a b => read a = some b) as bs) : as.mapM read = some bs := by
  induction h with
  | nil => rfl
  | cons hread _ ih => simp [hread, ih]

/-- Values that are written one by one read back one by one. -/
theorem mapM_map_eq_some {α β : Type} {write : α → β} {read : β → Option α}
    (h : ∀ a, read (write a) = some a) (as : List α) : (as.map write).mapM read = some as := by
  apply mapM_eq_some
  rw [List.forall₂_map_left_iff, List.forall₂_same]
  intro a _
  exact h a

/-- Keys that are plain stand for themselves. -/
theorem members?_of_plain {members : List (List Char × Json)}
    (h : ∀ member ∈ members, PlainText member.1) : (object members).members? = some members := by
  rw [members?]
  apply mapM_eq_some
  rw [List.forall₂_same]
  intro member hmember
  simp [decodeString?_of_plain (h member hmember)]

theorem choice?_of_plain {key : List Char} (h : PlainText key) (v : Json) :
    (object [(key, v)]).choice? = some (key, v) := by
  have hmembers : (object [(key, v)]).members? = some [(key, v)] := by
    apply members?_of_plain
    intro member hmember
    rw [List.mem_singleton.1 hmember]
    exact h
  rw [choice?, hmembers]
  rfl

theorem field?_cons_self {members : List (List Char × Json)} {name : String} {v : Json}
    (h : name.toList ∉ members.map Prod.fst) :
    field? ((name.toList, v) :: members) name = some v := by
  have hothers : members.filter (·.1 = name.toList) = [] := by
    rw [List.filter_eq_nil_iff]
    intro member hmember hname
    apply h
    rw [← of_decide_eq_true hname]
    exact List.mem_map_of_mem hmember
  simp [field?, hothers]

theorem field?_cons_of_ne {members : List (List Char × Json)} {name : String} {key : List Char}
    {v : Json} (h : key ≠ name.toList) :
    field? ((key, v) :: members) name = field? members name := by
  simp [field?, h]

/-- The keys of a record are its names. -/
theorem plainText_of_mem_zip {names : List String} {values : List Json}
    (h : ∀ name ∈ names, PlainText name.toList) :
    ∀ member ∈ (names.map String.toList).zip values, PlainText member.1 := by
  intro member hmember
  obtain ⟨name, hname, hkey⟩ := List.mem_map.1 (List.of_mem_zip hmember).1
  rw [← hkey]
  exact h name hname

/-- With names that are all different, each is the key of its own value alone. -/
theorem field?_of_mem_zip {names : List String} {values : List Json} (hnodup : names.Nodup)
    {name : String} {v : Json} (h : (name, v) ∈ names.zip values) :
    field? ((names.map String.toList).zip values) name = some v := by
  induction names generalizing values with
  | nil => cases h
  | cons first names ih =>
    cases values with
    | nil => cases h
    | cons value values =>
      obtain ⟨hfirst, hnames⟩ := List.nodup_cons.1 hnodup
      rw [List.zip_cons_cons, List.mem_cons, Prod.mk.injEq] at h
      obtain ⟨rfl, rfl⟩ | h := h
      · apply field?_cons_self
        intro hkey
        obtain ⟨member, hmember, hname⟩ := List.mem_map.1 hkey
        obtain ⟨other, hother, htoList⟩ := List.mem_map.1 (List.of_mem_zip hmember).1
        rw [hname] at htoList
        rw [String.toList_injective htoList] at hother
        exact hfirst hother
      · have hname := (List.of_mem_zip h).1
        have hne : first.toList ≠ name.toList := by
          intro hsame
          rw [String.toList_injective hsame] at hfirst
          exact hfirst hname
        rw [List.map_cons, List.zip_cons_cons, field?_cons_of_ne hne]
        exact ih hnames h

/-- The fields of a record that was written in the order of its names. -/
theorem fields?_zip (names : List String) (values : List Json)
    (hlength : names.length = values.length) (hnodup : names.Nodup)
    (hplain : ∀ name ∈ names, PlainText name.toList) :
    (object ((names.map String.toList).zip values)).fields? names = some values := by
  have hmembers : (object ((names.map String.toList).zip values)).members? =
      some ((names.map String.toList).zip values) :=
    members?_of_plain (plainText_of_mem_zip hplain)
  rw [fields?, hmembers]
  · apply mapM_eq_some
    rw [List.forall₂_iff_zip]
    exact ⟨hlength, fun h => field?_of_mem_zip hnodup h⟩
  · intro items
    exact nofun

theorem plainText_of_all_names {names : List String}
    (h : (names.all fun name => name.toList.all isPlain) = true) :
    ∀ name ∈ names, PlainText name.toList := by
  intro name hname
  exact plainText_of_all (List.all_eq_true.1 h name hname)

/-- A record of plain fields is plain. -/
theorem plain_record {names : List String} {values : List Json} {depth : ℕ}
    (hnames : ∀ name ∈ names, PlainText name.toList) (hvalues : ∀ v ∈ values, Plain depth v) :
    Plain (depth + 1) (.object ((names.map String.toList).zip values)) := by
  apply Plain.object (plainText_of_mem_zip hnames)
  intro member hmember
  exact hvalues _ (List.of_mem_zip hmember).2

/-- A choice of a plain value is plain. -/
theorem plain_choice {key : List Char} {v : Json} {depth : ℕ} (hkey : PlainText key)
    (hv : Plain depth v) : Plain (depth + 1) (.object [(key, v)]) := by
  apply Plain.object
  · intro member hmember
    rw [List.mem_singleton.1 hmember]
    exact hkey
  · intro member hmember
    rw [List.mem_singleton.1 hmember]
    exact hv

end StableSwap.Json
