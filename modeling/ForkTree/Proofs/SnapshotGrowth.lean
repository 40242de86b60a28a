import ForkTree.Proofs.SnapshotMap
import Mathlib.Data.List.Induction

/-!
How snapshots grow. Inserting records never takes anything back: `Snapshot.Grows` says that names and
children are only added, behind those that are there and each once, and that attributes stay (`grows_insertAll`).
A snapshot is determined by its names and by what it says of each (`ext_get?`), so what a merge yields is
read off name by name. Merging what a snapshot grew into gives just that (`Grows.merge_eq`); merging what it
grew out of puts old attributes back and does nothing else (`Grows.merge_back`). Either way a merge tells
exactly whether it changed anything (`merge_snd_iff`).
-/

namespace ForkTree.Snapshot

/-- The second list is the first one with new elements behind it, each once. -/
def Extends (known later : List String) : Prop :=
  ∃ added, later = known ++ added ∧ added.Nodup ∧ ∀ x ∈ added, x ∉ known

lemma Extends.refl (known : List String) : Extends known known :=
  ⟨[], (List.append_nil _).symm, .nil, fun _ hx => by cases hx⟩

lemma Extends.trans {known later last : List String} (h : Extends known later) (h' : Extends later last) :
    Extends known last := by
  obtain ⟨added, rfl, hnodup, hnew⟩ := h
  obtain ⟨more, rfl, hnodup', hnew'⟩ := h'
  refine ⟨added ++ more, List.append_assoc _ _ _, List.nodup_append'.2 ⟨hnodup, hnodup', ?_⟩, ?_⟩
  · exact fun x hx hx' => hnew' x hx' (List.mem_append_right _ hx)
  · intro x hx
    rcases List.mem_append.1 hx with hx | hx
    · exact hnew x hx
    · exact fun hknown => hnew' x hx (List.mem_append_left _ hknown)

lemma Extends.subset {known later : List String} (h : Extends known later) : known ⊆ later := by
  obtain ⟨added, rfl, _⟩ := h
  exact List.subset_append_left _ _

lemma extends_addChildren (known more : List String) : Extends known (addChildren known more) := by
  induction more generalizing known with
  | nil => exact .refl known
  | cons child more ih =>
    rw [addChildren, List.foldl_cons]
    split
    · exact ih known
    · next hnew =>
      refine .trans ⟨[child], rfl, List.nodup_singleton _, fun x hx => ?_⟩ (ih (known ++ [child]))
      rw [List.mem_singleton.1 hx]
      exact hnew

/-- Adding what is there already changes nothing. -/
lemma addChildren_of_subset {known more : List String} (h : more ⊆ known) :
    addChildren known more = known := by
  induction more with
  | nil => rfl
  | cons child more ih =>
    rw [List.cons_subset] at h
    rw [addChildren, List.foldl_cons, if_pos h.1]
    exact ih h.2

lemma addChildren_of_new {known added : List String} (hnodup : added.Nodup) (hnew : ∀ x ∈ added, x ∉ known) :
    addChildren known added = known ++ added := by
  induction added generalizing known with
  | nil => exact (List.append_nil _).symm
  | cons child rest ih =>
    obtain ⟨hchild, hrest⟩ := List.nodup_cons.1 hnodup
    have hstep : addChildren known (child :: rest) = addChildren (known ++ [child]) rest := by
      rw [addChildren, List.foldl_cons, if_neg (hnew child List.mem_cons_self), addChildren]
    rw [hstep, ih hrest, List.append_assoc, List.singleton_append]
    intro x hx hmem
    rcases List.mem_append.1 hmem with hmem | hmem
    · exact hnew x (List.mem_cons_of_mem _ hx) hmem
    · exact hchild (List.mem_singleton.1 hmem ▸ hx)

/-- Adding what extends a list extends it to that. -/
lemma Extends.addChildren_eq {known later : List String} (h : Extends known later) :
    addChildren known later = later := by
  obtain ⟨added, rfl, hnodup, hnew⟩ := h
  have hsplit : addChildren known (known ++ added) = addChildren (addChildren known known) added :=
    List.foldl_append
  rw [hsplit, addChildren_of_subset (List.Subset.refl _), addChildren_of_new hnodup hnew]

lemma subset_addChildren (known more : List String) : more ⊆ addChildren known more := by
  induction more generalizing known with
  | nil => exact List.nil_subset _
  | cons child more ih =>
    rw [addChildren, List.foldl_cons, List.cons_subset]
    refine ⟨(extends_addChildren _ more).subset ?_, ih _⟩
    split
    · assumption
    · exact List.mem_append_right _ (List.mem_singleton_self child)

lemma names_insert (s : Snapshot) (r : Record) :
    (s.insert r).names = if r.name ∈ s.names then s.names else s.names ++ [r.name] := by
  obtain ⟨records⟩ := s
  induction records with
  | nil => rfl
  | cons held rest ih =>
    rw [names, insert] at ih
    rw [names, insert, insertRecord]
    by_cases hheld : held.name = r.name
    · have hmem : r.name ∈ names ⟨held :: rest⟩ := by
        rw [← hheld]
        exact List.mem_cons_self
      rw [if_pos hheld, if_pos hmem]
      rfl
    · have hmem : r.name ∈ names ⟨held :: rest⟩ ↔ r.name ∈ names ⟨rest⟩ :=
        List.mem_cons.trans (or_iff_right (Ne.symm hheld))
      rw [if_neg hheld, List.map_cons, ih, if_congr hmem rfl rfl]
      split <;> rfl

/-- The names that records bring in come behind the known ones, in their order. -/
lemma names_insertAll (s : Snapshot) (records : List Record) :
    (s.insertAll records).names = addChildren s.names (records.map Record.name) := by
  induction records generalizing s with
  | nil => rfl
  | cons r rest ih => rw [insertAll_cons, ih, names_insert, List.map_cons, addChildren, addChildren, List.foldl_cons]

/-- A snapshot is determined by its names, in their order, and by what it says of each. -/
theorem ext_get? {s u : Snapshot} (hnodup : u.names.Nodup) (hnames : s.names = u.names)
    (h : ∀ name, s.get? name = u.get? name) : s = u := by
  obtain ⟨records⟩ := s
  obtain ⟨others⟩ := u
  congr 1
  induction records generalizing others with
  | nil => exact (List.map_eq_nil_iff.1 hnames.symm).symm
  | cons r rest ih =>
    cases others with
    | nil => cases hnames
    | cons q others =>
      obtain ⟨hname, hrest⟩ := List.cons.inj hnames
      obtain ⟨hq, hothers⟩ := List.nodup_cons.1 hnodup
      have hhead := h r.name
      rw [get?_cons, if_pos rfl, get?_cons, if_pos hname.symm] at hhead
      cases Option.some.inj hhead
      congr 1
      refine ih others hothers hrest fun name => ?_
      by_cases hr : r.name = name
      · subst hr
        have habsent : ∀ {l : List Record}, r.name ∉ l.map Record.name → get? ⟨l⟩ r.name = none := by
          intro l hl
          rw [← Option.not_isSome_iff_eq_none, isSome_get?]
          exact hl
        have hr : r.name ∉ rest.map Record.name := fun hmem => hq (hrest ▸ hmem)
        rw [habsent hr, habsent hq]
      · have hother := h name
        rwa [get?_cons, if_neg hr, get?_cons, if_neg hr] at hother

/-- Nothing is taken back: names and children come behind those that are there, and where there were
attributes there are some. -/
structure Grows (s u : Snapshot) : Prop where
  names : Extends s.names u.names
  records : ∀ name r, s.get? name = some r → ∃ q, u.get? name = some q ∧
    Extends r.children q.children ∧ (r.attributes.isSome → q.attributes.isSome)

namespace Grows

variable {s t u : Snapshot}

lemma refl (s : Snapshot) : s.Grows s := ⟨.refl _, fun _ r hr => ⟨r, hr, .refl _, id⟩⟩

lemma trans (h : s.Grows t) (h' : t.Grows u) : s.Grows u where
  names := h.names.trans h'.names
  records name r hr := by
    obtain ⟨q, hq, hchildren, hattributes⟩ := h.records name r hr
    obtain ⟨p, hp, hchildren', hattributes'⟩ := h'.records name q hq
    exact ⟨p, hp, hchildren.trans hchildren', fun hsome => hattributes' (hattributes hsome)⟩

end Grows

lemma grows_insert (s : Snapshot) (r : Record) : s.Grows (s.insert r) where
  names := by
    rw [names_insert]
    split
    · exact .refl _
    · next hnew =>
      refine ⟨[r.name], rfl, List.nodup_singleton _, fun x hx => ?_⟩
      rw [List.mem_singleton.1 hx]
      exact hnew
  records name held hheld := by
    rw [get?_insert]
    split
    · refine ⟨held.absorb r, by rw [hheld]; rfl, extends_addChildren _ _, fun hsome => ?_⟩
      rw [Record.absorb]
      cases r.attributes with
      | none => exact hsome
      | some a => rfl
    · exact ⟨held, hheld, .refl _, id⟩

theorem grows_insertAll (s : Snapshot) (records : List Record) : s.Grows (s.insertAll records) := by
  induction records generalizing s with
  | nil => exact .refl s
  | cons r rest ih => exact (grows_insert s r).trans (ih (s.insert r))

/-- Inserting the record changes what the snapshot says of its name. -/
def Alters (s : Snapshot) (r : Record) : Prop := some (r.onto (s.get? r.name)) ≠ s.get? r.name

lemma changes_iff {s : Snapshot} {r : Record} : changes r s.records = true ↔ s.Alters r := by
  obtain ⟨records⟩ := s
  induction records with
  | nil => exact ⟨fun _ h => (by cases h), fun _ => rfl⟩
  | cons held rest ih =>
    rw [changes, Alters, get?_cons]
    split
    · rw [Record.onto, Option.elim_some, decide_eq_true_iff, Ne, Ne, Option.some_inj]
    · exact ih

lemma insert_eq_self {s : Snapshot} {r : Record} (h : ¬ s.Alters r) : s.insert r = s := by
  obtain ⟨records⟩ := s
  rw [insert]
  congr 1
  induction records with
  | nil => exact absurd (fun e => by cases e) h
  | cons held rest ih =>
    rw [Alters, get?_cons] at h
    rw [insertRecord]
    split
    · next hname =>
      rw [if_pos hname, not_ne_iff, Option.some_inj, Record.onto, Option.elim_some] at h
      rw [h]
    · next hname =>
      rw [if_neg hname] at h
      rw [ih h]

/-- Records that do not alter a snapshot leave it as it is. -/
lemma insertAll_eq_self {s : Snapshot} {records : List Record} (h : ∀ r ∈ records, ¬ s.Alters r) :
    s.insertAll records = s := by
  induction records with
  | nil => rfl
  | cons r rest ih =>
    rw [insertAll_cons, insert_eq_self (h r List.mem_cons_self)]
    exact ih fun q hq => h q (List.mem_cons_of_mem _ hq)

lemma alters_insert {s : Snapshot} {r q : Record} (hne : r.name ≠ q.name) :
    (s.insert r).Alters q ↔ s.Alters q := by
  rw [Alters, Alters, get?_insert, if_neg hne]

lemma Record.absorb_same (r : Record) : r.absorb r = r := by
  rw [Record.absorb, addChildren_of_subset (List.Subset.refl _)]
  obtain ⟨name, children, attributes⟩ := r
  cases attributes <;> rfl

lemma Record.absorb_absorb_same (held r : Record) : (held.absorb r).absorb r = held.absorb r := by
  rw [absorb, absorb, addChildren_of_subset (subset_addChildren _ _)]
  cases r.attributes <;> rfl

/-- What was inserted alters nothing any more. -/
lemma not_alters_insert_self (s : Snapshot) (r : Record) : ¬ (s.insert r).Alters r := by
  rw [Alters, get?_insert, if_pos rfl, not_ne_iff, Option.some_inj, Record.onto, Option.elim_some]
  cases s.get? r.name with
  | none => exact r.absorb_same
  | some held => exact held.absorb_absorb_same r

/-- Up to the first record that alters anything the snapshot stays what it was, so that record is found by
comparing each with what was there at the start. -/
lemma upsertAll_spec (s : Snapshot) (changed : Bool) (records : List Record) :
    (s.upsertAll changed records).1 = s.insertAll records ∧
      ((s.upsertAll changed records).2 = true ↔ changed = true ∨ ∃ r ∈ records, s.Alters r) := by
  induction records generalizing s changed with
  | nil => exact ⟨rfl, by simp [upsertAll]⟩
  | cons r rest ih =>
    obtain ⟨hfst, hsnd⟩ := ih (s.insert r) (changed || changes r s.records)
    refine ⟨hfst, hsnd.trans ?_⟩
    rw [Bool.or_eq_true, changes_iff, List.exists_mem_cons_iff, or_assoc]
    by_cases hr : s.Alters r
    · exact iff_of_true (.inr (.inl hr)) (.inr (.inl hr))
    · rw [insert_eq_self hr]

/-- If records of one name are the same, none of them alters anything after all were inserted. -/
lemma not_alters_insertAll (s : Snapshot) {records : List Record}
    (hsame : ∀ ⦃r⦄, r ∈ records → ∀ ⦃q⦄, q ∈ records → r.name = q.name → r = q) :
    ∀ r ∈ records, ¬ (s.insertAll records).Alters r := by
  induction records using List.reverseRecOn with
  | nil =>
    intro r hr
    cases hr
  | append_singleton front last ih =>
    have hinsert : s.insertAll (front ++ [last]) = (s.insertAll front).insert last := List.foldl_append
    have hlast : last ∈ front ++ [last] := List.mem_append_right _ (List.mem_singleton_self last)
    intro r hr
    rw [hinsert]
    by_cases hname : last.name = r.name
    · rw [← hsame hlast hr hname]
      exact not_alters_insert_self _ last
    · have hfront : r ∈ front := by
        rcases List.mem_append.1 hr with hr | hr
        · exact hr
        · exact absurd (congrArg Record.name (List.mem_singleton.1 hr)).symm hname
      rw [alters_insert hname]
      exact ih (fun r hr q hq => hsame (List.mem_append_left _ hr) (List.mem_append_left _ hq)) r hfront

theorem upsertAll_snd_iff (s : Snapshot) {records : List Record}
    (hsame : ∀ ⦃r⦄, r ∈ records → ∀ ⦃q⦄, q ∈ records → r.name = q.name → r = q) :
    (s.upsertAll false records).2 = true ↔ s.insertAll records ≠ s := by
  rw [(upsertAll_spec s false records).2, or_iff_right Bool.false_ne_true]
  constructor
  · rintro ⟨r, hr, halters⟩ hback
    have hnot := not_alters_insertAll s hsame r hr
    rw [hback] at hnot
    exact hnot halters
  · intro hne
    by_contra hnone
    exact hne (insertAll_eq_self fun r hr halters => hnone ⟨r, hr, halters⟩)

lemma merge_spec (s other : Snapshot) :
    (s.merge other).1 = s.insertAll other.records ∧
      ((s.merge other).2 = true ↔ ∃ r ∈ other.records, s.Alters r) := by
  obtain ⟨hfst, hsnd⟩ := upsertAll_spec s false other.records
  rw [or_iff_right Bool.false_ne_true] at hsnd
  exact ⟨hfst, hsnd⟩

theorem merge_snd_iff (s : Snapshot) {other : Snapshot} (h : other.names.Nodup) :
    (s.merge other).2 = true ↔ (s.merge other).1 ≠ s := by
  rw [(merge_spec s other).1]
  exact upsertAll_snd_iff s (List.inj_on_of_nodup_map h)

/-! ### Merging along the growth -/

lemma get?_eq_none_of_grows {s u : Snapshot} (h : s.Grows u) {name : String} (hu : u.get? name = none) :
    s.get? name = none := by
  cases hs : s.get? name with
  | none => rfl
  | some r =>
    obtain ⟨q, hq, _⟩ := h.records name r hs
    rw [hu] at hq
    cases hq

/-- Merging what a snapshot grew into gives just that. -/
theorem Grows.merge_eq {s u : Snapshot} (h : s.Grows u) (hu : u.names.Nodup) : (s.merge u).1 = u := by
  rw [(merge_spec s u).1]
  refine ext_get? hu ?_ fun name => ?_
  · exact (names_insertAll s u.records).trans h.names.addChildren_eq
  · rw [get?_insertAll s hu]
    change (u.get? name).elim _ _ = _
    cases hq : u.get? name with
    | none => exact get?_eq_none_of_grows h hq
    | some q =>
      rw [Option.elim_some]
      congr 1
      cases hr : s.get? name with
      | none => rfl
      | some r =>
        obtain ⟨q', hq', hchildren, hattributes⟩ := h.records name r hr
        rw [hq] at hq'
        cases hq'
        rw [Record.onto, Option.elim_some, Record.absorb, hchildren.addChildren_eq]
        obtain ⟨qname, qchildren, qattributes⟩ := q
        congr 1
        · exact (name_of_get? hr).trans (name_of_get? hq).symm
        · cases qattributes with
          | none => simpa using hattributes
          | some a => rfl

/-- What a snapshot says of the path at a name. -/
def attributes? (s : Snapshot) (name : String) : Option Attributes := (s.get? name).bind Record.attributes

/-- The snapshot with the attributes of another one, where that has some. -/
def overwrite (u s : Snapshot) : Snapshot :=
  ⟨u.records.map fun r => { r with attributes := s.attributes? r.name <|> r.attributes }⟩

lemma names_overwrite (u s : Snapshot) : (u.overwrite s).names = u.names := by
  rw [names, overwrite, List.map_map]
  rfl

lemma get?_overwrite (u s : Snapshot) (name : String) :
    (u.overwrite s).get? name =
      (u.get? name).map fun r => { r with attributes := s.attributes? name <|> r.attributes } := by
  obtain ⟨records⟩ := u
  induction records with
  | nil => rfl
  | cons r rest ih =>
    rw [overwrite, List.map_cons, get?_cons, get?_cons]
    split
    · next hname =>
      cases hname
      rfl
    · exact ih

/-- Merging what a snapshot grew out of puts back the attributes that were there, and nothing else. -/
theorem Grows.merge_back {s u : Snapshot} (h : s.Grows u) (hs : s.names.Nodup) (hu : u.names.Nodup) :
    (u.merge s).1 = u.overwrite s := by
  rw [(merge_spec u s).1]
  refine ext_get? ?_ ?_ fun name => ?_
  · rw [names_overwrite]
    exact hu
  · rw [names_overwrite, names_insertAll]
    exact addChildren_of_subset h.names.subset
  · rw [get?_insertAll u hs, get?_overwrite]
    change (s.get? name).elim _ _ = _
    cases hr : s.get? name with
    | none =>
      rw [attributes?, hr]
      cases u.get? name <;> rfl
    | some r =>
      obtain ⟨q, hq, hchildren, _⟩ := h.records name r hr
      rw [attributes?, hr, hq, Option.elim_some, Option.map_some, Record.onto, Option.elim_some, Record.absorb,
        addChildren_of_subset hchildren.subset]
      rfl

/-- An earlier record alters a later snapshot by attributes of its own. -/
lemma Grows.alters_iff {s u : Snapshot} (h : s.Grows u) (hs : s.names.Nodup) {r : Record}
    (hr : r ∈ s.records) :
    u.Alters r ↔ ∃ a, r.attributes = some a ∧ u.attributes? r.name ≠ some a := by
  obtain ⟨q, hq, hchildren, _⟩ := h.records r.name r (get?_of_mem hs hr)
  rw [Alters, attributes?, hq, Record.onto, Option.elim_some, Record.absorb,
    addChildren_of_subset hchildren.subset, ne_eq, Option.some_inj, Option.bind_some]
  obtain ⟨qname, qchildren, qattributes⟩ := q
  rw [Record.mk.injEq]
  cases hattributes : r.attributes with
  | none => simp
  | some a => simp [eq_comm]

end ForkTree.Snapshot
