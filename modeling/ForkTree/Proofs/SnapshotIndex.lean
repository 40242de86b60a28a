import ForkTree.Proofs.SnapshotGrowth
import ForkTree.Snapshot.Indexed

/-!
Snapshots with an index do what snapshots do. `Indexed.IsIndexed` says that names are different and that the
index leads from a name to its record and nowhere else. Then a look-up in the index decides as a search
does, so an operation never stops at a position behind the records, yields the records that it yields
without the index and notices the same changes (`IsIndexed.upsert`, `IsIndexed.merge`), and the index is
kept up. Snapshots that are made by loading, inserting and merging are all of that kind, so each call on one of
them makes it grow and tells whether it became another one (`Indexed.Reached.reports`).
-/

namespace ForkTree.Snapshot

lemma pushChildren_eq (known : List String) (changed : Bool) (more : List String) :
    pushChildren known changed more =
      (addChildren known more, changed || decide (addChildren known more ≠ known)) := by
  induction more generalizing known changed with
  | nil => simp [pushChildren, addChildren]
  | cons child rest ih =>
    rw [addChildren, List.foldl_cons, pushChildren]
    by_cases hchild : child ∈ known
    · rw [if_pos hchild, if_pos hchild, ih, addChildren]
    · have hmore : addChildren (known ++ [child]) rest ≠ known := by
        intro h
        have hmem : child ∈ known ++ [child] := List.mem_append_right _ (List.mem_singleton_self child)
        exact hchild (h ▸ (extends_addChildren _ rest).subset hmem)
      rw [if_neg hchild, if_neg hchild, ih, ← addChildren, decide_eq_true hmore, Bool.or_true, Bool.true_or]

lemma Record.update_eq (held r : Record) : held.update r = (held.absorb r, decide (held.absorb r ≠ held)) := by
  obtain ⟨name, children, attributes⟩ := held
  rw [update, pushChildren_eq, absorb]
  cases r.attributes with
  | none => simp
  | some a =>
    by_cases ha : attributes = some a
    · simp [ha]
    · simp [ha, eq_comm]

lemma insertRecord_of_notMem {r : Record} {records : List Record} (h : r.name ∉ records.map Record.name) :
    insertRecord r records = records ++ [r] ∧ changes r records = true := by
  induction records with
  | nil => exact ⟨rfl, rfl⟩
  | cons held rest ih =>
    rw [List.map_cons, List.mem_cons, not_or] at h
    obtain ⟨hinsert, hchanges⟩ := ih h.2
    rw [insertRecord, changes, if_neg (Ne.symm h.1), if_neg (Ne.symm h.1), hinsert]
    exact ⟨rfl, hchanges⟩

/-- A record of a known name is inserted where that is. -/
lemma insertRecord_of_getElem? {r held : Record} {records : List Record} {i : Nat}
    (hnodup : (records.map Record.name).Nodup) (hheld : records[i]? = some held) (hname : held.name = r.name) :
    insertRecord r records = records.set i (held.absorb r) ∧
      changes r records = decide (held.absorb r ≠ held) := by
  induction records generalizing i with
  | nil => cases hheld
  | cons first rest ih =>
    obtain ⟨hfirst, hrest⟩ := List.nodup_cons.1 hnodup
    rw [insertRecord, changes]
    cases i with
    | zero =>
      cases hheld
      rw [if_pos hname, if_pos hname]
      exact ⟨rfl, rfl⟩
    | succ i =>
      have hmem : held ∈ rest := List.mem_of_getElem? hheld
      have hne : first.name ≠ r.name := fun e => hfirst (e ▸ hname ▸ List.mem_map_of_mem hmem)
      obtain ⟨hinsert, hchanges⟩ := ih hrest hheld
      rw [if_neg hne, if_neg hne, hinsert]
      exact ⟨rfl, hchanges⟩

lemma upsert_snd_iff (s : Snapshot) (r : Record) : (s.upsert r).2 = true ↔ (s.upsert r).1 ≠ s := by
  refine changes_iff.trans ⟨fun halters hsame => ?_, fun hne => ?_⟩
  · have hget := get?_insert s r r.name
    change s.insert r = s at hsame
    rw [hsame, if_pos rfl] at hget
    exact halters hget.symm
  · by_contra hnot
    exact hne (insert_eq_self hnot)

lemma getElem?_concat_iff {α : Type} {l : List α} {last a : α} {i : Nat} :
    (l ++ [last])[i]? = some a ↔ l[i]? = some a ∨ i = l.length ∧ last = a := by
  rw [List.getElem?_append]
  split
  · next hi => exact (or_iff_left fun h => Nat.ne_of_lt hi h.1).symm
  · next hi =>
    have hnone : l[i]? = none := List.getElem?_eq_none (Nat.le_of_not_lt hi)
    rw [hnone, List.getElem?_singleton]
    grind

namespace Indexed

variable {s u other : Indexed}

/-- The index leads from each name to the position of the one record of that name. -/
structure IsIndexed (s : Indexed) : Prop where
  nodup : s.plain.names.Nodup
  index_iff : ∀ name i, s.index.get? name = some i ↔ ∃ r, s.records[i]? = some r ∧ r.name = name

namespace IsIndexed

lemma index_iff_names (h : s.IsIndexed) (name : String) (i : Nat) :
    s.index.get? name = some i ↔ s.plain.names[i]? = some name := by
  rw [h.index_iff, names, List.getElem?_map, Option.map_eq_some_iff]
  rfl

lemma of_names (hnodup : s.plain.names.Nodup)
    (h : ∀ name i, s.index.get? name = some i ↔ s.plain.names[i]? = some name) : s.IsIndexed where
  nodup := hnodup
  index_iff name i := by
    rw [h, names, List.getElem?_map, Option.map_eq_some_iff]
    rfl

lemma empty : Indexed.empty.IsIndexed where
  nodup := .nil
  index_iff name i := by simp [Indexed.empty]

/-- The records determine the index. -/
lemma ext (hs : s.IsIndexed) (hu : u.IsIndexed) (h : s.plain = u.plain) : s = u := by
  have hindex : s.index = u.index := by
    apply SortedMap.ext_get?
    intro name
    ext i
    rw [hs.index_iff_names, hu.index_iff_names, h]
  obtain ⟨records, index⟩ := s
  cases h
  cases hindex
  rfl

lemma index_eq_none (h : s.IsIndexed) {name : String} :
    s.index.get? name = none ↔ name ∉ s.plain.names := by
  rw [List.mem_iff_getElem?, Option.eq_none_iff_forall_ne_some, not_exists]
  exact forall_congr' fun i => not_congr (h.index_iff_names name i)

lemma get?_eq (h : s.IsIndexed) (name : String) : s.get? name = s.plain.get? name := by
  cases hindex : s.index.get? name with
  | none =>
    have hnone : s.plain.get? name = none := by
      rw [← Option.not_isSome_iff_eq_none, isSome_get?]
      exact h.index_eq_none.1 hindex
    rw [Indexed.get?, hindex, hnone, Option.bind_none]
  | some i =>
    obtain ⟨r, hr, rfl⟩ := (h.index_iff name i).1 hindex
    rw [Indexed.get?, hindex, Option.bind_some, hr]
    exact (get?_of_mem h.nodup (List.mem_of_getElem? hr)).symm

/-- A record of a new name comes behind the others. -/
lemma upsert_new (h : s.IsIndexed) {r : Record} (hindex : s.index.get? r.name = none) :
    ∃ u, s.upsert r = some (u, (s.plain.upsert r).2) ∧ u.plain = s.plain.insert r ∧ u.IsIndexed := by
  have hnew := h.index_eq_none.1 hindex
  obtain ⟨hinsert, hchanges⟩ := insertRecord_of_notMem hnew
  let u : Indexed := ⟨s.records ++ [r], s.index.insert r.name s.records.length⟩
  have hplain : u.plain = s.plain.insert r := congrArg Snapshot.mk hinsert.symm
  have hnames : u.plain.names = s.plain.names ++ [r.name] := by rw [hplain, names_insert, if_neg hnew]
  have hlength : s.plain.names.length = s.records.length := List.length_map _
  refine ⟨u, ?_, hplain, of_names ?_ fun name i => ?_⟩
  · rw [Indexed.upsert, hindex]
    exact congrArg (fun changed => some (u, changed)) hchanges.symm
  · rw [hplain]
    exact nodup_names_insert h.nodup r
  · rw [SortedMap.get?_insert, hnames, getElem?_concat_iff, hlength]
    by_cases hname : name = r.name
    · have hnot : s.plain.names[i]? ≠ some name := fun hi => hnew (hname ▸ List.mem_of_getElem? hi)
      rw [if_pos hname, Option.some_inj, or_iff_right hnot, and_iff_left hname.symm]
      exact eq_comm
    · rw [if_neg hname, h.index_iff_names, or_iff_left fun hlast => hname hlast.2.symm]

/-- A record of a known name is taken over by the one at its position. -/
lemma upsert_known (h : s.IsIndexed) {r : Record} {i : Nat} (hindex : s.index.get? r.name = some i) :
    ∃ u, s.upsert r = some (u, (s.plain.upsert r).2) ∧ u.plain = s.plain.insert r ∧ u.IsIndexed := by
  obtain ⟨held, hheld, hname⟩ := (h.index_iff _ i).1 hindex
  obtain ⟨hinsert, hchanges⟩ := insertRecord_of_getElem? h.nodup hheld hname
  let u : Indexed := ⟨s.records.set i (held.absorb r), s.index⟩
  have hplain : u.plain = s.plain.insert r := congrArg Snapshot.mk hinsert.symm
  have hknown : r.name ∈ s.plain.names := hname ▸ List.mem_map_of_mem (List.mem_of_getElem? hheld)
  have hnames : u.plain.names = s.plain.names := by rw [hplain, names_insert, if_pos hknown]
  refine ⟨u, ?_, hplain, of_names ?_ fun name j => ?_⟩
  · rw [Indexed.upsert, hindex]
    simp only [hheld, Option.bind_eq_bind, Option.bind_some, Record.update_eq]
    exact congrArg (fun changed => some (u, changed)) hchanges.symm
  · rw [hnames]
    exact h.nodup
  · rw [hnames]
    exact h.index_iff_names name j

/-- A record is inserted as it is without the index, which is kept up. -/
theorem upsert (h : s.IsIndexed) (r : Record) :
    ∃ u, s.upsert r = some (u, (s.plain.upsert r).2) ∧ u.plain = s.plain.insert r ∧ u.IsIndexed := by
  cases hindex : s.index.get? r.name with
  | none => exact h.upsert_new hindex
  | some i => exact h.upsert_known hindex

/-- So are records one after the other. -/
lemma upsertAll (h : s.IsIndexed) (changed : Bool) (records : List Record) :
    ∃ u, s.upsertAll changed records = some (u, (s.plain.upsertAll changed records).2) ∧
      u.plain = s.plain.insertAll records ∧ u.IsIndexed := by
  induction records generalizing s changed with
  | nil => exact ⟨s, rfl, rfl, h⟩
  | cons r rest ih =>
    obtain ⟨t, hupsert, hplain, ht⟩ := h.upsert r
    obtain ⟨u, hrest, hu, hindexed⟩ := ih ht (changed || (s.plain.upsert r).2)
    rw [hplain] at hrest hu
    refine ⟨u, ?_, hu, hindexed⟩
    rw [Indexed.upsertAll, hupsert]
    exact hrest

theorem merge (h : s.IsIndexed) (other : Indexed) :
    ∃ u, s.merge other = some (u, (s.plain.merge other.plain).2) ∧
      u.plain = s.plain.insertAll other.records ∧ u.IsIndexed :=
  h.upsertAll false other.records

end IsIndexed

/-! ### Snapshots that are made -/

lemma ofRecords_eq (records : List Record) :
    ∃ s, ofRecords records = some s ∧ s.plain = Snapshot.ofRecords records ∧ s.IsIndexed := by
  obtain ⟨s, hs, hplain, hindexed⟩ := IsIndexed.empty.upsertAll false records
  exact ⟨s, by rw [ofRecords, hs]; rfl, hplain, hindexed⟩

/-- A text is loaded with an index just as it is without one, and the index is right. -/
lemma ofText?_spec (text : String) :
    (ofText? text).map plain = Snapshot.ofText? text ∧ ∀ s ∈ ofText? text, s.IsIndexed := by
  rw [ofText?, Snapshot.ofText?]
  cases Json.ofText? text with
  | none => simp
  | some j =>
    cases hrecords : j.toList? (Record.ofJson? 1) with
    | none => simp [Snapshot.ofJson?, hrecords]
    | some records =>
      obtain ⟨s, hs, hplain, hindexed⟩ := ofRecords_eq records
      simp [Snapshot.ofJson?, hrecords, hs, hplain, hindexed]

/-- The snapshots that calls make, from an empty one or one that is loaded. -/
inductive Reached : Indexed → Prop
  | empty : Reached empty
  | loaded {text : String} {s : Indexed} (h : ofText? text = some s) : Reached s
  | upsert {s u : Indexed} {r : Record} {changed : Bool} (hs : Reached s)
      (h : s.upsert r = some (u, changed)) : Reached u
  | merge {s other u : Indexed} {changed : Bool} (hs : Reached s) (hother : Reached other)
      (h : s.merge other = some (u, changed)) : Reached u

theorem Reached.isIndexed (h : s.Reached) : s.IsIndexed := by
  induction h with
  | empty => exact .empty
  | @loaded text s h => exact (ofText?_spec text).2 s h
  | @upsert s u r changed _ h ih =>
    obtain ⟨t, ht, _, hindexed⟩ := ih.upsert r
    rw [h] at ht
    cases ht
    exact hindexed
  | @merge s other u changed _ _ h ih _ =>
    obtain ⟨t, ht, _, hindexed⟩ := ih.merge other
    rw [h] at ht
    cases ht
    exact hindexed

/-- A call on a snapshot returns, with an indexed snapshot that grew out of it, whether that is another one.
Without the index the call comes to the same. -/
def Returns (s : Indexed) (result : Option (Indexed × Bool)) (plain : Snapshot × Bool) : Prop :=
  ∃ u changed, result = some (u, changed) ∧ u.IsIndexed ∧ s.plain.Grows u.plain ∧
    (changed = true ↔ u ≠ s) ∧ plain = (u.plain, changed)

lemma IsIndexed.returns (hs : s.IsIndexed) {result : Option (Indexed × Bool)} {plain : Snapshot × Bool}
    (hresult : result = some (u, plain.2)) (hplain : u.plain = plain.1) (hu : u.IsIndexed)
    (hgrows : s.plain.Grows plain.1) (hchanged : plain.2 = true ↔ plain.1 ≠ s.plain) :
    s.Returns result plain := by
  refine ⟨u, plain.2, hresult, hu, hplain ▸ hgrows, hchanged.trans ?_, Prod.ext hplain.symm rfl⟩
  rw [← hplain]
  exact not_congr ⟨fun h => hu.ext hs h, fun h => h ▸ rfl⟩

/-- Of every snapshot that is made by loading, inserting and merging, the names are different and the index
leads to their records. Each further call has a result, takes nothing back and tells exactly whether it
changed anything. -/
theorem Reached.reports (h : s.Reached) :
    s.IsIndexed ∧ (∀ name, s.get? name = s.plain.get? name) ∧
      (∀ r, s.Returns (s.upsert r) (s.plain.upsert r)) ∧
      ∀ other : Indexed, other.Reached → s.Returns (s.merge other) (s.plain.merge other.plain) := by
  have hs := h.isIndexed
  refine ⟨hs, hs.get?_eq, fun r => ?_, fun other hother => ?_⟩
  · obtain ⟨u, hresult, hplain, hu⟩ := hs.upsert r
    exact hs.returns hresult hplain hu (grows_insert s.plain r) (upsert_snd_iff s.plain r)
  · obtain ⟨u, hresult, hplain, hu⟩ := hs.merge other
    have hnodup := hother.isIndexed.nodup
    have hfst := (merge_spec s.plain other.plain).1
    refine hs.returns hresult (hplain.trans hfst.symm) hu ?_ (merge_snd_iff s.plain hnodup)
    rw [hfst]
    exact grows_insertAll s.plain other.records

/-- A loaded snapshot takes over a child and attributes of a known name, and then nothing more of the one that
was loaded. -/
theorem reports_of_loaded :
    let state : Attributes := ⟨⟨7⟩, 3, "main.c:9", "main.c:8", 12, .empty, ["n >= 10"], []⟩
    let loaded : Indexed := ⟨[⟨"a", ["b", "b"], none⟩, .bare "b"], .ofList [("a", 0), ("b", 1)]⟩
    let s : Indexed := ⟨[⟨"a", ["b", "b", "c"], some state⟩, .bare "b"], .ofList [("a", 0), ("b", 1)]⟩
    loaded.Reached ∧ s.Reached ∧ s.IsIndexed ∧
      (∀ r, s.Returns (s.upsert r) (s.plain.upsert r)) ∧
      s.Returns (s.merge loaded) (s.plain.merge loaded.plain) ∧ s.merge loaded = some (s, false) := by
  intro state loaded s
  have hloaded : loaded.Reached := @Reached.loaded
    "[\x7b\"name\":\"a\",\"children\":[\"b\",\"b\"]\x7d,\x7b\"name\":\"b\"\x7d]" loaded (by rfl)
  have hs : s.Reached := @Reached.upsert loaded s ⟨"a", ["c", "b"], some state⟩ true hloaded (by rfl)
  obtain ⟨hindexed, _, hupsert, hmerge⟩ := hs.reports
  exact ⟨hloaded, hs, hindexed, hupsert, hmerge loaded hloaded, by rfl⟩

end Indexed

end ForkTree.Snapshot
