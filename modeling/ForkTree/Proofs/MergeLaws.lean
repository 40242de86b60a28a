import ForkTree.Command.Run
import ForkTree.Proofs.SnapshotRoundTrip

/-!
The laws of merging. What a record becomes by two others in turn is what it becomes by the first of them
after that absorbed the second (`Record.absorb_absorb`), and records of different names do not meet. So
inserting a record into a snapshot and then the snapshot into another one comes to the same as inserting
first the snapshot and then the record (`insertAll_insert`): merging is associative, the empty snapshot is
its unit, and building a snapshot of two lists of records is merging what is built of each. A snapshot that
was merged has nothing left to alter, and files are merged as the arrays in them are loaded.
-/

namespace ForkTree

namespace Snapshot

lemma addChildren_concat (known more : List String) (child : String) :
    addChildren known (more ++ [child]) =
      if child ∈ addChildren known more then addChildren known more else addChildren known more ++ [child] :=
  List.foldl_append

/-- Children are added to children before they are added to others, or afterwards. -/
lemma addChildren_addChildren (known more last : List String) :
    addChildren (addChildren known more) last = addChildren known (addChildren more last) := by
  induction last generalizing more with
  | nil => rfl
  | cons child last ih =>
    have hstep : (if child ∈ addChildren known more then addChildren known more
        else addChildren known more ++ [child]) =
        addChildren known (if child ∈ more then more else more ++ [child]) := by
      by_cases hchild : child ∈ more
      · rw [if_pos hchild, if_pos (subset_addChildren known more hchild)]
      · rw [if_neg hchild, addChildren_concat]
    rw [addChildren, List.foldl_cons, hstep, ← addChildren, ih, addChildren.eq_def more, List.foldl_cons,
      ← addChildren.eq_def]

lemma Record.absorb_absorb (held r q : Record) : (held.absorb r).absorb q = held.absorb (r.absorb q) := by
  simp only [Record.absorb, addChildren_addChildren]
  cases q.attributes <;> rfl

lemma insertRecord_of_eq {held r : Record} (h : held.name = r.name) (rest : List Record) :
    insertRecord r (held :: rest) = held.absorb r :: rest := if_pos h

lemma insertRecord_of_ne {held r : Record} (h : held.name ≠ r.name) (rest : List Record) :
    insertRecord r (held :: rest) = held :: insertRecord r rest := if_neg h

/-- Two records of one name are inserted as what the first becomes by the second. -/
lemma insertRecord_insertRecord {r q : Record} (h : r.name = q.name) (records : List Record) :
    insertRecord q (insertRecord r records) = insertRecord (r.absorb q) records := by
  induction records with
  | nil => exact insertRecord_of_eq h []
  | cons held rest ih =>
    by_cases hheld : held.name = r.name
    · have habsorbed : (held.absorb r).name = q.name := hheld.trans h
      have hboth : held.name = (r.absorb q).name := hheld
      rw [insertRecord_of_eq hheld, insertRecord_of_eq habsorbed, insertRecord_of_eq hboth,
        Record.absorb_absorb]
    · have hq : held.name ≠ q.name := fun e => hheld (e.trans h.symm)
      have hboth : held.name ≠ (r.absorb q).name := hheld
      rw [insertRecord_of_ne hheld, insertRecord_of_ne hq, insertRecord_of_ne hboth, ih]

/-- A record that is known and one of another name may be inserted in either order. -/
lemma insertRecord_comm {r q : Record} (hne : r.name ≠ q.name) {records : List Record}
    (hknown : r.name ∈ records.map Record.name) :
    insertRecord q (insertRecord r records) = insertRecord r (insertRecord q records) := by
  induction records with
  | nil => cases hknown
  | cons held rest ih =>
    by_cases hr : held.name = r.name
    · have hq : held.name ≠ q.name := fun e => hne (hr.symm.trans e)
      have hq' : (held.absorb r).name ≠ q.name := hq
      rw [insertRecord_of_eq hr, insertRecord_of_ne hq', insertRecord_of_ne hq, insertRecord_of_eq hr]
    · have hrest : r.name ∈ rest.map Record.name :=
        (List.mem_cons.1 hknown).resolve_left (Ne.symm hr)
      by_cases hq : held.name = q.name
      · have hr' : (held.absorb q).name ≠ r.name := hr
        rw [insertRecord_of_ne hr, insertRecord_of_eq hq, insertRecord_of_eq hq, insertRecord_of_ne hr']
      · rw [insertRecord_of_ne hr, insertRecord_of_ne hq, insertRecord_of_ne hq, insertRecord_of_ne hr, ih hrest]

lemma insertAll_append (s : Snapshot) (xs ys : List Record) :
    s.insertAll (xs ++ ys) = (s.insertAll xs).insertAll ys := List.foldl_append

/-- A record that is known is inserted before or after records of other names. -/
lemma insert_insertAll_comm {s : Snapshot} {r : Record} (hknown : r.name ∈ s.names) {records : List Record}
    (hother : r.name ∉ records.map Record.name) :
    (s.insertAll records).insert r = (s.insert r).insertAll records := by
  induction records generalizing s with
  | nil => rfl
  | cons q rest ih =>
    rw [List.map_cons, List.mem_cons, not_or] at hother
    have hswap : (s.insert r).insert q = (s.insert q).insert r :=
      congrArg Snapshot.mk (insertRecord_comm hother.1 hknown)
    rw [insertAll_cons, insertAll_cons, hswap]
    exact ih (mem_names_insert.2 (.inr hknown)) hother.2

/-- Inserting a record into a snapshot and that into another one is inserting the snapshot and then the
record. -/
theorem insertAll_insert (s : Snapshot) {u : Snapshot} (hu : u.names.Nodup) (r : Record) :
    s.insertAll (u.insert r).records = (s.insertAll u.records).insert r := by
  obtain ⟨records⟩ := u
  change s.insertAll (insertRecord r records) = _
  induction records generalizing s with
  | nil => rfl
  | cons held rest ih =>
    obtain ⟨hheld, hrest⟩ := List.nodup_cons.1 hu
    by_cases hname : held.name = r.name
    · have hsame : s.insert (held.absorb r) = (s.insert held).insert r :=
        congrArg Snapshot.mk (insertRecord_insertRecord hname s.records).symm
      rw [insertRecord_of_eq hname, insertAll_cons, insertAll_cons, hsame]
      refine (insert_insertAll_comm (mem_names_insert.2 (.inl hname.symm)) ?_).symm
      rwa [← hname]
    · rw [insertRecord_of_ne hname, insertAll_cons, insertAll_cons]
      exact ih (s.insert held) hrest

theorem insertAll_insertAll (s : Snapshot) {u : Snapshot} (hu : u.names.Nodup) (records : List Record) :
    s.insertAll (u.insertAll records).records = (s.insertAll u.records).insertAll records := by
  induction records generalizing u with
  | nil => rfl
  | cons r rest ih => rw [insertAll_cons, ih (nodup_names_insert hu r), insertAll_insert s hu, insertAll_cons]

/-- Records are inserted one by one or as the snapshot that they make. -/
lemma insertAll_ofRecords (s : Snapshot) (records : List Record) :
    s.insertAll (ofRecords records).records = s.insertAll records :=
  insertAll_insertAll s (u := empty) List.nodup_nil records

lemma merge_ofRecords (xs ys : List Record) :
    ((ofRecords xs).merge (ofRecords ys)).1 = ofRecords (xs ++ ys) := by
  rw [(merge_spec _ _).1, insertAll_ofRecords]
  exact (insertAll_append empty xs ys).symm

/-! ### Files -/

/-- Arrays are loaded one behind the other as the second is merged into the first. -/
lemma ofJson?_append (xs ys : List Json) :
    ofJson? (.array (xs ++ ys)) = do
      let s ← ofJson? (.array xs)
      let u ← ofJson? (.array ys)
      return (s.merge u).1 := by
  simp only [ofJson?, Json.toList?, List.mapM_append]
  cases xs.mapM (Record.ofJson? 1) with
  | none => rfl
  | some first =>
    cases ys.mapM (Record.ofJson? 1) with
    | none => rfl
    | some second => exact congrArg some (merge_ofRecords first second).symm

end Snapshot

/-- The file at a path is the JSON array of the given items. -/
def Disk.HoldsArray (d : Disk) (path : String) (items : List Json) : Prop :=
  ∃ text, d.read path = .ok (Bytes.ofText text) ∧ Json.ofText? text = some (.array items)

/-- A file in the working directory is read under its name. -/
lemma Disk.read_name {d : Disk} {name : String} {content : Bytes}
    (hstart : d.start name = .ok (d.workDir, [name]))
    (hstep : d.step d.workDir name = .ok (d.workDir ++ [name]))
    (hentry : d.entry? (d.workDir ++ [name]) = some (.file content)) : d.read name = .ok content := by
  have hwalk : d.walk d.workDir [name] = .ok (d.workDir ++ [name]) := by
    rw [walk, List.foldlM_cons, hstep]
    rfl
  simp only [read, look, hstart, hwalk, hentry, bind, Except.bind, pure, Except.pure]

lemma Disk.read_three (first second both : Bytes) :
    let d : Disk := ⟨["work"], [(["work"], .directory), (["work", "a"], .file first),
      (["work", "b"], .file second), (["work", "c"], .file both)]⟩
    d.read "a" = .ok first ∧ d.read "b" = .ok second ∧ d.read "c" = .ok both := by
  intro d
  refine ⟨read_name (d.start_relative ?_ ?_ ?_) rfl rfl, read_name (d.start_relative ?_ ?_ ?_) rfl rfl,
    read_name (d.start_relative ?_ ?_ ?_) rfl rfl⟩
  all_goals simp +decide [String.splitOn, String.splitOnAux]

namespace Command

lemma loadSnapshot_eq {d : Disk} {path : String} {items : List Json} (h : d.HoldsArray path items) :
    loadSnapshot d path = (Snapshot.ofJson? (.array items)).elim (.error .malformed) .ok := by
  obtain ⟨text, hread, htext⟩ := h
  have hdecode : toText (Bytes.ofText text) = .ok text := by rw [toText, Bytes.toText?_ofText]
  have hload : Snapshot.ofText? text = Snapshot.ofJson? (.array items) := by
    rw [Snapshot.ofText?, htext, Option.bind_some]
  simp only [loadSnapshot, hread, liftDisk, bind, Except.bind, hdecode, hload]
  cases Snapshot.ofJson? (.array items) <;> rfl

/-- Two files are merged as their arrays are loaded from one file. -/
lemma merge_eq {d : Disk} {base incoming joint : String} {xs ys : List Json} (hbase : d.HoldsArray base xs)
    (hincoming : d.HoldsArray incoming ys) (hjoint : d.HoldsArray joint (xs ++ ys)) (out : String) :
    merge d base incoming out = do
      let s ← loadSnapshot d joint
      let d ← liftDisk (d.write out (Bytes.ofText s.pretty))
      return (s.size, d) := by
  rw [merge, loadSnapshot_eq hbase, loadSnapshot_eq hincoming, loadSnapshot_eq hjoint,
    Snapshot.ofJson?_append]
  cases Snapshot.ofJson? (.array xs) with
  | none => rfl
  | some s => cases Snapshot.ofJson? (.array ys) <;> rfl

end Command

namespace Snapshot

/-- Merging is associative, has the empty snapshot for its unit and does nothing a second time. A list of
records behind another one makes what the second makes merged into what the first makes, and so do files. -/
theorem merge_laws {a b : Snapshot} (ha : a.Built) (hb : b.Built) (c : Snapshot) :
    ((a.merge b).1.merge c).1 = (a.merge (b.merge c).1).1 ∧
      (empty.merge a).1 = a ∧ a.merge empty = (a, false) ∧
      (a.merge b).1.merge b = ((a.merge b).1, false) ∧
      (∀ xs ys, ofRecords (xs ++ ys) = ((ofRecords xs).merge (ofRecords ys)).1) ∧
      ∀ (d : Disk) (base incoming joint out : String) (xs ys : List Json), d.HoldsArray base xs →
        d.HoldsArray incoming ys → d.HoldsArray joint (xs ++ ys) →
        Command.merge d base incoming out = do
          let s ← Command.loadSnapshot d joint
          let d ← Command.liftDisk (d.write out (Bytes.ofText s.pretty))
          return (s.size, d) := by
  have hb' := built_iff.1 hb
  refine ⟨?_, ?_, rfl, ?_, fun xs ys => (merge_ofRecords xs ys).symm, ?_⟩
  · rw [(merge_spec _ c).1, (merge_spec a b).1, (merge_spec a _).1, (merge_spec b c).1,
      insertAll_insertAll a hb']
  · rw [(merge_spec _ a).1]
    exact ofRecords_records (built_iff.1 ha)
  · have hsame : ∀ r ∈ b.records, ¬ (a.merge b).1.Alters r := by
      rw [(merge_spec a b).1]
      exact not_alters_insertAll a (List.inj_on_of_nodup_map hb')
    obtain ⟨hfst, hsnd⟩ := merge_spec (a.merge b).1 b
    refine Prod.ext (hfst.trans (insertAll_eq_self hsame)) (Bool.eq_false_iff.2 fun hchanged => ?_)
    obtain ⟨r, hr, halters⟩ := hsnd.1 hchanged
    exact hsame r hr halters
  · intro d base incoming joint out xs ys hbase hincoming hjoint
    exact Command.merge_eq hbase hincoming hjoint out

/-- Three snapshots that know of one another's names and children, and two files of which the second gives
the record of the first attributes. -/
theorem merge_laws_of_files :
    let state : Attributes := ⟨⟨7⟩, 3, "main.c:9", "main.c:8", 12, .empty, ["n >= 10"], []⟩
    let xs : List Record := [⟨"r", ["x", "x"], none⟩, .bare "x"]
    let ys : List Record := [⟨"r", ["y", "x"], some state⟩, ⟨"y", ["z", "z"], none⟩, ⟨"r", ["y"], none⟩]
    let a := ofRecords xs
    let b := ofRecords ys
    let c := (a.merge (ofRecords [⟨"y", ["w", "z", "w"], some state⟩])).1
    let text : List Record → Bytes := fun records => Bytes.ofText (compact ⟨records⟩)
    let d : Disk := ⟨["work"], [(["work"], .directory), (["work", "a"], .file (text xs)),
      (["work", "b"], .file (text ys)), (["work", "c"], .file (text (xs ++ ys)))]⟩
    a.Built ∧ b.Built ∧ d.HoldsArray "a" (xs.map Record.toJson) ∧
      d.HoldsArray "b" (ys.map Record.toJson) ∧
      d.HoldsArray "c" (xs.map Record.toJson ++ ys.map Record.toJson) ∧
      ((a.merge b).1.merge c).1 = (a.merge (b.merge c).1).1 ∧
      (a.merge b).1.merge b = ((a.merge b).1, false) ∧
      Command.merge d "a" "b" "d" = do
        let s ← Command.loadSnapshot d "c"
        let d ← Command.liftDisk (d.write "d" (Bytes.ofText s.pretty))
        return (s.size, d) := by
  intro state xs ys a b c text d
  have ha : a.Built := .ofRecords _
  have hb : b.Built := .ofRecords _
  obtain ⟨hreadFirst, hreadSecond, hreadBoth⟩ := Disk.read_three (text xs) (text ys) (text (xs ++ ys))
  have hplain : ∀ records : List Record,
      Json.ofText? (compact ⟨records⟩) = some (.array (records.map Record.toJson)) :=
    fun records => ofText?_compact ⟨records⟩
  have hfirst : d.HoldsArray "a" (xs.map Record.toJson) := ⟨_, hreadFirst, hplain xs⟩
  have hsecond : d.HoldsArray "b" (ys.map Record.toJson) := ⟨_, hreadSecond, hplain ys⟩
  have hboth : d.HoldsArray "c" (xs.map Record.toJson ++ ys.map Record.toJson) := by
    rw [← List.map_append]
    exact ⟨_, hreadBoth, hplain (xs ++ ys)⟩
  obtain ⟨hassoc, _, _, hagain, _, hfiles⟩ := merge_laws ha hb c
  exact ⟨ha, hb, hfirst, hsecond, hboth, hassoc, hagain,
    hfiles d "a" "b" "c" "d" _ _ hfirst hsecond hboth⟩

end Snapshot

end ForkTree
