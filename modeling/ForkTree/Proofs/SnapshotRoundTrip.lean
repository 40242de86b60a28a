import ForkTree.Proofs.RecordRoundTrip
import ForkTree.Proofs.SnapshotGrowth
import ForkTree.Snapshot.Json

/-!
A snapshot is read back from its text (`Snapshot.ofText?_written`), whether that is on one line or on many.
What a snapshot holds is numbers of at most 64 bits and texts, so its value is plain and its text is read as
that value. Each decoder undoes its encoder: of a record without attributes no further members are written,
which is read as no attributes; those of attributes are eight, all of them at most three containers deep.
The records come back as a list, and inserting them one after the other gives the snapshot they are from,
because its names are different. That is what all ways of building a snapshot have in common
(`Snapshot.built_iff`).
-/

namespace ForkTree

namespace Coverage

/-- The lines of a file. -/
def linesJson (lines : SortedSet UInt32) : Json := .array (lines.items.map fun line => .nat line.toNat)

lemma toJson_eq (c : Coverage) : toJson c = .object (c.entries.map fun m => (m.1, linesJson m.2)) := rfl

lemma plain_toJson (c : Coverage) : (toJson c).Plain := by
  refine .object fun m hm => ?_
  obtain ⟨entry, _, rfl⟩ := List.mem_map.1 hm
  exact Json.plain_array_map fun line _ => Json.plain_uint32 line

/-- Files and lines come in ascending order, which is the order that reading puts them in. -/
lemma ofJson?_toJson (c : Coverage) : ofJson? (toJson c) = some c := by
  have hlines : ∀ entry ∈ c.entries,
      Json.toList? Json.toUInt32? (linesJson entry.2) = some entry.2.items := fun entry _ =>
    Json.toList?_map fun line _ => Json.toUInt32?_nat line
  have hsame : (c.entries.map fun entry => (entry.1, entry.2.items)).map
      (fun entry => (entry.1, SortedSet.ofList entry.2)) = c.entries := by
    rw [List.map_map]
    refine (List.map_congr_left fun entry _ => ?_).trans (List.map_id _)
    exact Prod.ext rfl entry.2.ofList_items
  rw [ofJson?, toJson_eq, Json.toMembers?_map linesJson SortedSet.items hlines]
  exact congrArg some ((congrArg SortedMap.ofList hsame).trans c.ofList_entries)

end Coverage

namespace Snapshot

namespace Memory

lemma plain_toJson (m : Memory) : m.toJson.Plain := by
  refine .object fun i hi => ?_
  simp only [List.mem_cons, List.not_mem_nil, or_false] at hi
  rcases hi with rfl | rfl | rfl | rfl
  · exact .text _
  · exact Json.plain_uint32 m.size
  · exact .text _
  · exact Json.plain_array_map fun s _ => .text s

/-- The four fields are taken out and decoded. -/
lemma ofJson?_of_fields {j address size name bytes : Json} {m : Memory}
    (hvalues : j.fields? (["address", "size", "name", "bytes"].map Json.required) =
      some [address, size, name, bytes])
    (haddress : address.toText? = some m.address) (hsize : size.toUInt32? = some m.size)
    (hname : name.toText? = some m.name) (hbytes : bytes.toList? Json.toText? = some m.bytes) :
    ofJson? j = some m := by
  rw [ofJson?, hvalues]
  simp [haddress, hsize, hname, hbytes]

lemma ofJson?_toJson (m : Memory) : ofJson? m.toJson = some m := by
  have hvalues : m.toJson.fields? (["address", "size", "name", "bytes"].map Json.required) =
      some [.text m.address, .nat m.size.toNat, .text m.name, .array (m.bytes.map .text)] := by
    simp [toJson, Json.fields?, Json.Field.value?, Json.required]
  exact ofJson?_of_fields hvalues rfl (Json.toUInt32?_nat m.size) rfl (Json.toList?_map fun _ _ => rfl)

end Memory

namespace Attributes

lemma plain_members (a : Attributes) : ∀ m ∈ a.members, m.2.Plain := by
  intro m hm
  simp only [members, List.mem_cons, List.not_mem_nil, or_false] at hm
  rcases hm with rfl | rfl | rfl | rfl | rfl | rfl | rfl | rfl
  · exact a.id.plain_toJson
  · exact Json.plain_uint64 a.sinceNew
  · exact .text _
  · exact .text _
  · exact Json.plain_uint64 a.stepped
  · exact Coverage.plain_toJson a.covered
  · exact Json.plain_array_map fun s _ => .text s
  · exact Json.plain_array_map fun memory _ => memory.plain_toJson

lemma ofMembers?_members (a : Attributes) : ofMembers? a.members = some a := by
  have hconstraints : Json.toList? Json.toText? (.array (a.constraints.map .text)) = some a.constraints :=
    Json.toList?_map fun _ _ => rfl
  have hmemory : Json.toList? Memory.ofJson? (.array (a.memory.map Memory.toJson)) = some a.memory :=
    Json.toList?_map fun memory _ => memory.ofJson?_toJson
  simp [ofMembers?, members, value?, Json.toText?, StateId.ofJson?_toJson, Json.toUInt64?_nat,
    Coverage.ofJson?_toJson, hconstraints, hmemory]

/-- Without an id there are no attributes. -/
lemma ofMembers?_nil : ofMembers? [] = none := rfl

lemma keepable_members (room : Nat) (a : Attributes) : ∀ m ∈ a.members, m.2.keepable (room + 3) = true := by
  simp [members, Memory.toJson, Coverage.toJson, StateId.toJson, Json.nat, Json.keepable]

end Attributes

namespace Record

/-- The members that the attributes add to a record. -/
def further (r : Record) : List (String × Json) := r.attributes.elim [] Attributes.members

lemma exists_of_mem_further {r : Record} {m : String × Json} (hm : m ∈ r.further) :
    ∃ a : Attributes, m ∈ a.members := by
  rw [further] at hm
  cases hattributes : r.attributes with
  | none =>
    rw [hattributes] at hm
    cases hm
  | some a =>
    rw [hattributes] at hm
    exact ⟨a, hm⟩

lemma toJson_eq (r : Record) : r.toJson =
    .object (("name", .text r.name) :: ("children", .array (r.children.map .text)) :: r.further) := by
  rw [toJson, further]
  cases r.attributes <;> rfl

lemma plain_toJson (r : Record) : r.toJson.Plain := by
  rw [toJson_eq]
  refine .object fun m hm => ?_
  rcases List.mem_cons.1 hm with rfl | hm
  · exact .text _
  rcases List.mem_cons.1 hm with rfl | hm
  · exact Json.plain_array_map fun s _ => .text s
  obtain ⟨a, ha⟩ := exists_of_mem_further hm
  exact a.plain_members m ha

/-- The further members are those that are not a record's own. -/
lemma filter_members (r : Record) {name children : Json} :
    (("name", name) :: ("children", children) :: r.further).filter
      (fun (key, _) => key ≠ "name" ∧ key ≠ "children") = r.further := by
  rw [further]
  cases r.attributes with
  | none => simp
  | some a => simp [Attributes.members]

lemma ofMembers?_further (r : Record) : Attributes.ofMembers? r.further = r.attributes := by
  rw [further]
  cases r.attributes with
  | none => exact Attributes.ofMembers?_nil
  | some a => exact a.ofMembers?_members

/-- Attributes may be kept aside inside the containers around a record, as long as three more may follow. -/
lemma mayKeep_further {outer : Nat} (h : outer + 3 ≤ Json.maxDepth) (r : Record) :
    r.further.all (fun (_, j) => j.mayKeep outer) = true := by
  obtain ⟨room, hroom⟩ : ∃ room, Json.maxDepth - outer = room + 3 := ⟨Json.maxDepth - outer - 3, by omega⟩
  refine List.all_eq_true.2 fun m hm => ?_
  obtain ⟨a, ha⟩ := exists_of_mem_further hm
  change m.2.mayKeep outer = true
  rw [Json.mayKeep, hroom]
  exact a.keepable_members room m ha

lemma ofJson?_toJson {outer : Nat} (h : outer + 4 ≤ Json.maxDepth) (r : Record) :
    ofJson? outer r.toJson = some r := by
  have hname : (Json.required "name").value?
      (("name", .text r.name) :: ("children", .array (r.children.map .text)) :: r.further) =
      some (.text r.name) := by
    rw [further]
    cases r.attributes <;> simp [Json.Field.value?, Json.required, Attributes.members]
  have hchildren : Attributes.value?
      (("name", .text r.name) :: ("children", .array (r.children.map .text)) :: r.further) "children"
      (Json.toList? Json.toText?) [] = some r.children := by
    have hread : Json.toList? Json.toText? (.array (r.children.map .text)) = some r.children :=
      Json.toList?_map fun _ _ => rfl
    rw [further]
    cases r.attributes <;> simp [Attributes.value?, Attributes.members, hread]
  have hkeep : r.further.all (fun (_, j) => j.mayKeep (outer + 1)) = true := mayKeep_further (by omega) r
  rw [toJson_eq, ofJson?]
  simp only [hname, hchildren, filter_members, hkeep, ofMembers?_further, Option.bind_eq_bind,
    Option.bind_some, Json.toText?, if_true]
  rfl

end Record

/-! ### Snapshots -/

lemma plain_toJson (s : Snapshot) : s.toJson.Plain :=
  Json.plain_array_map fun r _ => r.plain_toJson

lemma toList?_toJson (s : Snapshot) : s.toJson.toList? (Record.ofJson? 1) = some s.records :=
  Json.toList?_map fun r _ => r.ofJson?_toJson (by decide)

lemma ofText?_compact (s : Snapshot) : Json.ofText? s.compact = some s.toJson :=
  Json.read?_compact s.plain_toJson

/-- Whatever its names are, a snapshot is determined by its text on one line. -/
theorem compact_injective : Function.Injective compact := by
  intro s u h
  have hjson : some s.toJson = some u.toJson := by rw [← ofText?_compact s, h, ofText?_compact u]
  have hrecords : some s.records = some u.records := by
    rw [← toList?_toJson s, Option.some.inj hjson, toList?_toJson u]
  exact congrArg Snapshot.mk (Option.some.inj hrecords)

/-- Records of different names make the snapshot that holds them. -/
lemma ofRecords_records {s : Snapshot} (h : s.names.Nodup) : ofRecords s.records = s := by
  have hgrows : empty.Grows s := {
    names := ⟨s.names, rfl, h, fun _ _ hx => by cases hx⟩
    records := fun _ _ hr => by cases hr }
  have hmerge := (merge_spec empty s).1
  rw [hgrows.merge_eq h] at hmerge
  exact hmerge.symm

lemma ofJson?_toJson {s : Snapshot} (h : s.names.Nodup) : ofJson? s.toJson = some s := by
  rw [ofJson?, toList?_toJson, Option.map_some, ofRecords_records h]

/-- The snapshots there are: those made of records, and what inserting and merging makes of them. -/
inductive Built : Snapshot → Prop
  | ofRecords (records : List Record) : Built (ofRecords records)
  | upsert {s : Snapshot} (s_built : Built s) (r : Record) : Built (s.upsert r).1
  | merge {s u : Snapshot} (s_built : Built s) (u_built : Built u) : Built (s.merge u).1

/-- A snapshot can be built just if its names are different. -/
theorem built_iff {s : Snapshot} : s.Built ↔ s.names.Nodup := by
  constructor
  · intro h
    induction h with
    | ofRecords records => exact nodup_names_insertAll (s := empty) List.nodup_nil records
    | upsert _ r ih => exact nodup_names_insert ih r
    | @merge s u _ _ hs hu =>
      rw [(merge_spec s u).1]
      exact nodup_names_insertAll hs u.records
  · intro h
    rw [← ofRecords_records h]
    exact .ofRecords _

/-- A snapshot is read back from its text on one line and from its text on many. -/
theorem ofText?_written {s : Snapshot} (h : s.Built) :
    ofText? s.compact = some s ∧ ofText? s.pretty = some s := by
  have hread := ofJson?_toJson (built_iff.1 h)
  constructor
  · rw [ofText?, compact, Json.ofText?, Json.read?_compact s.plain_toJson, Option.bind_some, hread]
  · rw [ofText?, pretty, Json.ofText?, Json.read?_pretty s.plain_toJson, Option.bind_some, hread]

/-- Two snapshots that are merged, with a child given twice and with texts that have to be escaped. -/
theorem ofText?_written_of_merge :
    let line : SortedSet UInt32 := .ofList [7, 3]
    let memory : Memory := ⟨"0x10", 4, "n", ["read \"n\" 0", "\t"]⟩
    let state : Attributes :=
      ⟨⟨7⟩, 3, "main.c:9", "C:\\main.c:3", 12, .ofList [("main.c", line)], ["n >= 10"], [memory]⟩
    let later := ((ofRecords [.bare "\u0001"]).upsert ⟨"n0g0", ["ν"], some state⟩).1
    let s := ((ofRecords [⟨"n0g0", ["n1g0", "n1g0"], none⟩]).merge later).1
    ofText? s.compact = some s ∧ ofText? s.pretty = some s := by
  intro line memory state later s
  exact ofText?_written (.merge (.ofRecords _) (.upsert (.ofRecords _) _))

end Snapshot

end ForkTree
