import ForkTree.Log.Record
import ForkTree.Proofs.JsonRoundTrip

/-!
A batch is read back from its bytes (`ofBytes?_toBytes`). The value of a batch is plain, since all that
a batch holds is numbers of at most 64 bits and texts, so its text is read as that value; what remains
is that each decoder undoes its encoder.
-/

namespace ForkTree

namespace Json

lemma plain_nat {n : Nat} (h : n < UInt64.size) : Plain (.nat n) := by
  refine .int ?_ ?_
  · omega
  · exact_mod_cast h

lemma plain_uint64 (n : UInt64) : Plain (.nat n.toNat) := plain_nat n.toNat_lt_size

lemma plain_uint32 (n : UInt32) : Plain (.nat n.toNat) :=
  plain_nat (Nat.lt_trans n.toNat_lt_size (by decide))

lemma toNat?_nat {n bound : Nat} (h : n < bound) : toNat? bound (.nat n) = some n := by
  have hn : (0 : Int) ≤ n ∧ (n : Int) < bound := ⟨Int.natCast_nonneg n, by exact_mod_cast h⟩
  rw [nat, toNat?, if_pos hn, Int.toNat_natCast]

lemma toUInt64?_nat (n : UInt64) : toUInt64? (.nat n.toNat) = some n := by
  rw [toUInt64?, toNat?_nat n.toNat_lt_size, Option.map_some, UInt64.ofNat_toNat]

lemma toUInt32?_nat (n : UInt32) : toUInt32? (.nat n.toNat) = some n := by
  rw [toUInt32?, toNat?_nat n.toNat_lt_size, Option.map_some, UInt32.ofNat_toNat]

lemma plain_array_map {α : Type} {encode : α → Json} {l : List α} (h : ∀ a ∈ l, (encode a).Plain) :
    Plain (.array (l.map encode)) := by
  refine .array fun j hj => ?_
  obtain ⟨a, ha, rfl⟩ := List.mem_map.1 hj
  exact h a ha

/-- A list is read back if each of its elements is. -/
lemma toList?_map {α : Type} {encode : α → Json} {decode : Json → Option α} {l : List α}
    (h : ∀ a ∈ l, decode (encode a) = some a) : toList? decode (.array (l.map encode)) = some l := by
  rw [toList?, mapM_map_eq_some h, List.map_id']

lemma toMembers?_map {α β : Type} (encode : α → Json) (value : α → β) {decode : Json → Option β}
    {l : List (String × α)} (h : ∀ m ∈ l, decode (encode m.2) = some (value m.2)) :
    toMembers? decode (.object (l.map fun m => (m.1, encode m.2))) =
      some (l.map fun m => (m.1, value m.2)) := by
  rw [toMembers?]
  refine mapM_map_eq_some fun m hm => ?_
  simp only [h m hm, Option.map_some]

end Json

namespace NodeId

lemma plain_toJson (id : NodeId) : id.toJson.Plain := Json.plain_uint64 id.val

lemma ofJson?_toJson (id : NodeId) : ofJson? id.toJson = some id := by
  rw [ofJson?, toJson, Json.toUInt64?_nat, Option.map_some]

end NodeId

namespace StateId

lemma plain_toJson (id : StateId) : id.toJson.Plain := Json.plain_uint32 id.val

lemma ofJson?_toJson (id : StateId) : ofJson? id.toJson = some id := by
  rw [ofJson?, toJson, Json.toUInt32?_nat, Option.map_some]

end StateId

namespace Text.Hex

/-- The digits of bytes, two each. -/
def digits (b : Bytes) : List Char := b.flatMap fun x => [digit (x.toNat / 16), digit (x.toNat % 16)]

lemma toList_encode (b : Bytes) : (encode b).toList = digits b := by
  rw [encode, String.toList_ofList, digits]

lemma length_digits (b : Bytes) : (digits b).length = 2 * b.length := by
  induction b with
  | nil => rfl
  | cons x b ih =>
    rw [digits, List.flatMap_cons, List.length_append]
    change 2 + (digits b).length = 2 * (b.length + 1)
    omega

lemma decodeChars?_digits (b : Bytes) : decodeChars? (digits b) = some b := by
  induction b with
  | nil => rfl
  | cons x b ih =>
    have hx : x.toNat < 256 := x.toNat_lt
    have hbyte : UInt8.ofNat (16 * (x.toNat / 16) + x.toNat % 16) = x := by
      rw [Nat.div_add_mod, UInt8.ofNat_toNat]
    rw [digits, List.flatMap_cons]
    change decodeChars? (digit (x.toNat / 16) :: digit (x.toNat % 16) :: digits b) = _
    rw [decodeChars?, digitValue?_digit _ (by omega), digitValue?_digit _ (by omega), ih]
    simp only [Option.bind_eq_bind, Option.bind_some, Option.pure_def, hbyte]

end Text.Hex

namespace RunId

lemma plain_toJson (run : RunId) : run.toJson.Plain := .text _

/-- Five groups of digits with hyphens between them. -/
lemma ofHyphenated?_groups {a b c d e : List Char} (ha : a.length = 8) (hb : b.length = 4)
    (hc : c.length = 4) (hd : d.length = 4) (he : e.length = 12) :
    ofHyphenated? (a ++ '-' :: (b ++ '-' :: (c ++ '-' :: (d ++ '-' :: e)))) =
      ofDigits? (a ++ (b ++ (c ++ (d ++ e)))) := by
  have hpast : ∀ (l : List Char) (n : Nat), l.length ≤ n → l.drop n = [] := fun _ _ h =>
    List.drop_eq_nil_of_le h
  have hpast_a := fun n => hpast a n
  have hpast_b := fun n => hpast b n
  have hpast_c := fun n => hpast c n
  have hpast_d := fun n => hpast d n
  rw [ha] at hpast_a
  rw [hb] at hpast_b
  rw [hc] at hpast_c
  rw [hd] at hpast_d
  simp [ofHyphenated?, List.getElem?_append, List.drop_append, ha, hb, hc, hd, he,
    hpast_a, hpast_b, hpast_c, hpast_d]

lemma slice_append_drop (b : Bytes) (start len : Nat) :
    Bytes.slice b start len ++ b.drop (start + len) = b.drop start := by
  rw [Bytes.slice, ← List.drop_drop, List.take_append_drop]

lemma length_group (run : RunId) {start len : Nat} (h : start + len ≤ 16) :
    (Text.Hex.digits (Bytes.slice run.bytes start len)).length = 2 * len := by
  have hlen := run.length_eq
  rw [Text.Hex.length_digits, Bytes.slice, List.length_take, List.length_drop, hlen]
  omega

lemma toList_shown (run : RunId) :
    run.shown.toList =
      Text.Hex.digits (Bytes.slice run.bytes 0 4) ++ '-' ::
        (Text.Hex.digits (Bytes.slice run.bytes 4 2) ++ '-' ::
          (Text.Hex.digits (Bytes.slice run.bytes 6 2) ++ '-' ::
            (Text.Hex.digits (Bytes.slice run.bytes 8 2) ++ '-' ::
              Text.Hex.digits (Bytes.slice run.bytes 10 6)))) := by
  simp [shown, Text.Hex.toList_encode]

lemma length_toList_shown (run : RunId) : run.shown.toList.length = 36 := by
  rw [toList_shown]
  simp [length_group]

lemma ofText?_shown (run : RunId) : ofText? run.shown = some run := by
  have hlen := run.length_eq
  have hwhole : Bytes.slice run.bytes 0 4 ++ (Bytes.slice run.bytes 4 2 ++
      (Bytes.slice run.bytes 6 2 ++ (Bytes.slice run.bytes 8 2 ++ Bytes.slice run.bytes 10 6))) =
      run.bytes := by
    have hlast : Bytes.slice run.bytes 10 6 = run.bytes.drop 10 := by
      rw [Bytes.slice, List.take_of_length_le]
      rw [List.length_drop, hlen]
    rw [hlast, slice_append_drop run.bytes 8 2, slice_append_drop run.bytes 6 2,
      slice_append_drop run.bytes 4 2, slice_append_drop run.bytes 0 4, List.drop_zero]
  have hdigits : ∀ x y, Text.Hex.digits (x ++ y) = Text.Hex.digits x ++ Text.Hex.digits y := fun x y => by
    rw [Text.Hex.digits, List.flatMap_append, Text.Hex.digits, Text.Hex.digits]
  unfold ofText?
  simp only [run.length_toList_shown]
  rw [if_neg (by decide), if_pos trivial, toList_shown,
    ofHyphenated?_groups (run.length_group (by decide)) (run.length_group (by decide))
      (run.length_group (by decide)) (run.length_group (by decide)) (run.length_group (by decide)),
    ← hdigits, ← hdigits, ← hdigits, ← hdigits, hwhole, ofDigits?, Text.Hex.decodeChars?_digits,
    Option.bind_some, ofBytes?, dif_pos hlen]

lemma ofJson?_toJson (run : RunId) : ofJson? run.toJson = some run := by
  rw [ofJson?, toJson, Json.toText?, Option.bind_some, ofText?_shown]

end RunId

namespace BranchReason

lemma plain_toJson (reason : BranchReason) : reason.toJson.Plain := .text _

lemma keptSymbol?_toJson (reason : BranchReason) :
    reason.toJson.keptSymbol? ofName? = some reason := ofName?_name reason

end BranchReason

namespace TerminationKind

lemma plain_toJson (kind : TerminationKind) : kind.toJson.Plain := .text _

lemma keptSymbol?_toJson (kind : TerminationKind) :
    kind.toJson.keptSymbol? ofName? = some kind := ofName?_name kind

end TerminationKind

/-! ### Records -/

namespace Log

namespace Record

lemma plain_toJson (r : Record) : r.toJson.Plain := by
  cases r with
  | root id =>
    refine .object fun m hm => ?_
    simp only [List.mem_cons, List.not_mem_nil, or_false] at hm
    rcases hm with rfl | rfl
    · exact .text _
    · exact id.plain_toJson
  | branch id left right line reason =>
    refine .object fun m hm => ?_
    simp only [List.mem_cons, List.not_mem_nil, or_false] at hm
    rcases hm with rfl | rfl | rfl | rfl | rfl | rfl
    · exact .text _
    · exact id.plain_toJson
    · exact left.plain_toJson
    · exact right.plain_toJson
    · exact Json.plain_uint64 line
    · exact reason.plain_toJson
  | terminate id state line kind =>
    refine .object fun m hm => ?_
    simp only [List.mem_append, List.mem_cons, List.not_mem_nil, or_false] at hm
    rcases hm with ((rfl | rfl) | hm) | rfl | rfl
    · exact .text _
    · exact id.plain_toJson
    · cases state with
      | none => cases hm
      | some state =>
        rw [List.mem_singleton.1 hm]
        exact state.plain_toJson
    · exact Json.plain_uint64 line
    · exact kind.plain_toJson

/-- A record holds nothing but numbers and texts. -/
lemma keepable_toJson (room : Nat) (r : Record) : r.toJson.keepable (room + 1) = true := by
  cases r with
  | root id => simp [toJson, NodeId.toJson, Json.nat, Json.keepable]
  | branch id left right line reason =>
    simp [toJson, NodeId.toJson, BranchReason.toJson, Json.nat, Json.keepable]
  | terminate id state line kind =>
    cases state <;>
      simp [toJson, NodeId.toJson, StateId.toJson, TerminationKind.toJson, Json.nat, Json.keepable]

lemma mayKeep_toJson {outer : Nat} (h : outer < Json.maxDepth) (r : Record) :
    r.toJson.mayKeep outer = true := by
  obtain ⟨room, hroom⟩ : ∃ room, Json.maxDepth - outer = room + 1 :=
    ⟨Json.maxDepth - outer - 1, by omega⟩
  rw [Json.mayKeep, hroom]
  exact r.keepable_toJson room

/-- A value that may be kept aside is split, its fields are taken out, and these are decoded. -/
lemma ofJson?_eq {outer : Nat} {j rest : Json} {kind : String} {fields : List Json.Field}
    {values : List Json} (hkeep : j.mayKeep outer = true) (hsplit : splitKind? j = some (kind, rest))
    (hfields : fields? kind = some fields) (hvalues : rest.fields? fields = some values) :
    ofJson? outer j = ofFields? kind values := by
  rw [ofJson?, hkeep]
  simp only [Bool.not_true, Bool.false_eq_true, if_false, hsplit, hfields, hvalues,
    Option.bind_eq_bind, Option.bind_some]

/-- A record is read back inside fewer containers than are allowed. -/
theorem ofJson?_toJson {outer : Nat} (h : outer < Json.maxDepth) (r : Record) :
    ofJson? outer r.toJson = some r := by
  have hkeep := mayKeep_toJson h r
  cases r with
  | root id =>
    have hsplit : splitKind? (root id).toJson = some ("root", .object [("id", id.toJson)]) := by
      simp [toJson, splitKind?]
    have hvalues : Json.fields? [Json.required "id"] (.object [("id", id.toJson)]) =
        some [id.toJson] := by
      simp [Json.fields?, Json.Field.value?, Json.required]
    rw [ofJson?_eq hkeep hsplit rfl hvalues, ofFields?, id.ofJson?_toJson]
    rfl
  | branch id left right line reason =>
    have hsplit : splitKind? (branch id left right line reason).toJson =
        some ("branch", .object [("id", id.toJson), ("left", left.toJson), ("right", right.toJson),
          ("source_line", .nat line.toNat), ("reason", reason.toJson)]) := by
      simp [toJson, splitKind?]
    have hvalues : Json.fields? (["id", "left", "right", "source_line", "reason"].map Json.required)
        (.object [("id", id.toJson), ("left", left.toJson), ("right", right.toJson),
          ("source_line", .nat line.toNat), ("reason", reason.toJson)]) =
        some [id.toJson, left.toJson, right.toJson, .nat line.toNat, reason.toJson] := by
      simp [Json.fields?, Json.Field.value?, Json.required]
    rw [ofJson?_eq hkeep hsplit rfl hvalues, ofFields?, id.ofJson?_toJson, left.ofJson?_toJson,
      right.ofJson?_toJson, Json.toUInt64?_nat, reason.keptSymbol?_toJson]
    rfl
  | terminate id state line kind =>
    have hvalues : ∃ rest value, splitKind? (terminate id state line kind).toJson =
          some ("terminate", rest) ∧
        rest.fields? [Json.required "id", Json.optional "state", Json.required "source_line",
          Json.required "kind"] =
          some [id.toJson, value, .nat line.toNat, kind.toJson] ∧
        value.toOption? StateId.ofJson? = some state := by
      cases state with
      | none =>
        refine ⟨.object [("id", id.toJson), ("source_line", .nat line.toNat), ("kind", kind.toJson)],
          .null, ?_, ?_, rfl⟩
        · simp [toJson, splitKind?]
        · simp [Json.fields?, Json.Field.value?, Json.required, Json.optional]
      | some state =>
        refine ⟨.object [("id", id.toJson), ("state", state.toJson),
          ("source_line", .nat line.toNat), ("kind", kind.toJson)], state.toJson, ?_, ?_, ?_⟩
        · simp [toJson, splitKind?]
        · simp [Json.fields?, Json.Field.value?, Json.required, Json.optional]
        · have hread := state.ofJson?_toJson
          rw [StateId.toJson, Json.nat] at hread ⊢
          rw [Json.toOption?, hread, Option.map_some]
          intro e
          cases e
    obtain ⟨rest, value, hsplit, hvalues, hstate⟩ := hvalues
    rw [ofJson?_eq hkeep hsplit rfl hvalues, ofFields?, id.ofJson?_toJson, hstate,
      Json.toUInt64?_nat, kind.keptSymbol?_toJson]
    rfl

end Record

namespace Batch

lemma plain_toJson (b : Batch) : b.toJson.Plain := by
  refine .object fun m hm => ?_
  simp only [List.mem_cons, List.not_mem_nil, or_false] at hm
  rcases hm with rfl | rfl | rfl
  · exact b.run.plain_toJson
  · exact Json.plain_uint64 b.seq
  · exact Json.plain_array_map fun r _ => r.plain_toJson

lemma ofJson?_toJson (b : Batch) : ofJson? b.toJson = some b := by
  have hrecords : Json.toList? (Record.ofJson? 2) (.array (b.records.map Record.toJson)) = some b.records :=
    Json.toList?_map fun r _ => r.ofJson?_toJson (by decide)
  simp [ofJson?, toJson, Json.fields?, Json.Field.value?, Json.required, hrecords,
    RunId.ofJson?_toJson, Json.toUInt64?_nat]

theorem ofBytes?_toBytes (b : Batch) : ofBytes? b.toBytes = some b := by
  rw [ofBytes?, toBytes, Json.read?_compact b.plain_toJson, Option.bind_some, ofJson?_toJson]

end Batch

end Log

end ForkTree
