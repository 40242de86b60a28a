import ForkTree.Ident
import ForkTree.Json.Reader
import ForkTree.Json.Printer
import ForkTree.Kind

/-!
What a log records: the root of the tree, each fork of a leaf into two, and each end of a path. In
JSON a record is an object with its kind under `type`, or an array that starts with its kind. Records
are committed in batches, numbered within a run.
-/

namespace ForkTree.Log

inductive Record where
  | root (id : NodeId)
  | branch (id left right : NodeId) (line : UInt64) (reason : BranchReason)
  | terminate (id : NodeId) (state : Option StateId) (line : UInt64) (kind : TerminationKind)
  deriving DecidableEq, Repr

namespace Record

/-- The node that a record is about. -/
def nodeId : Record → NodeId
  | root id => id
  | branch id .. => id
  | terminate id .. => id

def toJson : Record → Json
  | root id => .object [("type", .text "root"), ("id", id.toJson)]
  | branch id left right line reason =>
    .object [("type", .text "branch"), ("id", id.toJson), ("left", left.toJson),
      ("right", right.toJson), ("source_line", .nat line.toNat), ("reason", reason.toJson)]
  | terminate id state line kind =>
    .object ([("type", .text "terminate"), ("id", id.toJson)] ++
      (match state with
        | some state => [("state", state.toJson)]
        | none => []) ++
      [("source_line", .nat line.toNat), ("kind", kind.toJson)])

/-- The fields of a kind of record. -/
def fields? : String → Option (List Json.Field)
  | "root" => some [Json.required "id"]
  | "branch" => some (["id", "left", "right", "source_line", "reason"].map Json.required)
  | "terminate" =>
    some [Json.required "id", Json.optional "state", Json.required "source_line",
      Json.required "kind"]
  | _ => none

/-- The record of a kind with the given fields. -/
def ofFields? (kind : String) (values : List Json) : Option Record :=
  match kind, values with
  | "root", [id] => do return root (← NodeId.ofJson? id)
  | "branch", [id, left, right, line, reason] => do
    return branch (← NodeId.ofJson? id) (← NodeId.ofJson? left) (← NodeId.ofJson? right)
      (← line.toUInt64?) (← reason.keptSymbol? BranchReason.ofName?)
  | "terminate", [id, state, line, kind] => do
    return terminate (← NodeId.ofJson? id) (← state.toOption? StateId.ofJson?)
      (← line.toUInt64?) (← kind.keptSymbol? TerminationKind.ofName?)
  | _, _ => none

/-- A record's kind, and what is left of the value without it. -/
def splitKind? : Json → Option (String × Json)
  | .array (.text kind :: rest) => some (kind, .array rest)
  | .object members =>
    match members.filter (·.1 = "type") with
    | [(_, .text kind)] => some (kind, .object (members.filter (·.1 ≠ "type")))
    | _ => none
  | _ => none

/-- The record that a value inside `outer` containers writes. Its kind may come last, so the value
is kept aside as a whole. -/
def ofJson? (outer : Nat) (j : Json) : Option Record := do
  if !j.mayKeep outer then none
  let (kind, rest) ← splitKind? j
  ofFields? kind (← rest.fields? (← fields? kind))

end Record

structure Batch where
  run : RunId
  seq : UInt64
  records : List Record
  deriving DecidableEq, Repr

namespace Batch

def toJson (b : Batch) : Json :=
  .object [("run", b.run.toJson), ("seq", .nat b.seq.toNat),
    ("records", .array (b.records.map Record.toJson))]

def ofJson? (j : Json) : Option Batch := do
  match ← j.fields? (["run", "seq", "records"].map Json.required) with
  | [run, seq, records] =>
    return ⟨← RunId.ofJson? run, ← seq.toUInt64?, ← records.toList? (Record.ofJson? 2)⟩
  | _ => none

/-- The payload of a batch. -/
def toBytes (b : Batch) : Bytes := Bytes.ofText b.toJson.compact

def ofBytes? (b : Bytes) : Option Batch := (Json.read? b).bind ofJson?

end Batch

end ForkTree.Log
