import ForkTree.Json.Printer
import ForkTree.Json.Reader
import ForkTree.Snapshot.Basic

/-!
Snapshots in JSON: an array of records, each an object with the name, the children and, if there are
attributes, these as further members of the same object. Reading takes the further members for
attributes; if they are none, for whatever reason, the record has no attributes.
-/

namespace ForkTree.Snapshot

namespace Memory

def toJson (m : Memory) : Json :=
  .object [("address", .text m.address), ("size", .nat m.size.toNat), ("name", .text m.name),
    ("bytes", .array (m.bytes.map .text))]

def ofJson? (j : Json) : Option Memory := do
  match ← j.fields? (["address", "size", "name", "bytes"].map Json.required) with
  | [address, size, name, bytes] =>
    return ⟨← address.toText?, ← size.toUInt32?, ← name.toText?, ← bytes.toList? Json.toText?⟩
  | _ => none

end Memory

namespace Attributes

def members (a : Attributes) : List (String × Json) :=
  [("id", a.id.toJson), ("instsSinceCovNew", .nat a.sinceNew.toNat), ("pc", .text a.pc),
    ("prevPC", .text a.prevPc), ("steppedInstructions", .nat a.stepped.toNat),
    ("coveredLines", Coverage.toJson a.covered), ("constraints", .array (a.constraints.map .text)),
    ("memoryObjects", .array (a.memory.map Memory.toJson))]

/-- The value of a member that is given at most once, or else the default. -/
def value? {α : Type} (members : List (String × Json)) (name : String) (decode : Json → Option α)
    (default : α) : Option α :=
  match members.filter (·.1 = name) with
  | [] => some default
  | [(_, j)] => decode j
  | _ => none

/-- Attributes out of the members of a record. All but the id may be left out. -/
def ofMembers? (members : List (String × Json)) : Option Attributes := do
  let id ← value? members "id" (fun j => (StateId.ofJson? j).map some) none
  return {
    id := ← id
    sinceNew := ← value? members "instsSinceCovNew" Json.toUInt64? 0
    pc := ← value? members "pc" Json.toText? ""
    prevPc := ← value? members "prevPC" Json.toText? ""
    stepped := ← value? members "steppedInstructions" Json.toUInt64? 0
    covered := ← value? members "coveredLines" Coverage.ofJson? .empty
    constraints := ← value? members "constraints" (Json.toList? Json.toText?) []
    memory := ← value? members "memoryObjects" (Json.toList? Memory.ofJson?) [] }

end Attributes

namespace Record

def toJson (r : Record) : Json :=
  .object ([("name", .text r.name), ("children", .array (r.children.map .text))] ++
    (match r.attributes with
    | some a => a.members
    | none => []))

/-- A record inside `outer` containers. Members other than the name and the children are kept aside
before they are tried as attributes. -/
def ofJson? (outer : Nat) (j : Json) : Option Record := do
  match j with
  | .object members =>
    let name ← (← (Json.required "name").value? members).toText?
    let children ← Attributes.value? members "children" (Json.toList? Json.toText?) []
    let more := members.filter fun (key, _) => key ≠ "name" ∧ key ≠ "children"
    if more.all fun (_, j) => j.mayKeep (outer + 1) then
      return ⟨name, children, Attributes.ofMembers? more⟩
    else none
  | _ => none

end Record

def toJson (s : Snapshot) : Json := .array (s.records.map Record.toJson)

/-- The text on one line. -/
def compact (s : Snapshot) : String := s.toJson.compact

def pretty (s : Snapshot) : String := s.toJson.pretty

def ofJson? (j : Json) : Option Snapshot :=
  (j.toList? (Record.ofJson? 1)).map ofRecords

def ofText? (text : String) : Option Snapshot := (Json.ofText? text).bind ofJson?

def digest (hash : Digest.Hash) (s : Snapshot) : Digest := hash (Bytes.ofText s.compact)

/-- Texts of snapshots, one a line. -/
structure Stream where
  text : String
  /-- The number of lines, which is not bounded here. -/
  lines : Nat
  deriving DecidableEq, Repr

namespace Stream

def empty : Stream := ⟨"", 0⟩

def write (t : Stream) (s : Snapshot) : Stream := ⟨t.text ++ s.compact ++ "\n", t.lines + 1⟩

end Stream

end ForkTree.Snapshot
