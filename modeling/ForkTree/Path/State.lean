import ForkTree.Ident
import ForkTree.Json.Decode
import ForkTree.Sorted.Map
import ForkTree.Sorted.Set

/-!
The state of one path under exploration, as far as the tree and its pictures need it: where the path
is in the program, what constrains it, what it covered, and the leaf of the tree it is at.
-/

namespace ForkTree

/-- A memory object with one expression a byte. -/
structure MemoryObject where
  name : String
  address : String
  bytes : List String
  deriving DecidableEq, Repr, Inhabited

namespace MemoryObject

def size (m : MemoryObject) : UInt32 := UInt32.ofNat m.bytes.length

/-- The expression of a byte, empty past the end. -/
def byteAt (m : MemoryObject) (offset : UInt32) : String := m.bytes.getD offset.toNat ""

def toJson (m : MemoryObject) : Json :=
  .object [("name", .text m.name), ("base_address", .text m.address),
    ("bytes", .array (m.bytes.map .text))]

def ofJson? (j : Json) : Option MemoryObject := do
  match ← j.fields? (["name", "base_address", "bytes"].map Json.required) with
  | [name, address, bytes] =>
    return ⟨← name.toText?, ← address.toText?, ← bytes.toList? Json.toText?⟩
  | _ => none

end MemoryObject

/-- Covered lines by source file. -/
abbrev Coverage := SortedMap String (SortedSet UInt32)

namespace Coverage

def toJson (c : Coverage) : Json :=
  .object (c.entries.map fun (file, lines) =>
    (file, .array (lines.items.map fun line => .nat line.toNat)))

/-- Of a file that is given twice the last lines count. -/
def ofJson? (j : Json) : Option Coverage :=
  (j.toMembers? (Json.toList? Json.toUInt32?)).map fun members =>
    SortedMap.ofList (members.map fun (file, lines) => (file, SortedSet.ofList lines))

end Coverage

structure PathState where
  id : StateId
  /-- The leaf that bookmarks the path. -/
  node : Option NodeKey
  /-- The place of the next instruction. -/
  pc : String
  /-- The place of the last instruction. -/
  prevPc : String
  /-- The assembly line of the last instruction, if it is known. -/
  prevLine : Option UInt64
  /-- Instructions since the path last covered something new. -/
  sinceNew : UInt64
  stepped : UInt64
  /-- The constraints in prefix form. -/
  constraints : List String
  covered : Coverage
  memory : List MemoryObject
  deriving DecidableEq, Repr

namespace PathState

def fresh (id : StateId) : PathState := ⟨id, none, "", "", none, 0, 0, [], .empty, []⟩

instance : Inhabited PathState := ⟨fresh ⟨0⟩⟩

/-- The copy that continues under an id of its own, at no leaf. -/
def fork (p : PathState) (id : StateId) : PathState := { p with id, node := none }

def fields : List Json.Field :=
  [Json.required "id", Json.required "pc", Json.required "prev_pc", Json.optional "prev_pc_line",
    Json.required "insts_since_cov_new", Json.required "stepped_instructions",
    Json.required "constraints", Json.required "covered_lines", Json.required "memory"]

/-- The leaf is no part of the JSON form. -/
def toJson (p : PathState) : Json :=
  .object [("id", p.id.toJson), ("pc", .text p.pc), ("prev_pc", .text p.prevPc),
    ("prev_pc_line", .option (fun line => .nat line.toNat) p.prevLine),
    ("insts_since_cov_new", .nat p.sinceNew.toNat), ("stepped_instructions", .nat p.stepped.toNat),
    ("constraints", .array (p.constraints.map .text)), ("covered_lines", Coverage.toJson p.covered),
    ("memory", .array (p.memory.map MemoryObject.toJson))]

def ofJson? (j : Json) : Option PathState := do
  match ← j.fields? fields with
  | [id, pc, prevPc, prevLine, sinceNew, stepped, constraints, covered, memory] =>
    return {
      id := ← StateId.ofJson? id
      node := none
      pc := ← pc.toText?
      prevPc := ← prevPc.toText?
      prevLine := ← prevLine.toOption? Json.toUInt64?
      sinceNew := ← sinceNew.toUInt64?
      stepped := ← stepped.toUInt64?
      constraints := ← constraints.toList? Json.toText?
      covered := ← Coverage.ofJson? covered
      memory := ← memory.toList? MemoryObject.ofJson? }
  | _ => none

end PathState

end ForkTree
