import ForkTree.Snapshot.Json
import ForkTree.Sorted.Map

/-!
Snapshots with an index. Beside the records stands the position of each name's record, so that a record
is found without a search, and whether a record changes anything is noticed while its children and its
attributes are taken over. A position behind the last record would be a fault, at which an operation
stops without a result.
-/

namespace ForkTree.Snapshot

/-- Add the children that are not there yet, in order, and tell whether there were any. -/
def pushChildren (known : List String) (changed : Bool) : List String → List String × Bool
  | [] => (known, changed)
  | child :: rest =>
    if child ∈ known then pushChildren known changed rest
    else pushChildren (known ++ [child]) true rest

/-- Take over what another record of the same name brings, and tell whether that changed anything. -/
def Record.update (held r : Record) : Record × Bool :=
  let (children, changed) := pushChildren held.children false r.children
  match r.attributes with
  | none => ({ held with children := children }, changed)
  | some a =>
    if held.attributes = some a then ({ held with children := children }, changed)
    else ({ held with children := children, attributes := some a }, true)

structure Indexed where
  records : List Record
  /-- The position of each name's record. -/
  index : SortedMap String Nat
  deriving DecidableEq, Repr

namespace Indexed

def empty : Indexed := ⟨[], .empty⟩

/-- The snapshot without its index. -/
def plain (s : Indexed) : Snapshot := ⟨s.records⟩

def get? (s : Indexed) (name : String) : Option Record := (s.index.get? name).bind (s.records[·]?)

/-- Insert a record and tell whether that changed anything. -/
def upsert (s : Indexed) (r : Record) : Option (Indexed × Bool) :=
  match s.index.get? r.name with
  | none => some (⟨s.records ++ [r], s.index.insert r.name s.records.length⟩, true)
  | some i => do
    let (updated, changed) := (← s.records[i]?).update r
    return (⟨s.records.set i updated, s.index⟩, changed)

/-- Insert records one after the other, and tell whether one of them changed anything. -/
def upsertAll (s : Indexed) (changed : Bool) : List Record → Option (Indexed × Bool)
  | [] => some (s, changed)
  | r :: rest => do
    let (s, more) ← s.upsert r
    upsertAll s (changed || more) rest

def merge (s other : Indexed) : Option (Indexed × Bool) := s.upsertAll false other.records

def ofRecords (records : List Record) : Option Indexed := (empty.upsertAll false records).map Prod.fst

def ofText? (text : String) : Option Indexed := do
  let j ← Json.ofText? text
  ofRecords (← j.toList? (Record.ofJson? 1))

end Indexed

end ForkTree.Snapshot
