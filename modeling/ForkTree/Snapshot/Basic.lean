import ForkTree.Digest.Basic
import ForkTree.Path.State

/-!
Snapshots: what was ever seen of a tree. A snapshot holds one record a name, in the order in which
the names came up. Records are never taken back: inserting one under a known name adds the children
that are new and replaces the attributes only if it brings some. Merging inserts one record after the
other, so loading a list of records and merging snapshots follow the same rule.
-/

namespace ForkTree

namespace Snapshot

/-- A memory object as it was shown. -/
structure Memory where
  address : String
  size : UInt32
  name : String
  bytes : List String
  deriving DecidableEq, Repr

/-- The attributes of the path that a node bookmarked. -/
structure Attributes where
  id : StateId
  sinceNew : UInt64
  pc : String
  prevPc : String
  stepped : UInt64
  covered : Coverage
  constraints : List String
  memory : List Memory
  deriving DecidableEq, Repr

structure Record where
  name : String
  children : List String
  attributes : Option Attributes
  deriving DecidableEq, Repr

/-- A record of nothing but a name. -/
def Record.bare (name : String) : Record := ⟨name, [], none⟩

/-- Add the children that are not there yet, in order. -/
def addChildren (known : List String) (more : List String) : List String :=
  more.foldl (fun known child => if child ∈ known then known else known ++ [child]) known

/-- What a record becomes when another one of its name is inserted. -/
def Record.absorb (r other : Record) : Record where
  name := r.name
  children := addChildren r.children other.children
  attributes := other.attributes <|> r.attributes

end Snapshot

/-- Records in order, each name at most once. -/
structure Snapshot where
  records : List Snapshot.Record
  deriving DecidableEq, Repr

namespace Snapshot

def empty : Snapshot := ⟨[]⟩

instance : Inhabited Snapshot := ⟨empty⟩

def size (s : Snapshot) : Nat := s.records.length

def names (s : Snapshot) : List String := s.records.map Record.name

def get? (s : Snapshot) (name : String) : Option Record := s.records.find? (·.name = name)

/-- Insert a record into a list: at the record of its name, or at the end. -/
def insertRecord (r : Record) : List Record → List Record
  | [] => [r]
  | held :: rest =>
    if held.name = r.name then held.absorb r :: rest else held :: insertRecord r rest

/-- Whether inserting a record changes the record of its name. -/
def changes (r : Record) : List Record → Bool
  | [] => true
  | held :: rest => if held.name = r.name then held.absorb r ≠ held else changes r rest

def insert (s : Snapshot) (r : Record) : Snapshot := ⟨insertRecord r s.records⟩

/-- Insert a record and tell whether that changed anything. -/
def upsert (s : Snapshot) (r : Record) : Snapshot × Bool := (s.insert r, changes r s.records)

/-- Insert records one after the other, and tell whether one of them changed anything. -/
def upsertAll (s : Snapshot) (changed : Bool) (records : List Record) : Snapshot × Bool :=
  records.foldl
    (fun (s, changed) r =>
      let (s, more) := s.upsert r
      (s, changed || more))
    (s, changed)

/-- Insert the records of another snapshot, and tell whether that changed anything. -/
def merge (s other : Snapshot) : Snapshot × Bool := s.upsertAll false other.records

def ofRecords (records : List Record) : Snapshot := records.foldl insert empty

end Snapshot

end ForkTree
