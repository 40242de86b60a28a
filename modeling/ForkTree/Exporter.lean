import ForkTree.Constraint.Infix
import ForkTree.Disk
import ForkTree.Snapshot.Json
import ForkTree.Tree.Walk

/-!
Exports of the live tree. An exporter keeps one snapshot and merges the tree into it at each export,
one record a live node. It notices by the snapshot's digest whether an export changed anything, and
then streams the snapshot if it has a stream.
-/

namespace ForkTree

structure Exporter where
  snapshot : Snapshot
  /-- The digest after the last export; none before the first. -/
  lastDigest : Option Digest
  /-- What was streamed so far, if snapshots are streamed at all. -/
  stream : Option Snapshot.Stream
  /-- The exports since the last reset. The count is not bounded here. -/
  exports : Nat
  deriving Repr

namespace Exporter

def create (streams : Bool) : Exporter := ⟨.empty, none, if streams then some .empty else none, 0⟩

instance : Inhabited Exporter := ⟨create false⟩

def showConstraint (s : String) : String := Constraint.toInfix (Constraint.normalize s)

/-- A memory object as it is shown. The bytes are those below its size, which is a number of 32 bits. -/
def showMemory (m : MemoryObject) : Snapshot.Memory where
  address := m.address
  size := m.size
  name := m.name
  bytes := (List.range m.size.toNat).map fun i => Constraint.normalize (m.byteAt (UInt32.ofNat i))

def attributes (p : PathState) : Snapshot.Attributes where
  id := p.id
  sinceNew := p.sinceNew
  pc := p.pc
  prevPc := p.prevPc
  stepped := p.stepped
  covered := p.covered
  constraints := p.constraints.map showConstraint
  memory := p.memory.map showMemory

def readable? (n : Node) (pool : Pool) (uses : Uses) : Option PathState :=
  ((n.path? pool).filter fun r => uses r ≠ .writing).bind pool.get?

def record (pool : Pool) (uses : Uses) (key : NodeKey) (n : Node) : Snapshot.Record where
  name := key.shown
  children := n.children.map NodeKey.shown
  attributes := (readable? n pool uses).map attributes

/-- The records of the live nodes, in the order in which they are merged. -/
def records (t : Tree) (pool : Pool) (uses : Uses) : List Snapshot.Record :=
  t.preorderRightFirst.map fun (key, n) => record pool uses key n

/-- Forget the snapshot. What was streamed stays. -/
def reset (e : Exporter) : Exporter := { e with snapshot := .empty, lastDigest := none, exports := 0 }

/-- Merge the tree into the snapshot, and tell whether that changed it. -/
def run (hash : Digest.Hash) (e : Exporter) (t : Tree) (pool : Pool) (uses : Uses) :
    Exporter × Bool :=
  let snapshot := (records t pool uses).foldl Snapshot.insert e.snapshot
  let digest := snapshot.digest hash
  let changed := e.lastDigest ≠ some digest
  let stream := if changed then e.stream.map (·.write snapshot) else e.stream
  (⟨snapshot, some digest, stream, e.exports + 1⟩, changed)

/-- Write the snapshot to a file, with the directories above it. -/
def flush (e : Exporter) (path : String) (d : Disk) : Except Disk.Fault Unit × Disk :=
  match d.makeParents path with
  | (.error fault, d) => (.error fault, d)
  | (.ok _, d) =>
    match d.write path (Bytes.ofText e.snapshot.pretty) with
    | .error fault => (.error fault, d)
    | .ok d => (.ok (), d)

end Exporter

end ForkTree
