import ForkTree.Config
import ForkTree.Log.Writer
import ForkTree.Tree.Basic

/-!
A live tree whose forks and ends are recorded in a log. The tree itself behaves as one that is not
recorded; records are handed to a writer after each call that succeeded, and what goes wrong with the
log stays without consequence for the tree.
-/

namespace ForkTree

structure Recorded where
  tree : Tree
  /-- The open log; none if it could not be opened. -/
  writer : Option Log.Writer
  deriving Repr

namespace Recorded

variable {σ : Type}

/-- What a call leaves behind. -/
structure Outcome (σ : Type) where
  result : Except Tree.Fault Unit
  recorded : Recorded
  pool : Pool
  storage : σ

/-- Hand a record to the writer, if there is one. -/
def log (hash : Digest.Hash) (storage : Storage σ) (record : Log.Record) (t : Recorded) (s : σ) :
    Recorded × σ :=
  match t.writer with
  | none => (t, s)
  | some w =>
    let (_, w, s) := w.write hash storage record s
    ({ t with writer := some w }, s)

def logAll (hash : Digest.Hash) (storage : Storage σ) (records : Option Log.Record) (t : Recorded)
    (s : σ) : Recorded × σ :=
  match records with
  | some record => t.log hash storage record s
  | none => (t, s)

def noteOf? (t : Tree) (key : NodeKey) : Option Note := (t.node? key).bind Node.note

def rootRecord? (t : Tree) : Option Log.Record :=
  (t.root.target.bind (noteOf? t)).map fun note => .root note.id

def branchRecord? (t : Tree) (key left right : NodeKey) : Option Log.Record := do
  let note ← noteOf? t key
  let left ← noteOf? t left
  let right ← noteOf? t right
  return .branch note.id left.id right.id note.line note.reason

def endRecord (note : Note) : Log.Record := .terminate note.id note.state note.line note.kind

/-- A tree of one leaf whose root is recorded. -/
def start (hash : Digest.Hash) (storage : Storage σ) (path : PathRef) (compress : Bool)
    (writer : Option Log.Writer) (pool : Pool) (s : σ) : Recorded × Pool × σ :=
  let (tree, pool) := Tree.start path compress true pool
  let (t, s) := logAll hash storage (rootRecord? tree) ⟨tree, writer⟩ s
  (t, pool, s)

/-- Open the configured log and start a tree on it. -/
def openLog (hash : Digest.Hash) (storage : Storage σ) (config : Config) (run : RunId)
    (path : PathRef) (pool : Pool) (s : σ) : Recorded × Pool × σ :=
  let (writer, s) := match Log.Codec.ofName? config.compression with
    | none => (none, s)
    | some codec =>
      match Log.Writer.create storage config.logPath codec config.batchSize run s with
      | (.ok w, s) => (some w, s)
      | (.error _, s) => (none, s)
  start hash storage path config.compress writer pool s

def attach (hash : Digest.Hash) (storage : Storage σ) (t : Recorded) (pool : Pool) (uses : Uses)
    (key : NodeKey) (left right : PathRef) (reason : BranchReason) (s : σ) : Outcome σ :=
  match t.tree.attach pool uses key left right reason with
  | ⟨.error fault, tree, pool⟩ => ⟨.error fault, { t with tree }, pool, s⟩
  | ⟨.ok (leftKey, rightKey), tree, pool⟩ =>
    let (t, s) := logAll hash storage (branchRecord? tree key leftKey rightKey) { t with tree } s
    ⟨.ok (), t, pool, s⟩

def remove (hash : Digest.Hash) (storage : Storage σ) (t : Recorded) (pool : Pool) (uses : Uses)
    (key : NodeKey) (s : σ) : Outcome σ :=
  match t.tree.remove pool uses key with
  | ⟨.error fault, tree, pool⟩ => ⟨.error fault, { t with tree }, pool, s⟩
  | ⟨.ok note, tree, pool⟩ =>
    let (t, s) := logAll hash storage (note.map endRecord) { t with tree } s
    ⟨.ok (), t, pool, s⟩

/-- Commit what is waiting to be written. -/
def commit (hash : Digest.Hash) (storage : Storage σ) (t : Recorded) (s : σ) : Recorded × σ :=
  match t.writer with
  | none => (t, s)
  | some w =>
    let (_, w, s) := w.commit hash storage true s
    ({ t with writer := some w }, s)

def close (hash : Digest.Hash) (storage : Storage σ) (t : Recorded) (s : σ) : σ :=
  match t.writer with
  | none => s
  | some w => w.close hash storage s

end Recorded

end ForkTree
