import ForkTree.Exporter
import ForkTree.Tree.Recorded

/-!
What an engine reports its forks to, in one of three forms that the configuration selects: nothing is
kept at all, a live tree is kept, or a live tree is kept and recorded. All take the same calls.
-/

namespace ForkTree

inductive Tracker where
  /-- Nothing is kept but the searchers' bits. -/
  | idle (masks : Masks)
  | live (tree : Tree)
  | recorded (tree : Recorded)
  deriving Repr

namespace Tracker

variable {σ : Type}

/-- What a call leaves behind. -/
structure Outcome (σ : Type) where
  result : Except Tree.Fault Unit
  tracker : Tracker
  pool : Pool
  storage : σ

/-- The form that a configuration selects; without recording, whether a tree is kept is up to the
caller. -/
def create (hash : Digest.Hash) (storage : Storage σ) (config : Config) (inMemory : Bool)
    (run : RunId) (path : PathRef) (pool : Pool) (s : σ) : Tracker × Pool × σ :=
  if config.persist then
    let (t, pool, s) := Recorded.openLog hash storage config run path pool s
    (.recorded t, pool, s)
  else if inMemory then
    let (t, pool) := Tree.start path config.compress false pool
    (.live t, pool, s)
  else (.idle .empty, pool, s)

/-- The live tree, if one is kept. -/
def tree? : Tracker → Option Tree
  | idle _ => none
  | live t => some t
  | recorded t => some t.tree

/-- Change the live tree, if one is kept. -/
def modifyTree (change : Tree → Tree) : Tracker → Tracker
  | idle masks => idle masks
  | live t => live (change t)
  | recorded t => recorded { t with tree := change t.tree }

def attach (hash : Digest.Hash) (storage : Storage σ) (t : Tracker) (pool : Pool) (uses : Uses)
    (key : NodeKey) (left right : PathRef) (reason : BranchReason) (s : σ) : Outcome σ :=
  match t with
  | idle masks => ⟨.ok (), idle masks, pool, s⟩
  | live t =>
    let ⟨result, t, pool⟩ := t.attach pool uses key left right reason
    ⟨result.map fun _ => (), live t, pool, s⟩
  | recorded t =>
    let ⟨result, t, pool, s⟩ := t.attach hash storage pool uses key left right reason s
    ⟨result, recorded t, pool, s⟩

def remove (hash : Digest.Hash) (storage : Storage σ) (t : Tracker) (pool : Pool) (uses : Uses)
    (key : NodeKey) (s : σ) : Outcome σ :=
  match t with
  | idle masks => ⟨.ok (), idle masks, pool, s⟩
  | live t =>
    let ⟨result, t, pool⟩ := t.remove pool uses key
    ⟨result.map fun _ => (), live t, pool, s⟩
  | recorded t =>
    let ⟨result, t, pool, s⟩ := t.remove hash storage pool uses key s
    ⟨result, recorded t, pool, s⟩

/-- Hand the live tree to an exporter; what is recorded is committed first. -/
def dump (hash : Digest.Hash) (storage : Storage σ) (t : Tracker) (pool : Pool) (uses : Uses)
    (e : Exporter) (s : σ) : Tracker × Exporter × σ :=
  match t with
  | idle masks => (idle masks, e, s)
  | live t => (live t, (e.run hash t pool uses).1, s)
  | recorded t =>
    let (t, s) := t.commit hash storage s
    (recorded t, (e.run hash t.tree pool uses).1, s)

/-- Register a searcher. -/
def claimMask : Tracker → Except Masks.Exhausted Mask × Tracker
  | idle masks =>
    let (result, masks) := masks.claim
    (result, idle masks)
  | live t =>
    let (result, t) := t.claimMask
    (result, live t)
  | recorded t =>
    let (result, tree) := t.tree.claimMask
    (result, recorded { t with tree })

def setKind (t : Tracker) (path : PathState) (kind : TerminationKind) : Tracker :=
  t.modifyTree (·.setKind path kind)

/-- Give the tree up; a log is closed. -/
def close (hash : Digest.Hash) (storage : Storage σ) (t : Tracker) (s : σ) : σ :=
  match t with
  | recorded t => t.close hash storage s
  | _ => s

end Tracker

end ForkTree
