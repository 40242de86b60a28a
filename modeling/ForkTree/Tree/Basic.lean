import ForkTree.Arena
import ForkTree.Tree.Node

/-!
The live tree of an exploration. Its leaves are the paths that are still explored. `attach` turns a
leaf into a fork with a leaf for each of two paths, `remove` takes a leaf away together with every
ancestor that has nothing else below it, and a tree that compresses also elides the ancestor at which
that stops, if a single child is left there.

A call that the tree refuses returns a fault with the tree and the paths as they stand at that point.
-/

namespace ForkTree

structure Tree where
  nodes : Arena Node
  /-- The edge to the root. -/
  root : Edge
  compress : Bool
  /-- New nodes get a note. -/
  recorded : Bool
  /-- The id of the next note. -/
  nextId : UInt64
  masks : Masks
  deriving Repr

namespace Tree

inductive Fault where
  | dead (key : NodeKey)
  | attachToInner (key : NodeKey)
  | removeOfInner (key : NodeKey)
  /-- The right path is not at the leaf. -/
  | foreignRight
  /-- The engine is using a path that has to be read or told where it is. -/
  | busy
  deriving DecidableEq, Repr

def Fault.message : Fault → String
  | .dead key => key.shown ++ " is not a live tree node"
  | .attachToInner key => "attach on internal node " ++ key.shown
  | .removeOfInner key => "remove on internal node " ++ key.shown
  | .foreignRight => "attach assumes the right state is the current state"
  | .busy => "state is borrowed"

/-- What a call leaves behind. -/
structure Outcome (α : Type) where
  result : Except Fault α
  tree : Tree
  pool : Pool

/-- No nodes. -/
def bare (compress recorded : Bool) : Tree := ⟨.empty, .null, compress, recorded, 1, .empty⟩

instance : Inhabited Tree := ⟨bare false false⟩

def node? (t : Tree) (key : NodeKey) : Option Node := t.nodes.get? key

def size (t : Tree) : Nat := t.nodes.size

def modify (t : Tree) (key : NodeKey) (change : Node → Node) : Tree :=
  { t with nodes := t.nodes.modify key change }

def erase (t : Tree) (key : NodeKey) : Tree := { t with nodes := (t.nodes.remove key).2 }

/-- The edge that leads to a node, the root edge for the root. -/
def incoming? (t : Tree) (key : NodeKey) : Option Edge :=
  match t.node? key with
  | none => none
  | some n =>
    match n.parent with
    | some p => (t.node? p).bind fun parent => parent.edgeTo? key
    | none => if t.root.pointsTo key then some t.root else none

def incomingTag (t : Tree) (key : NodeKey) : Mask := ((t.incoming? key).map Edge.tag).getD 0

def modifyIncoming (t : Tree) (key : NodeKey) (change : Edge → Edge) : Tree :=
  match t.node? key with
  | none => t
  | some n =>
    match n.parent with
    | some p => t.modify p fun parent => parent.modifyEdgeTo key change
    | none => if t.root.pointsTo key then { t with root := change t.root } else t

/-- Add a leaf, with a note of the next id in a recorded tree. -/
def insertLeaf (t : Tree) (parent : Option NodeKey) (path : PathRef) : NodeKey × Tree :=
  let note := if t.recorded then some (Note.fresh ⟨t.nextId⟩) else none
  let (key, nodes) := t.nodes.insert (.leaf parent path note)
  (key, { t with nodes, nextId := if t.recorded then t.nextId + 1 else t.nextId })

/-- Add a leaf and tell the path about it, which must not be in use. -/
def addLeaf (t : Tree) (pool : Pool) (uses : Uses) (parent : Option NodeKey) (path : PathRef) :
    Outcome NodeKey :=
  let (key, t) := t.insertLeaf parent path
  match uses path with
  | .idle => ⟨.ok key, t, pool.setNode path (some key)⟩
  | _ => ⟨.error .busy, t, pool⟩

/-- A tree of one leaf. -/
def start (path : PathRef) (compress recorded : Bool) (pool : Pool) : Tree × Pool :=
  let (key, t) := (bare compress recorded).insertLeaf none path
  ({ t with root := .plain key }, pool.setNode path (some key))

/-- What a leaf becomes when it forks: its right child goes on with the bits of its edge. -/
def forked (left right : NodeKey) (tag : Mask) (reason : BranchReason) (line : UInt64) (n : Node) :
    Node :=
  { n with
    left := .plain left
    right := ⟨some right, tag⟩
    note := n.note.map ({ · with reason, line })
    bookmark := none }

/-- Fork a leaf. The path `right` must be the one at the leaf; it continues on the right. -/
def attach (t : Tree) (pool : Pool) (uses : Uses) (key : NodeKey) (left right : PathRef)
    (reason : BranchReason) : Outcome (NodeKey × NodeKey) :=
  match t.node? key with
  | none => ⟨.error (.dead key), t, pool⟩
  | some n =>
    if !n.isLeaf then ⟨.error (.attachToInner key), t, pool⟩
    else if uses right = .writing then ⟨.error .busy, t, pool⟩
    else if (pool.get? right).bind PathState.node ≠ some key then ⟨.error .foreignRight, t, pool⟩
    else
      let tag := t.incomingTag key
      let line := ((pool.get? right).bind PathState.prevLine).getD 0
      match t.addLeaf pool uses (some key) left with
      | ⟨.error fault, t, pool⟩ => ⟨.error fault, t, pool⟩
      | ⟨.ok leftKey, t, pool⟩ =>
        match t.addLeaf pool uses (some key) right with
        | ⟨.error fault, t, pool⟩ => ⟨.error fault, t, pool⟩
        | ⟨.ok rightKey, t, pool⟩ =>
          ⟨.ok (leftKey, rightKey), t.modify key (forked leftKey rightKey tag reason line), pool⟩

/-- Take a node away, and then every ancestor that is left without children. Returns the ancestor that
stays, if any. Each step takes a live node, so `fuel` as large as the tree is enough. -/
def prune : (fuel : Nat) → Tree → NodeKey → Except Fault (Option NodeKey) × Tree
  | 0, t, _ => (.ok none, t)
  | fuel + 1, t, key =>
    let parent := (t.node? key).bind Node.parent
    let t := t.erase key
    match parent with
    | none => (.ok none, { t with root := .null })
    | some p =>
      match t.node? p with
      | none => (.error (.dead p), t)
      | some n =>
        let n := n.modifyEdgeTo key fun _ => .null
        let t := t.modify p fun _ => n
        if n.isLeaf then prune fuel t p else (.ok (some p), t)

/-- Put a node's single child in its place. The child keeps the bits of its own edge. -/
def splice (t : Tree) (key : NodeKey) : Except Fault Unit × Tree :=
  match t.node? key with
  | none => (.ok (), t)
  | some n =>
    if !n.hasSingleChild then (.ok (), t)
    else
      let edge := if n.left.isNull then n.right else n.left
      let t := t.erase key
      match edge.target with
      | none => (.ok (), t)
      | some child =>
        let t := t.modify child ({ · with parent := n.parent })
        match n.parent with
        | none => (.ok (), { t with root := edge })
        | some p =>
          match t.node? p with
          | none => (.error (.dead p), t)
          | some _ => (.ok (), t.modify p fun parent => parent.modifyEdgeTo key fun _ => edge)

/-- The note of a leaf whose path ends, with what is known of the path. -/
def finalNote (note : Option Note) (path : Option PathState) : Option Note :=
  match note, path with
  | some note, some path => some { note with line := path.prevLine.getD 0, state := some path.id }
  | note, _ => note

/-- The paths after the one at a removed leaf was told that it is at no leaf. It is not told if it is
in use, or if it is at another leaf by now. -/
def release (pool : Pool) (uses : Uses) (key : NodeKey) (path : PathRef) : Pool :=
  match pool.get? path with
  | some s => if uses path = .idle ∧ s.node = some key then pool.setNode path none else pool
  | none => pool

/-- Take a leaf away, with every ancestor that has nothing else below it. Returns the leaf's note. -/
def remove (t : Tree) (pool : Pool) (uses : Uses) (key : NodeKey) : Outcome (Option Note) :=
  match t.node? key with
  | none => ⟨.error (.dead key), t, pool⟩
  | some n =>
    if !n.isLeaf then ⟨.error (.removeOfInner key), t, pool⟩
    else
      let path := n.path? pool
      let t := t.modify key ({ · with bookmark := none })
      if n.note.isSome && path.any fun r => uses r = .writing then ⟨.error .busy, t, pool⟩
      else
        let note := finalNote n.note (path.bind pool.get?)
        let pool := match path with
          | some r => release pool uses key r
          | none => pool
        match prune t.size t key with
        | (.error fault, t) => ⟨.error fault, t, pool⟩
        | (.ok none, t) => ⟨.ok note, t, pool⟩
        | (.ok (some survivor), t) =>
          if t.compress then
            match t.splice survivor with
            | (.error fault, t) => ⟨.error fault, t, pool⟩
            | (.ok _, t) => ⟨.ok note, t, pool⟩
          else ⟨.ok note, t, pool⟩

/-- Note why the path at a leaf is about to end. -/
def setKind (t : Tree) (path : PathState) (kind : TerminationKind) : Tree :=
  match path.node with
  | some key => t.modify key fun n => { n with note := n.note.map ({ · with kind }) }
  | none => t

/-- Register a searcher. -/
def claimMask (t : Tree) : Except Masks.Exhausted Mask × Tree :=
  let (result, masks) := t.masks.claim
  (result, { t with masks })

end Tree

end ForkTree
