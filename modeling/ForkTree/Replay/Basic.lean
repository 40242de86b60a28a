import ForkTree.Log.Record

/-!
The whole tree of a run, rebuilt from its records. Unlike the live tree it never loses a node: a
node that ended, or all of whose paths ended, is still there. Each record must fit the tree that the
records before it built, and `ofRecords?` stops at the first one that does not.
-/

namespace ForkTree.Replay

open Log (Record)

/-- How the path at a leaf ended. -/
structure Termination where
  state : Option StateId
  kind : TerminationKind
  line : UInt64
  deriving DecidableEq, Repr

structure Node where
  id : NodeId
  parent : Option NodeId
  /-- The left and the right child of a node that forked. -/
  children : Option (NodeId × NodeId)
  reason : Option BranchReason
  line : Option UInt64
  termination : Option Termination
  deriving DecidableEq, Repr

namespace Node

def fresh (id : NodeId) (parent : Option NodeId) : Node := ⟨id, parent, none, none, none, none⟩

def isLeaf (n : Node) : Bool := n.children.isNone

/-- A leaf whose path goes on. -/
def isOpen (n : Node) : Bool := n.isLeaf && n.termination.isNone

end Node

structure Tree where
  root : Option NodeId
  /-- Nodes by their ids. -/
  nodes : SortedMap NodeId Node
  deriving DecidableEq, Repr

inductive Misfit where
  | secondRoot (id first : NodeId)
  | reusedChild (id : NodeId)
  | unknownBranch (id : NodeId)
  | branchOfInner (id : NodeId)
  | unknownEnd (id : NodeId)
  | endOfInner (id : NodeId)
  deriving DecidableEq, Repr

def Misfit.message : Misfit → String
  | .secondRoot id first =>
    "second root " ++ Text.decimal id.val.toNat ++ " (first was " ++ Text.decimal first.val.toNat ++ ")"
  | .reusedChild id => "branch of " ++ Text.decimal id.val.toNat ++ " reuses a child id"
  | .unknownBranch id => "branch of unknown node " ++ Text.decimal id.val.toNat
  | .branchOfInner id => "branch of non-leaf node " ++ Text.decimal id.val.toNat
  | .unknownEnd id => "termination of unknown node " ++ Text.decimal id.val.toNat
  | .endOfInner id => "termination of non-leaf node " ++ Text.decimal id.val.toNat

/-- The first record that does not fit, by its position. -/
structure Fault where
  position : Nat
  misfit : Misfit
  deriving DecidableEq, Repr

def Fault.message (f : Fault) : String :=
  "replay error: record " ++ Text.decimal f.position ++ ": " ++ f.misfit.message

namespace Tree

def empty : Tree := ⟨none, .empty⟩

def node? (t : Tree) (id : NodeId) : Option Node := t.nodes.get? id

def contains (t : Tree) (id : NodeId) : Bool := (t.node? id).isSome

def size (t : Tree) : Nat := t.nodes.size

def put (t : Tree) (n : Node) : Tree := { t with nodes := t.nodes.insert n.id n }

theorem node?_put (t : Tree) (n : Node) (id : NodeId) :
    (t.put n).node? id = if id = n.id then some n else t.node? id :=
  t.nodes.get?_insert n.id id n

/-- The tree after one more record. -/
def apply (t : Tree) : Record → Except Misfit Tree
  | .root id =>
    match t.root with
    | some first => .error (.secondRoot id first)
    | none => .ok ({ t with root := some id }.put (.fresh id none))
  | .branch id left right line reason =>
    if left = right || t.contains left || t.contains right then .error (.reusedChild id)
    else
      match t.node? id with
      | none => .error (.unknownBranch id)
      | some n =>
        if n.isOpen then
          let forked :=
            { n with children := some (left, right), reason := some reason, line := some line }
          .ok (((t.put forked).put (.fresh left (some id))).put (.fresh right (some id)))
        else .error (.branchOfInner id)
  | .terminate id state line kind =>
    match t.node? id with
    | none => .error (.unknownEnd id)
    | some n =>
      if n.isOpen then .ok (t.put { n with termination := some ⟨state, kind, line⟩ })
      else .error (.endOfInner id)

/-- The tree after the records from a position on. -/
def applyAll (t : Tree) (position : Nat) : List Record → Except Fault Tree
  | [] => .ok t
  | r :: rest =>
    match t.apply r with
    | .ok t => t.applyAll (position + 1) rest
    | .error misfit => .error ⟨position, misfit⟩

/-- The tree that a run's records build. -/
def ofRecords? (records : List Record) : Except Fault Tree := empty.applyAll 0 records

theorem applyAll_append (t : Tree) (position : Nat) (first second : List Record) :
    t.applyAll position (first ++ second) =
      (t.applyAll position first).bind fun t => t.applyAll (position + first.length) second := by
  induction first generalizing t position with
  | nil => rfl
  | cons r first ih =>
    simp only [List.cons_append, applyAll, List.length_cons]
    cases t.apply r with
    | error misfit => rfl
    | ok t =>
      simp only [ih]
      congr 2
      funext t
      congr 1
      omega

end Tree

end ForkTree.Replay
