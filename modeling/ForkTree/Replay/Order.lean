import ForkTree.Replay.Basic

/-!
The nodes of a rebuilt tree in pre-order, left before right, each with its depth, and the counts that
summarise a tree. The walk keeps a stack, so that deep trees need no deep recursion.
-/

namespace ForkTree.Replay

namespace Tree

/-- The walk from a stack of ids with their depths; `fuel` bounds the steps. -/
def walk (t : Tree) : (fuel : Nat) → List (NodeId × Nat) → List (Node × Nat)
  | 0, _ => []
  | _, [] => []
  | fuel + 1, (id, depth) :: stack =>
    match t.node? id with
    | none => t.walk fuel stack
    | some n =>
      let below := match n.children with
        | some (left, right) => [(left, depth + 1), (right, depth + 1)]
        | none => []
      (n, depth) :: t.walk fuel (below ++ stack)

/-- Every node with its depth. Each is met once, so their number bounds the steps. -/
def preorder (t : Tree) : List (Node × Nat) :=
  t.walk t.size (t.root.toList.map (·, 0))

end Tree

/-- How often each name occurred. -/
abbrev Tally := SortedMap String Nat

namespace Tally

def add (t : Tally) (name : String) : Tally := t.alter name fun n => n.getD 0 + 1

end Tally

structure Stats where
  nodes : Nat
  branches : Nat
  terminated : Nat
  openLeaves : Nat
  maxDepth : Nat
  terminationsByKind : Tally
  branchesByReason : Tally
  deriving DecidableEq, Repr

namespace Stats

def empty : Stats := ⟨0, 0, 0, 0, 0, .empty, .empty⟩

def addReason (reason : BranchReason) (s : Stats) : Stats :=
  { s with branches := s.branches + 1, branchesByReason := Tally.add s.branchesByReason reason.name }

def addTermination (t : Termination) (s : Stats) : Stats :=
  { s with
    terminated := s.terminated + 1
    terminationsByKind := Tally.add s.terminationsByKind t.kind.name }

def add (s : Stats) (met : Node × Nat) : Stats :=
  let (n, depth) := met
  let s := { s with nodes := s.nodes + 1, maxDepth := max s.maxDepth depth }
  let s := match n.reason with
    | some reason => s.addReason reason
    | none => s
  match n.termination with
  | some t => s.addTermination t
  | none => if n.isLeaf then { s with openLeaves := s.openLeaves + 1 } else s

/-- One line a number, then one a kind of end. -/
def summary (s : Stats) : String :=
  let line := fun (label : String) (n : Nat) => label ++ ": " ++ Text.decimal n ++ "\n"
  line "nodes" s.nodes ++ line "branches" s.branches ++ line "terminated" s.terminated ++
    line "open leaves" s.openLeaves ++ line "max depth" s.maxDepth ++
    String.join (s.terminationsByKind.entries.map fun (kind, n) => line ("  " ++ kind) n)

end Stats

def Tree.stats (t : Tree) : Stats := t.preorder.foldl Stats.add .empty

end ForkTree.Replay
