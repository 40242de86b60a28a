import ForkTree.Json.Printer
import ForkTree.Tree.Basic

/-!
Walks over the live tree and the check of its shape. A walk goes down from the root and is bounded by
the number of live nodes, which no way down can exceed. `Tree.check` finds the first defect: a parent
link that disagrees with the edges, a path bookmarked elsewhere than at a leaf, a leaf without one, a
single child in a tree that compresses, or live nodes that the walk did not reach.
-/

namespace ForkTree.Tree

/-- The nodes at and below a key in pre-order, left before right, at most `fuel` levels deep. -/
def below (t : Tree) : (fuel : Nat) → NodeKey → List (NodeKey × Node)
  | 0, _ => []
  | fuel + 1, key =>
    match t.node? key with
    | none => []
    | some n => (key, n) :: n.children.flatMap (t.below fuel)

/-- The nodes that the root edge leads to, left before right. -/
def preorder (t : Tree) : List (NodeKey × Node) :=
  t.root.target.toList.flatMap (t.below t.size)

/-- As `below`, but right before left. -/
def belowRightFirst (t : Tree) : (fuel : Nat) → NodeKey → List (NodeKey × Node)
  | 0, _ => []
  | fuel + 1, key =>
    match t.node? key with
    | none => []
    | some n => (key, n) :: n.children.reverse.flatMap (t.belowRightFirst fuel)

/-- The nodes that the root edge leads to, right before left. -/
def preorderRightFirst (t : Tree) : List (NodeKey × Node) :=
  t.root.target.toList.flatMap (t.belowRightFirst t.size)

/-- The leaves whose paths the engine keeps, from left to right. -/
def frontier (t : Tree) (pool : Pool) : List NodeKey :=
  (t.preorder.filter fun (_, n) => n.isLeaf && (n.path? pool).isSome).map Prod.fst

inductive Defect where
  | danglingEdge (key : NodeKey)
  | staleParent (key : NodeKey)
  | innerPath (key : NodeKey)
  | leafWithoutPath (key : NodeKey)
  | singleChild (key : NodeKey)
  /-- Live nodes less visited ones. A negative count stands for the underflow of this difference where
  counts are unsigned: some node was visited more than once. -/
  | unreachable (count : Int)
  deriving DecidableEq, Repr

def Defect.text : Defect → String
  | .danglingEdge key => "dangling edge to " ++ key.shown
  | .staleParent key => key.shown ++ " has a stale parent"
  | .innerPath key => "internal node " ++ key.shown ++ " holds a state"
  | .leafWithoutPath key => "leaf " ++ key.shown ++ " holds no state"
  | .singleChild key => key.shown ++ " has a single child"
  | .unreachable count => Json.writeInt count ++ " nodes unreachable from the root"

def Defect.message (d : Defect) : String := "Internal invariant failed: " ++ d.text

/-- The defect of a node that was reached from `parent`, if it has one. -/
def defectAt? (t : Tree) (key : NodeKey) (parent : Option NodeKey) (n : Node) : Option Defect :=
  if n.parent ≠ parent then some (.staleParent key)
  else if !n.isLeaf && n.bookmark.isSome then some (.innerPath key)
  else if n.isLeaf && n.bookmark.isNone then some (.leafWithoutPath key)
  else if t.compress && n.hasSingleChild then some (.singleChild key)
  else none

/-- Visit what is at and below a key, right before left, and count the visits. On the way down a key
cannot come up twice without a stale parent, so `fuel` as large as the tree is enough. -/
def visit (t : Tree) : (fuel : Nat) → NodeKey → (parent : Option NodeKey) → Except Defect Nat
  | 0, key, _ => .error (.staleParent key)
  | fuel + 1, key, parent =>
    match t.node? key with
    | none => .error (.danglingEdge key)
    | some n =>
      match t.defectAt? key parent n with
      | some d => .error d
      | none => do
        let right ← match n.right.target with
          | some child => t.visit fuel child (some key)
          | none => .ok 0
        let left ← match n.left.target with
          | some child => t.visit fuel child (some key)
          | none => .ok 0
        return 1 + right + left

/-- The first defect of the tree, if there is one. -/
def check (t : Tree) : Except Defect Unit := do
  let visits ← match t.root.target with
    | some key => t.visit (t.size + 1) key none
    | none => .ok 0
  if visits = t.size then .ok () else .error (.unreachable ((t.size : Int) - visits))

end ForkTree.Tree
