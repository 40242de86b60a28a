import ForkTree.Kind
import ForkTree.Path.Pool
import ForkTree.Tree.Edge

/-!
The nodes of the live tree. A leaf bookmarks the path that is at it. In a tree that is recorded each
node has a note of what the log needs to know about it.
-/

namespace ForkTree

/-- What is recorded of a node. -/
structure Note where
  id : NodeId
  reason : BranchReason
  kind : TerminationKind
  line : UInt64
  state : Option StateId
  deriving DecidableEq, Repr

def Note.fresh (id : NodeId) : Note := ⟨id, .none, .running, 0, none⟩

structure Node where
  parent : Option NodeKey
  left : Edge
  right : Edge
  /-- The path at a leaf, which the engine may have let go. -/
  bookmark : Option PathRef
  note : Option Note
  deriving DecidableEq, Repr

namespace Node

def leaf (parent : Option NodeKey) (path : PathRef) (note : Option Note) : Node :=
  ⟨parent, .null, .null, some path, note⟩

def isLeaf (n : Node) : Bool := n.left.isNull && n.right.isNull

/-- Exactly one of the two edges leads somewhere. -/
def hasSingleChild (n : Node) : Bool := n.left.isNull != n.right.isNull

/-- The children, left before right. -/
def children (n : Node) : List NodeKey := n.left.target.toList ++ n.right.target.toList

/-- The path at the node, if the engine still keeps it. -/
def path? (n : Node) (pool : Pool) : Option PathRef := n.bookmark.filter pool.isAlive

/-- The edge to a child, the left one if both lead there. -/
def edgeTo? (n : Node) (child : NodeKey) : Option Edge :=
  if n.left.pointsTo child then some n.left
  else if n.right.pointsTo child then some n.right
  else none

/-- Change the edge to a child, the left one if both lead there. -/
def modifyEdgeTo (n : Node) (child : NodeKey) (change : Edge → Edge) : Node :=
  if n.left.pointsTo child then { n with left := change n.left }
  else if n.right.pointsTo child then { n with right := change n.right }
  else n

end Node

end ForkTree
