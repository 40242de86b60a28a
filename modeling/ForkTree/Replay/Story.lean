import ForkTree.Replay.History
import ForkTree.Replay.Render

/-!
Stories: what became of a run, told from a node down. The path at a node goes on, or it ended, or it forked
into two paths with stories of their own. `Follows` says that a story goes as records say, which are looked
at by what they are about and in no order. The pictures of a story are drawn by recursion: nested objects,
and the lines of a graph.
-/

namespace ForkTree.Replay

open Log (Record)

/-- What became of the path at a node. -/
inductive Story where
  | ongoing (id : NodeId)
  | ended (id : NodeId) (outcome : Termination)
  | forked (id : NodeId) (line : UInt64) (reason : BranchReason) (left right : Story)
  deriving DecidableEq, Repr

namespace Story

/-- The node that the story starts at. -/
def start : Story → NodeId
  | ongoing id => id
  | ended id _ => id
  | forked id .. => id

/-- The nodes in pre-order, left before right. -/
def ids : Story → List NodeId
  | ongoing id => [id]
  | ended id _ => [id]
  | forked id _ _ left right => id :: (left.ids ++ right.ids)

/-- A record for each fork and each end. -/
def records : Story → List Record
  | ongoing _ => []
  | ended id outcome => [.terminate id outcome.state outcome.line outcome.kind]
  | forked id line reason left right =>
    .branch id left.start right.start line reason :: (left.records ++ right.records)

/-- Every node forked, ended or goes on just as the records say. -/
def Follows (records : List Record) : Story → Prop
  | ongoing id => ∀ r ∈ records, subject? r ≠ some id
  | ended id outcome => .terminate id outcome.state outcome.line outcome.kind ∈ records
  | forked id line reason left right =>
    .branch id left.start right.start line reason ∈ records ∧ left.Follows records ∧ right.Follows records

instance decidableFollows (records : List Record) : (story : Story) → Decidable (story.Follows records)
  | ongoing id => inferInstanceAs (Decidable (∀ r ∈ records, subject? r ≠ some id))
  | ended id outcome =>
    inferInstanceAs (Decidable (.terminate id outcome.state outcome.line outcome.kind ∈ records))
  | forked id line reason left right =>
    have := decidableFollows records left
    have := decidableFollows records right
    inferInstanceAs (Decidable (.branch id left.start right.start line reason ∈ records ∧
      left.Follows records ∧ right.Follows records))

/-- The story of a whole run: it starts at the root. -/
structure IsToldBy (story : Story) (records : List Record) : Prop where
  root : .root story.start ∈ records
  follows : story.Follows records

def nested : Story → Json
  | ongoing id => .object [("children", .array []), ("name", .text (Text.decimal id.val.toNat))]
  | ended id outcome =>
    .object [("children", .array []), ("name", .text (Text.decimal id.val.toNat)),
      ("termination", outcome.toJson)]
  | forked id _ reason left right =>
    .object [("children", .array [left.nested, right.nested]),
      ("name", .text (Text.decimal id.val.toNat)), ("reason", reason.toJson)]

/-- The line of a node with the attributes that are not the same for all nodes. -/
def nodeLine (id : NodeId) (attributes : String) : String :=
  "\tn" ++ Text.decimal id.val.toNat ++ " [shape=diamond" ++ attributes ++ "];\n"

def edgeLine (above below : NodeId) : String :=
  "\tn" ++ Text.decimal above.val.toNat ++ " -> n" ++ Text.decimal below.val.toNat ++ ";\n"

def label (id : NodeId) (word : String) (line : UInt64) : String :=
  ",label=\"" ++ Text.decimal id.val.toNat ++ ": " ++ word ++ "@" ++ Text.decimal line.toNat ++ "\""

/-- The lines of the nodes in pre-order. Behind the line of a fork come the edges to the left and to the
right. -/
def lines : Story → List String
  | ongoing id => [nodeLine id ",fillcolor=green"]
  | ended id outcome =>
    [nodeLine id (label id outcome.kind.name outcome.line ++
      if outcome.kind.isError then ",fillcolor=red" else "")]
  | forked id line reason left right =>
    nodeLine id (label id reason.name line) :: edgeLine id left.start :: edgeLine id right.start ::
      (left.lines ++ right.lines)

end Story

end ForkTree.Replay
