import ForkTree.Replay.Render
import ForkTree.Shape

/-!
The rebuilt tree as a shape, and its pictures by recursion on the shape. `Unfolds` says what lies at
and below an id, when the nodes' ids, parents and children agree all the way down; the shape is then
determined (`Unfolds.unique`) and full (`Unfolds.isFull`).
-/

namespace ForkTree.Replay

/-- At and below an id, which is a child of `parent`, lies the given shape. -/
inductive Tree.Unfolds (t : Tree) : (parent : Option NodeId) → NodeId → Shape Node → Prop where
  | leaf {parent : Option NodeId} {id : NodeId} {n : Node} (known : t.node? id = some n)
      (named : n.id = id) (linked : n.parent = parent) (childless : n.children = none) :
      Unfolds t parent id (.leaf n)
  | fork {parent : Option NodeId} {id left right : NodeId} {n : Node} {l r : Shape Node}
      (known : t.node? id = some n) (named : n.id = id) (linked : n.parent = parent)
      (children : n.children = some (left, right)) (hleft : Unfolds t (some id) left l)
      (hright : Unfolds t (some id) right r) : Unfolds t parent id (.node n l r)

namespace Tree.Unfolds

variable {t : Tree} {parent : Option NodeId} {id : NodeId} {s u : Shape Node}

theorem unique (hs : t.Unfolds parent id s) (hu : t.Unfolds parent id u) : s = u := by
  induction hs generalizing u with
  | leaf known _ _ childless =>
    cases hu with
    | leaf known' => rw [known] at known'; cases known'; rfl
    | fork known' _ _ children =>
      rw [known] at known'
      cases known'
      rw [childless] at children
      cases children
  | fork known _ _ children _ _ ihl ihr =>
    cases hu with
    | leaf known' _ _ childless =>
      rw [known] at known'
      cases known'
      rw [childless] at children
      cases children
    | fork known' _ _ children' hleft' hright' =>
      rw [known] at known'
      cases known'
      rw [children] at children'
      cases children'
      rw [ihl hleft', ihr hright']

theorem isEmpty_eq (h : t.Unfolds parent id s) : s.isEmpty = false := by cases h <;> rfl

theorem isFull (h : t.Unfolds parent id s) : s.IsFull := by
  induction h with
  | leaf => exact ⟨rfl, trivial, trivial⟩
  | fork _ _ _ _ hleft hright ihl ihr => exact ⟨by rw [hleft.isEmpty_eq, hright.isEmpty_eq], ihl, ihr⟩

end Tree.Unfolds

/-- The nested objects of a shape: one, or none for the empty shape. -/
def nestedOf : Shape Node → List Json
  | .empty => []
  | .node n left right => [n.nest (nestedOf left ++ nestedOf right)]

/-- The graph of a shape: the lines of each node in pre-order. -/
def graphOf (s : Shape Node) : String :=
  graphHead ++ String.join (s.preorder.map Node.graphLines) ++ "\x7d\n"

end ForkTree.Replay
