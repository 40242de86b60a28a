import ForkTree.Shape
import ForkTree.Tree.Basic

/-!
The live tree as a shape. `Unfolds` says what lies behind an edge, when the edges and the parent
links agree all the way down. It is a relation because a tree at large may hold edges to dead nodes,
or links that go round; where it holds, the shape is determined (`Unfolds.unique`).
-/

namespace ForkTree.Tree

/-- Behind an edge out of `parent` lies the given shape of live nodes. -/
inductive Unfolds (t : Tree) :
    (parent : Option NodeKey) → Edge → Shape (NodeKey × Node) → Prop where
  | nowhere {parent : Option NodeKey} {e : Edge} (null : e.target = none) :
      Unfolds t parent e .empty
  | node {parent : Option NodeKey} {e : Edge} {key : NodeKey} {n : Node}
      {left right : Shape (NodeKey × Node)} (target : e.target = some key)
      (live : t.node? key = some n) (linked : n.parent = parent)
      (hleft : Unfolds t (some key) n.left left) (hright : Unfolds t (some key) n.right right) :
      Unfolds t parent e (.node (key, n) left right)

theorem Unfolds.unique {t : Tree} {parent : Option NodeKey} {e : Edge}
    {s u : Shape (NodeKey × Node)} (hs : t.Unfolds parent e s) (hu : t.Unfolds parent e u) :
    s = u := by
  induction hs generalizing u with
  | nowhere null =>
    cases hu with
    | nowhere => rfl
    | node target => rw [null] at target; cases target
  | node target live linked hleft hright ihl ihr =>
    cases hu with
    | nowhere null => rw [null] at target; cases target
    | node target' live' linked' hleft' hright' =>
      rw [target] at target'
      cases target'
      rw [live] at live'
      cases live'
      rw [ihl hleft', ihr hright']

/-- An edge to nowhere unfolds to the empty shape, any other to a node. -/
theorem Unfolds.isEmpty_eq {t : Tree} {parent : Option NodeKey} {e : Edge}
    {s : Shape (NodeKey × Node)} (h : t.Unfolds parent e s) : s.isEmpty = e.isNull := by
  cases h with
  | nowhere null => simp [Shape.isEmpty, Edge.isNull, null]
  | node target => simp [Shape.isEmpty, Edge.isNull, target]

end ForkTree.Tree
