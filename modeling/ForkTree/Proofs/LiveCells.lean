import ForkTree.Proofs.ArenaMap
import ForkTree.Proofs.ShapeGrowth
import ForkTree.Tree.Unfold

/-!
The live tree as a shape of cells. A cell is what a node is apart from its links: its key, the bits on
the edge to it, its bookmark and its note. `Reads` relates an edge to the cells behind it and `Spine`
the way down to a hole to its frames, so that a call can be followed at the one place that it changes
while `Reads.congr` and `Spine.congr` carry over what it leaves alone.
-/

namespace ForkTree

open Shape

structure Cell where
  key : NodeKey
  /-- The bits on the edge to the node. -/
  tag : Mask
  bookmark : Option PathRef
  note : Option Note
  deriving DecidableEq

def Cell.ofNode (key : NodeKey) (tag : Mask) (n : Node) : Cell := ⟨key, tag, n.bookmark, n.note⟩

def Node.edgeAt (n : Node) : Side → Edge
  | .left => n.left
  | .right => n.right

def Shape.keys (s : Shape Cell) : List NodeKey := s.preorder.map Cell.key

def keysAround (above : List (Frame Cell)) : List NodeKey := (around above).map Cell.key

namespace Tree

/-- Behind an edge out of `parent` stand the given cells. -/
inductive Reads (t : Tree) : (parent : Option NodeKey) → Edge → Shape Cell → Prop where
  | nowhere {parent : Option NodeKey} {e : Edge} (null : e.target = none) : Reads t parent e .empty
  | node {parent : Option NodeKey} {e : Edge} {key : NodeKey} {n : Node} {left right : Shape Cell}
      (target : e.target = some key) (live : t.node? key = some n) (linked : n.parent = parent)
      (hleft : Reads t (some key) n.left left) (hright : Reads t (some key) n.right right) :
      Reads t parent e (.node (.ofNode key e.tag n) left right)

/-- Down from the root, past the given frames, comes an edge out of `parent`. -/
inductive Spine (t : Tree) : List (Frame Cell) → (parent : Option NodeKey) → Edge → Prop where
  | root : Spine t [] none t.root
  | step {above : List (Frame Cell)} {parent : Option NodeKey} {e : Edge} {key : NodeKey} {n : Node}
      {side : Side} {beside : Shape Cell} (habove : Spine t above parent e)
      (target : e.target = some key) (live : t.node? key = some n) (linked : n.parent = parent)
      (hbeside : Reads t (some key) (n.edgeAt side.other) beside) :
      Spine t (⟨side, .ofNode key e.tag n, beside⟩ :: above) (some key) (n.edgeAt side)

end Tree

@[simp]
lemma Shape.keys_empty : (Shape.empty : Shape Cell).keys = [] := rfl

lemma Shape.keys_node (c : Cell) (left right : Shape Cell) :
    (Shape.node c left right).keys = c.key :: (left.keys ++ right.keys) := by
  simp [keys, preorder]

@[simp]
lemma Shape.keys_leaf (c : Cell) : (leaf c).keys = [c.key] := rfl

@[simp]
lemma keysAround_nil : keysAround [] = [] := rfl

@[simp]
lemma keysAround_cons (f : Frame Cell) (above : List (Frame Cell)) :
    keysAround (f :: above) = f.item.key :: f.beside.keys ++ keysAround above := by
  simp [keysAround, keys]

lemma keys_plug (above : List (Frame Cell)) (s : Shape Cell) :
    (plug above s).keys.Perm (s.keys ++ keysAround above) := by
  have h := (preorder_plug above s).map Cell.key
  rwa [List.map_append] at h

lemma mem_keys_plug {above : List (Frame Cell)} {s : Shape Cell} {key : NodeKey} :
    key ∈ (plug above s).keys ↔ key ∈ s.keys ∨ key ∈ keysAround above := by
  rw [(keys_plug above s).mem_iff, List.mem_append]

lemma nodup_keys_plug {above : List (Frame Cell)} {s : Shape Cell} :
    (plug above s).keys.Nodup ↔
      s.keys.Nodup ∧ (keysAround above).Nodup ∧ ∀ key ∈ s.keys, key ∉ keysAround above := by
  rw [(keys_plug above s).nodup_iff, List.nodup_append]
  refine and_congr_right fun _ => and_congr_right fun _ => ?_
  exact ⟨fun h key hs hk => h key hs key hk rfl, fun h key hs other hk e => h key hs (e ▸ hk)⟩

namespace Node

lemma isLeaf_eq (n : Node) (side : Side) :
    n.isLeaf = ((n.edgeAt side).isNull && (n.edgeAt side.other).isNull) := by
  cases side with
  | left => rfl
  | right => exact Bool.and_comm _ _

lemma hasSingleChild_eq (n : Node) (side : Side) :
    n.hasSingleChild = ((n.edgeAt side).isNull != (n.edgeAt side.other).isNull) := by
  cases side with
  | left => rfl
  | right => exact Bool.xor_comm _ _

lemma hasSingleChild_of_isNull {n : Node} {side : Side} (hnull : (n.edgeAt side).isNull = true)
    (hkept : (n.edgeAt side.other).isNull = false) :
    n.hasSingleChild = true ∧ (if n.left.isNull then n.right else n.left) = n.edgeAt side.other := by
  refine ⟨by rw [hasSingleChild_eq n side, hnull, hkept]; rfl, ?_⟩
  cases side with
  | left => exact if_pos hnull
  | right => exact if_neg (Bool.eq_false_iff.1 hkept)

/-- Changing the edge to a child changes the one on the child's side and nothing else. -/
lemma modifyEdgeTo_spec {n : Node} {side : Side} {child : NodeKey} (change : Edge → Edge)
    (h : (n.edgeAt side).target = some child) (hother : (n.edgeAt side.other).target ≠ some child) :
    (n.modifyEdgeTo child change).edgeAt side = change (n.edgeAt side) ∧
      (n.modifyEdgeTo child change).edgeAt side.other = n.edgeAt side.other := by
  unfold modifyEdgeTo
  cases side with
  | left =>
    simp only [edgeAt] at h
    simp [Edge.pointsTo, h, edgeAt, Side.other]
  | right =>
    simp only [edgeAt, Side.other] at h hother
    simp [Edge.pointsTo, h, hother, edgeAt, Side.other]

@[simp]
lemma parent_modifyEdgeTo (n : Node) (child : NodeKey) (change : Edge → Edge) :
    (n.modifyEdgeTo child change).parent = n.parent := by
  unfold modifyEdgeTo
  split
  · rfl
  · split <;> rfl

@[simp]
lemma ofNode_modifyEdgeTo (key : NodeKey) (tag : Mask) (n : Node) (child : NodeKey)
    (change : Edge → Edge) :
    Cell.ofNode key tag (n.modifyEdgeTo child change) = Cell.ofNode key tag n := by
  unfold modifyEdgeTo
  split
  · rfl
  · split <;> rfl

lemma edgeTo?_eq {n : Node} {side : Side} {child : NodeKey}
    (h : (n.edgeAt side).target = some child) (hother : (n.edgeAt side.other).target ≠ some child) :
    n.edgeTo? child = some (n.edgeAt side) := by
  unfold edgeTo?
  cases side with
  | left =>
    simp only [edgeAt] at h
    simp [Edge.pointsTo, h, edgeAt]
  | right =>
    simp only [edgeAt, Side.other] at h hother
    simp [Edge.pointsTo, h, hother, edgeAt]

end Node

namespace Tree

lemma node?_modify (t : Tree) (key other : NodeKey) (change : Node → Node) :
    (t.modify key change).node? other =
      if other = key then (t.node? key).map change else t.node? other :=
  t.nodes.get?_modify key other change

lemma node?_modify_of_ne (t : Tree) {key other : NodeKey} (change : Node → Node)
    (h : other ≠ key) : (t.modify key change).node? other = t.node? other := by
  rw [node?_modify, if_neg h]

lemma node?_erase (t : Tree) (key other : NodeKey) :
    (t.erase key).node? other = if other = key then none else t.node? other :=
  t.nodes.get?_remove key other

lemma node?_erase_of_ne (t : Tree) {key other : NodeKey} (h : other ≠ key) :
    (t.erase key).node? other = t.node? other := by
  rw [node?_erase, if_neg h]

lemma Reads.congr {t u : Tree} {parent : Option NodeKey} {e : Edge} {s : Shape Cell}
    (h : t.Reads parent e s) (heq : ∀ key ∈ s.keys, u.node? key = t.node? key) :
    u.Reads parent e s := by
  induction h with
  | nowhere null => exact .nowhere null
  | @node parent e key n left right target live linked hleft hright ihl ihr =>
    rw [keys_node] at heq
    refine .node target ?_ linked (ihl fun k hk => heq k ?_) (ihr fun k hk => heq k ?_)
    · rw [← live]
      exact heq _ List.mem_cons_self
    · exact List.mem_cons_of_mem _ (List.mem_append_left _ hk)
    · exact List.mem_cons_of_mem _ (List.mem_append_right _ hk)

lemma Reads.isEmpty_eq {t : Tree} {parent : Option NodeKey} {e : Edge} {s : Shape Cell}
    (h : t.Reads parent e s) : s.isEmpty = e.isNull := by
  cases h with
  | nowhere null => simp [Edge.isNull, null]
  | node target => simp [Edge.isNull, target]

/-- The key that an edge leads to is the first of those behind it. -/
lemma Reads.target_mem {t : Tree} {parent : Option NodeKey} {e : Edge} {s : Shape Cell}
    (h : t.Reads parent e s) {key : NodeKey} (hkey : e.target = some key) : key ∈ s.keys := by
  cases h with
  | nowhere null =>
    rw [null] at hkey
    cases hkey
  | node target =>
    rw [target] at hkey
    cases hkey
    exact List.mem_cons_self

lemma Reads.node?_isSome {t : Tree} {parent : Option NodeKey} {e : Edge} {s : Shape Cell}
    (h : t.Reads parent e s) {key : NodeKey} (hkey : key ∈ s.keys) : (t.node? key).isSome := by
  induction h with
  | nowhere null => cases hkey
  | node target live linked hleft hright ihl ihr =>
    rw [keys_node, List.mem_cons, List.mem_append] at hkey
    rcases hkey with rfl | hkey | hkey
    · exact Option.isSome_iff_exists.2 ⟨_, live⟩
    · exact ihl hkey
    · exact ihr hkey

lemma Reads.node_inv {t : Tree} {parent : Option NodeKey} {e : Edge} {c : Cell}
    {left right : Shape Cell} (h : t.Reads parent e (.node c left right)) :
    ∃ n, e.target = some c.key ∧ t.node? c.key = some n ∧ n.parent = parent ∧
      c = .ofNode c.key e.tag n ∧ t.Reads (some c.key) n.left left ∧
      t.Reads (some c.key) n.right right := by
  generalize hs : Shape.node c left right = s at h
  cases h with
  | nowhere null => cases hs
  | @node _ _ key n l r target live linked hleft hright =>
    obtain ⟨hc, hl, hr⟩ := Shape.node.inj hs
    subst hc hl hr
    exact ⟨n, target, live, linked, rfl, hleft, hright⟩

/-- Both sides of a node, the one that is named first. -/
lemma Reads.close {t : Tree} {parent : Option NodeKey} {e : Edge} {key : NodeKey} {n : Node}
    {side : Side} {beside s : Shape Cell} (target : e.target = some key)
    (live : t.node? key = some n) (linked : n.parent = parent)
    (hs : t.Reads (some key) (n.edgeAt side) s)
    (hbeside : t.Reads (some key) (n.edgeAt side.other) beside) :
    t.Reads parent e (Frame.close ⟨side, .ofNode key e.tag n, beside⟩ s) := by
  cases side with
  | left => exact .node target live linked hs hbeside
  | right => exact .node target live linked hbeside hs

lemma Reads.close_inv {t : Tree} {parent : Option NodeKey} {e : Edge} {f : Frame Cell}
    {s : Shape Cell} (h : t.Reads parent e (f.close s)) :
    ∃ n, e.target = some f.item.key ∧ t.node? f.item.key = some n ∧ n.parent = parent ∧
      f.item = .ofNode f.item.key e.tag n ∧ t.Reads (some f.item.key) (n.edgeAt f.side) s ∧
      t.Reads (some f.item.key) (n.edgeAt f.side.other) f.beside := by
  obtain ⟨side, c, beside⟩ := f
  cases side with
  | left =>
    obtain ⟨n, target, live, linked, hc, hs, hbeside⟩ := Reads.node_inv h
    exact ⟨n, target, live, linked, hc, hs, hbeside⟩
  | right =>
    obtain ⟨n, target, live, linked, hc, hbeside, hs⟩ := Reads.node_inv h
    exact ⟨n, target, live, linked, hc, hs, hbeside⟩

/-! ### The way down -/

lemma Spine.congr {t u : Tree} {above : List (Frame Cell)} {parent : Option NodeKey} {e : Edge}
    (h : t.Spine above parent e) (hroot : u.root = t.root)
    (heq : ∀ key ∈ keysAround above, u.node? key = t.node? key) : u.Spine above parent e := by
  induction h with
  | root =>
    rw [← hroot]
    exact .root
  | step habove target live linked hbeside ih =>
    simp only [keysAround_cons, List.cons_append, List.mem_cons, List.mem_append] at heq
    refine .step (ih fun k hk => heq k (.inr (.inr hk))) target ?_ linked
      (hbeside.congr fun k hk => heq k (.inr (.inl hk)))
    rw [← live]
    exact heq _ (.inl rfl)

lemma Spine.plug {t : Tree} {above : List (Frame Cell)} {parent : Option NodeKey} {e : Edge}
    (h : t.Spine above parent e) {s : Shape Cell} (hs : t.Reads parent e s) :
    t.Reads none t.root (plug above s) := by
  induction h generalizing s with
  | root => exact hs
  | step habove target live linked hbeside ih => exact ih (.close target live linked hs hbeside)

lemma Reads.spine {t : Tree} {above : List (Frame Cell)} {s : Shape Cell}
    (h : t.Reads none t.root (Shape.plug above s)) :
    ∃ parent e, t.Spine above parent e ∧ t.Reads parent e s := by
  induction above generalizing s with
  | nil => exact ⟨none, t.root, .root, h⟩
  | cons f above ih =>
    obtain ⟨parent, e, hspine, hclose⟩ := ih h
    obtain ⟨n, target, live, linked, hc, hs, hbeside⟩ := hclose.close_inv
    refine ⟨some f.item.key, n.edgeAt f.side, ?_, hs⟩
    have hstep := Spine.step hspine target live linked hbeside
    rwa [← hc] at hstep

lemma Spine.cons_inv {t : Tree} {f : Frame Cell} {above : List (Frame Cell)}
    {parent : Option NodeKey} {e : Edge} (h : t.Spine (f :: above) parent e) :
    ∃ n grandparent edge, parent = some f.item.key ∧ e = n.edgeAt f.side ∧
      t.node? f.item.key = some n ∧ n.parent = grandparent ∧ edge.target = some f.item.key ∧
      f.item = .ofNode f.item.key edge.tag n ∧ t.Spine above grandparent edge ∧
      t.Reads (some f.item.key) (n.edgeAt f.side.other) f.beside := by
  cases h with
  | @step _ _ edge key n side beside habove target live linked hbeside =>
    exact ⟨n, _, edge, rfl, rfl, live, linked, target, rfl, habove, hbeside⟩

lemma Spine.redirect {t : Tree} {f : Frame Cell} {above : List (Frame Cell)}
    {parent : Option NodeKey} {e : Edge} {child : NodeKey} (h : t.Spine (f :: above) parent e)
    (hnodup : (keysAround (f :: above)).Nodup) (target : e.target = some child)
    (hchild : child ∉ f.beside.keys) (change : Edge → Edge) :
    (t.modify f.item.key fun n => n.modifyEdgeTo child change).Spine (f :: above) parent
      (change e) := by
  obtain ⟨n, grandparent, edge, rfl, rfl, live, linked, hedge, hitem, habove, hbeside⟩ := h.cons_inv
  simp only [keysAround_cons, List.cons_append, List.nodup_cons, List.mem_append, not_or] at hnodup
  obtain ⟨⟨hself, hfar⟩, _⟩ := hnodup
  have hother : (n.edgeAt f.side.other).target ≠ some child := fun hto =>
    hchild (hbeside.target_mem hto)
  obtain ⟨hside, hkept⟩ := Node.modifyEdgeTo_spec change target hother
  have hnode : (t.modify f.item.key fun n => n.modifyEdgeTo child change).node? f.item.key =
      some (n.modifyEdgeTo child change) := by
    rw [node?_modify, if_pos rfl, live]
    rfl
  have hne : ∀ key, key ≠ f.item.key →
      (t.modify f.item.key fun n => n.modifyEdgeTo child change).node? key = t.node? key :=
    fun key hk => node?_modify_of_ne t _ hk
  have hspine := habove.congr (u := t.modify f.item.key fun n => n.modifyEdgeTo child change) rfl
    fun key hk => hne key fun e => hfar (e ▸ hk)
  have hread := hbeside.congr (u := t.modify f.item.key fun n => n.modifyEdgeTo child change)
    fun key hk => hne key fun e => hself (e ▸ hk)
  rw [← hkept] at hread
  have hstep := Spine.step hspine hedge hnode (by simpa using linked) hread
  rwa [hside, Node.ofNode_modifyEdgeTo, ← hitem] at hstep

lemma Spine.incoming? {t : Tree} {above : List (Frame Cell)} {parent : Option NodeKey} {e : Edge}
    (h : t.Spine above parent e) {key : NodeKey} {n : Node} (target : e.target = some key)
    (live : t.node? key = some n) (linked : n.parent = parent) (hkey : key ∉ keysAround above) :
    t.incoming? key = some e := by
  unfold Tree.incoming?
  simp only [live, linked]
  cases h with
  | root => simp [Edge.pointsTo, target]
  | @step above _ edge k m side beside habove hedge hlive _ hbeside =>
    have hother : (m.edgeAt side.other).target ≠ some key := by
      intro hto
      apply hkey
      rw [keysAround_cons]
      exact List.mem_cons_of_mem _ (List.mem_append_left _ (hbeside.target_mem hto))
    simp [hlive, Node.edgeTo?_eq target hother]

/-- The cells of a shape of nodes behind an edge. -/
def cellsOf : Edge → Shape (NodeKey × Node) → Shape Cell
  | _, .empty => .empty
  | e, .node (key, n) left right =>
    .node (.ofNode key e.tag n) (cellsOf n.left left) (cellsOf n.right right)

lemma Reads.unfolds {t : Tree} {parent : Option NodeKey} {e : Edge} {c : Shape Cell}
    (h : t.Reads parent e c) : ∃ s, t.Unfolds parent e s ∧ cellsOf e s = c := by
  induction h with
  | nowhere null => exact ⟨.empty, .nowhere null, rfl⟩
  | @node parent e key n left right target live linked _ _ ihl ihr =>
    obtain ⟨l, hl, hcl⟩ := ihl
    obtain ⟨r, hr, hcr⟩ := ihr
    refine ⟨.node (key, n) l r, .node target live linked hl hr, ?_⟩
    rw [cellsOf, hcl, hcr]

/-- What is read off the cells can be read off the nodes. -/
lemma map_cellsOf {β : Type} (f : NodeKey → Option PathRef → Option Note → β) (e : Edge)
    (s : Shape (NodeKey × Node)) :
    (cellsOf e s).map (fun c => f c.key c.bookmark c.note) =
      s.map fun (key, n) => f key n.bookmark n.note := by
  induction s generalizing e with
  | empty => rfl
  | node a left right hleft hright =>
    obtain ⟨key, n⟩ := a
    simp only [cellsOf, Shape.map, hleft, hright]
    rfl

end Tree

end ForkTree
