import ForkTree.Proofs.LiveCalls

/-!
Who is above whom in a live tree, told by the parent links alone. In a tree that cells span the links and
the edges agree (`Spans.parent_of_target`, `Spans.exists_edge`), what is above a node are the frames above
it (`Spans.above_iff`), and what is below it are the cells on its two sides (`Spans.above_close_iff`).
-/

namespace ForkTree

open Shape

/-- The nodes above a hole, the lowest one first. -/
def wayUp (above : List (Frame Cell)) : List NodeKey := above.map fun f => f.item.key

@[simp]
lemma wayUp_nil : wayUp [] = [] := rfl

@[simp]
lemma wayUp_cons (f : Frame Cell) (above : List (Frame Cell)) :
    wayUp (f :: above) = f.item.key :: wayUp above := rfl

lemma wayUp_sublist_keysAround (above : List (Frame Cell)) :
    (wayUp above).Sublist (keysAround above) := by
  induction above with
  | nil => exact List.Sublist.refl _
  | cons f above ih =>
    rw [wayUp_cons, keysAround_cons]
    exact (ih.trans (List.sublist_append_right _ _)).cons_cons _

lemma wayUp_subset_keysAround (above : List (Frame Cell)) : wayUp above ⊆ keysAround above :=
  (wayUp_sublist_keysAround above).subset

namespace Tree

/-- The node `a` is the parent of a node, or above its parent. -/
inductive Above (t : Tree) (a : NodeKey) : NodeKey → Prop
  | parent {key : NodeKey} {n : Node} (live : t.node? key = some n) (linked : n.parent = some a) :
    Above t a key
  | up {key p : NodeKey} {n : Node} (live : t.node? key = some n) (linked : n.parent = some p)
    (h : Above t a p) : Above t a key

/-- A live node without children. -/
def IsLeaf (t : Tree) (key : NodeKey) : Prop := ∃ n, t.node? key = some n ∧ n.isLeaf = true

instance (t : Tree) (key : NodeKey) : Decidable (t.IsLeaf key) :=
  decidable_of_iff ((t.node? key).any Node.isLeaf = true) (by simp [IsLeaf, Option.any_eq_true])

variable {t : Tree} {a b key : NodeKey} {n : Node} {s : Shape Cell} {above : List (Frame Cell)}
  {parent : Option NodeKey} {e : Edge}

lemma Above.trans (h : t.Above a b) (h' : t.Above b key) : t.Above a key := by
  induction h' with
  | parent live linked => exact .up live linked h
  | up live linked _ ih => exact .up live linked ih

lemma above_iff (live : t.node? key = some n) :
    t.Above a key ↔ ∃ p, n.parent = some p ∧ (a = p ∨ t.Above a p) := by
  constructor
  · intro h
    cases h with
    | parent live' linked =>
      cases live.symm.trans live'
      exact ⟨a, linked, .inl rfl⟩
    | up live' linked h =>
      cases live.symm.trans live'
      exact ⟨_, linked, .inr h⟩
  · rintro ⟨p, linked, rfl | h⟩
    · exact .parent live linked
    · exact .up live linked h

lemma Above.isSome_node? (h : t.Above a key) : (t.node? key).isSome = true := by
  cases h with
  | parent live _ => rw [live]; rfl
  | up live _ _ => rw [live]; rfl

/-- What is above the node in the hole are the frames. -/
lemma Spine.above_iff (h : t.Spine above parent e) (live : t.node? key = some n)
    (linked : n.parent = parent) : t.Above a key ↔ a ∈ wayUp above := by
  induction h generalizing key n with
  | root => simp [Tree.above_iff live, linked]
  | @step above _ edge k m side beside _ _ hlive hlinked _ ih =>
    rw [Tree.above_iff live, linked, wayUp_cons, List.mem_cons, ← ih hlive hlinked]
    simp [Cell.ofNode]

lemma Spans.above_iff {c : Cell} {left right : Shape Cell} (h : t.Spans (plug above (.node c left right))) :
    t.Above a c.key ↔ a ∈ wayUp above := by
  obtain ⟨parent, e, hspine, hread⟩ := h.reads.spine
  obtain ⟨n, _, live, linked, _⟩ := hread.node_inv
  exact hspine.above_iff live linked

/-- Whoever stands behind an edge is below the node that the edge comes from. -/
lemma Reads.above_of_mem (h : t.Reads parent e s) (hparent : parent = some a) (hkey : key ∈ s.keys) :
    t.Above a key := by
  induction h generalizing a with
  | nowhere => cases hkey
  | @node parent e k n left right target live linked hleft hright ihl ihr =>
    have hself : t.Above a k := .parent live (linked.trans hparent)
    rw [keys_node, List.mem_cons, List.mem_append] at hkey
    rcases hkey with rfl | hkey | hkey
    · exact hself
    · exact hself.trans (ihl rfl hkey)
    · exact hself.trans (ihr rfl hkey)

lemma Reads.parent_mem (h : t.Reads parent e s) (hkey : key ∈ s.keys) (live : t.node? key = some n) :
    n.parent = parent ∨ ∃ p ∈ s.keys, n.parent = some p := by
  induction h with
  | nowhere => cases hkey
  | @node parent e k m left right target live' linked hleft hright ihl ihr =>
    rw [keys_node] at hkey ⊢
    rw [List.mem_cons, List.mem_append] at hkey
    have hself : k ∈ k :: (left.keys ++ right.keys) := List.mem_cons_self
    rcases hkey with rfl | hkey | hkey
    · cases live.symm.trans live'
      exact .inl linked
    · rcases ihl hkey with hp | ⟨p, hp, hlinked⟩
      · exact .inr ⟨k, hself, hp⟩
      · exact .inr ⟨p, List.mem_cons_of_mem _ (List.mem_append_left _ hp), hlinked⟩
    · rcases ihr hkey with hp | ⟨p, hp, hlinked⟩
      · exact .inr ⟨k, hself, hp⟩
      · exact .inr ⟨p, List.mem_cons_of_mem _ (List.mem_append_right _ hp), hlinked⟩

/-- Outside of the hole parents are outside of the hole. -/
lemma Spine.parent_mem (h : t.Spine above parent e) (hkey : key ∈ keysAround above)
    (live : t.node? key = some n) (linked : n.parent = some a) : a ∈ keysAround above := by
  induction h with
  | root => cases hkey
  | @step above parent edge k m side beside habove _ hlive hlinked hbeside ih =>
    rw [keysAround_cons, List.cons_append, List.mem_cons, List.mem_append] at hkey ⊢
    rcases hkey with rfl | hkey | hkey
    · have hup : t.Above a _ := .parent live linked
      exact .inr (.inr (wayUp_subset_keysAround _ ((habove.above_iff hlive hlinked).1 hup)))
    · rcases hbeside.parent_mem hkey live with hp | ⟨p, hp, hlink⟩
      · cases hp.symm.trans linked
        exact .inl rfl
      · cases hlink.symm.trans linked
        exact .inr (.inl hp)
    · exact .inr (.inr (ih hkey))

lemma Spine.above_mem (h : t.Spine above parent e) (habove : t.Above a key)
    (hkey : key ∈ keysAround above) : a ∈ keysAround above := by
  induction habove with
  | parent live linked => exact h.parent_mem hkey live linked
  | up live linked _ ih => exact ih (h.parent_mem hkey live linked)

/-- What is below a node stands on one of its sides. -/
lemma Spans.above_close_iff {f : Frame Cell} (h : t.Spans (plug above (f.close s))) :
    t.Above f.item.key key ↔ key ∈ s.keys ∨ key ∈ f.beside.keys := by
  obtain ⟨parent, e, hspine, hclose⟩ := h.reads.spine
  obtain ⟨n, _, live, linked, _, hs, hbeside⟩ := hclose.close_inv
  constructor
  · intro hbelow
    have hnodup := h.nodup
    have hplug : plug above (f.close s) = plug (f :: above) s := rfl
    rw [hplug, nodup_keys_plug, keysAround_cons, List.cons_append, List.nodup_cons, List.mem_append,
      not_or] at hnodup
    obtain ⟨_, ⟨⟨_, hfar⟩, _⟩, _⟩ := hnodup
    have hmem := h.live key hbelow.isSome_node?
    rw [hplug, mem_keys_plug, keysAround_cons, List.cons_append, List.mem_cons, List.mem_append] at hmem
    rcases hmem with hmem | rfl | hmem | hmem
    · exact .inl hmem
    · exact absurd (wayUp_subset_keysAround _ ((hspine.above_iff live linked).1 hbelow)) hfar
    · exact .inr hmem
    · exact absurd (hspine.above_mem hbelow hmem) hfar
  · rintro (hmem | hmem)
    · exact hs.above_of_mem rfl hmem
    · exact hbeside.above_of_mem rfl hmem

/-! ### Links and edges -/

/-- A live node stands in the hole below some frames. -/
lemma Spans.exists_plug (h : t.Spans s) (live : t.node? key = some n) :
    ∃ above left right e, s = plug above (.node (.ofNode key e.tag n) left right) ∧
      t.Spine above n.parent e ∧ e.target = some key ∧ t.Reads (some key) n.left left ∧
      t.Reads (some key) n.right right := by
  obtain ⟨c, hc, rfl⟩ := List.mem_map.1 (h.live key (by rw [live]; rfl))
  obtain ⟨above, left, right, rfl⟩ := exists_plug_of_mem hc
  obtain ⟨parent, e, hspine, hread⟩ := h.reads.spine
  obtain ⟨m, target, live', rfl, hcell, hleft, hright⟩ := hread.node_inv
  cases live.symm.trans live'
  exact ⟨above, left, right, e, by rw [← hcell], hspine, target, hleft, hright⟩

lemma Spans.parent_of_target (h : t.Spans s) (live : t.node? a = some n) {side : Side}
    (target : (n.edgeAt side).target = some key) :
    ∃ m, t.node? key = some m ∧ m.parent = some a := by
  obtain ⟨_, left, right, _, _, _, _, hleft, hright⟩ := h.exists_plug live
  have hreads : ∃ s, t.Reads (some a) (n.edgeAt side) s := by
    cases side with
    | left => exact ⟨left, hleft⟩
    | right => exact ⟨right, hright⟩
  obtain ⟨s, hs⟩ := hreads
  cases hs with
  | nowhere null =>
    rw [null] at target
    cases target
  | node target' live' linked =>
    cases target'.symm.trans target
    exact ⟨_, live', linked⟩

lemma Spans.parent_of_root (h : t.Spans s) (target : t.root.target = some key) :
    ∃ m, t.node? key = some m ∧ m.parent = none := by
  have hs := h.reads
  generalize t.root = e at hs target
  cases hs with
  | nowhere null =>
    rw [null] at target
    cases target
  | node target' live' linked =>
    cases target'.symm.trans target
    exact ⟨_, live', linked⟩

/-- A node with a parent is behind one of its edges. -/
lemma Spans.exists_edge (h : t.Spans s) (live : t.node? key = some n) (linked : n.parent = some a) :
    ∃ m side, t.node? a = some m ∧ (m.edgeAt side).target = some key := by
  obtain ⟨above, _, _, e, _, hspine, target, _⟩ := h.exists_plug live
  rw [linked] at hspine
  cases hspine with
  | @step above parent _ k m side beside _ _ hlive _ _ => exact ⟨m, side, hlive, target⟩

lemma Spans.not_above_self (h : t.Spans s) : ¬ t.Above key key := by
  intro habove
  obtain ⟨n, live⟩ := Option.isSome_iff_exists.1 habove.isSome_node?
  obtain ⟨above, left, right, e, rfl, hspine, _⟩ := h.exists_plug live
  have hkey := wayUp_subset_keysAround _ ((hspine.above_iff live rfl).1 habove)
  exact (nodup_keys_plug.1 h.nodup).2.2 key (by rw [keys_node]; exact List.mem_cons_self) hkey

/-- At or below every node there is a leaf. -/
lemma Spans.exists_leaf_below (h : t.Spans s) (live : t.node? key = some n) :
    ∃ l, t.IsLeaf l ∧ (l = key ∨ t.Above key l) := by
  obtain ⟨above, left, right, e, rfl, _⟩ := h.exists_plug live
  obtain ⟨parent, e', _, hread⟩ := h.reads.spine
  have hpos := length_leaves_pos (isEmpty_node (Cell.ofNode key e.tag n) left right)
  obtain ⟨d, hd⟩ := List.exists_mem_of_length_pos hpos
  obtain ⟨m, hlive, hleaf, _⟩ := hread.node?_of_mem_leaves hd
  refine ⟨d.key, ⟨m, hlive, hleaf⟩, ?_⟩
  have hmem : d.key ∈ (Shape.node (Cell.ofNode key e.tag n) left right).keys :=
    List.mem_map_of_mem (leaves_subset_preorder _ hd)
  rw [keys_node, List.mem_cons, List.mem_append] at hmem
  have hnode : t.Spans (plug above (Frame.close ⟨.left, .ofNode key e.tag n, right⟩ left)) := h
  exact hmem.imp_right hnode.above_close_iff.2

end Tree

end ForkTree
