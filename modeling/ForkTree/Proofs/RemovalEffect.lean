import ForkTree.Proofs.EdgeBits
import ForkTree.Proofs.RemovalByNode
import ForkTree.Proofs.UsedPaths
import Mathlib.Data.List.TakeWhile

/-!
What the end of a leaf does to each node of the tree, told by what was above and below what. The leaf goes
with every node above it that has no other leaf below (`Bereft`), and in a tree that compresses the next
node up goes as well (`Elided`). Any other node keeps what it has, its parent is the first node above that
stays, and an edge leads on past the node that is elided (`Without`). This holds of every tree that calls
and updates of searchers lead to (`Arises.without_remove`).
-/

namespace ForkTree

open Shape

namespace Tree

/-- The leaf `k`, or a node above it with no other leaf below. -/
def Bereft (t : Tree) (k x : NodeKey) : Prop :=
  x = k ∨ t.Above x k ∧ ∀ l, t.IsLeaf l → t.Above x l → l = k

/-- The first of the nodes above one that stays, if any stays. -/
inductive Nearest (t : Tree) (stays : NodeKey → Prop) : NodeKey → Option NodeKey → Prop
  | top {key : NodeKey} {n : Node} (live : t.node? key = some n) (linked : n.parent = none) :
    Nearest t stays key none
  | here {key p : NodeKey} {n : Node} (live : t.node? key = some n) (linked : n.parent = some p)
    (h : stays p) : Nearest t stays key (some p)
  | up {key p : NodeKey} {n : Node} {o : Option NodeKey} (live : t.node? key = some n)
    (linked : n.parent = some p) (hgoes : ¬ stays p) (h : Nearest t stays p o) : Nearest t stays key o

/-- In a tree that compresses, the lowest node above the leaf `k` that has another leaf below. -/
def Elided (t : Tree) (k x : NodeKey) : Prop :=
  t.compress = true ∧ t.Nearest (fun p => ¬ t.Bereft k p) k (some x)

/-- What goes when the leaf `k` ends. -/
def Goes (t : Tree) (k x : NodeKey) : Prop := t.Bereft k x ∨ t.Elided k x

/-- Where an edge of a node that stays leads once the leaf `k` is gone. -/
inductive Redirects (t : Tree) (k : NodeKey) : Edge → Edge → Prop
  | nowhere {e : Edge} (null : e.target = none) : Redirects t k e e
  | kept {e : Edge} {y : NodeKey} (target : e.target = some y) (h : ¬ t.Goes k y) : Redirects t k e e
  | cut {e : Edge} {y : NodeKey} (target : e.target = some y) (h : t.Bereft k y) : Redirects t k e .null
  /-- The child that is left to an elided node comes up to the node's place, by its own edge. -/
  | promoted {e : Edge} {y z : NodeKey} {n : Node} {side : Side} (target : e.target = some y)
    (h : t.Elided k y) (live : t.node? y = some n) (child : (n.edgeAt side).target = some z)
    (hstays : ¬ t.Goes k z) : Redirects t k e (n.edgeAt side)

/-- The tree `u` is `t` without the leaf `k` and what goes with it. -/
structure Without (t : Tree) (k : NodeKey) (u : Tree) : Prop where
  live_iff : ∀ x, (u.node? x).isSome = true ↔ (t.node? x).isSome = true ∧ ¬ t.Goes k x
  kept : ∀ x n, t.node? x = some n → ¬ t.Goes k x →
    ∃ m, u.node? x = some m ∧ m.bookmark = n.bookmark ∧ m.note = n.note ∧
      t.Nearest (fun p => ¬ t.Goes k p) x m.parent ∧
      ∀ side, t.Redirects k (n.edgeAt side) (m.edgeAt side)
  incomingTag_eq : ∀ x, (t.node? x).isSome = true → ¬ t.Goes k x → u.incomingTag x = t.incomingTag x
  root : t.Redirects k t.root u.root
  root_eq_null : (∀ x, (t.node? x).isSome = true → t.Goes k x) → u.root = .null
  settings_eq : u.settings = t.settings

end Tree

/-- Frames with nothing beside the hole add no leaves. -/
lemma Shape.leaves_plug_of_isEmpty {above : List (Frame Cell)} {s : Shape Cell}
    (h : ∀ f ∈ above, f.beside.isEmpty = true) (hs : s.isEmpty = false) :
    (plug above s).leaves = s.leaves := by
  induction above generalizing s with
  | nil => rfl
  | cons f above ih =>
    obtain ⟨hf, habove⟩ := List.forall_mem_cons.1 h
    rw [plug, ih habove (isEmpty_close f s), Frame.close, isEmpty_iff.1 hf]
    cases f.side <;> simp [leaves, hs]

namespace Tree

variable {t : Tree} {s : Shape Cell} {key x : NodeKey} {n : Node} {above : List (Frame Cell)}

section Positions

variable {inner outer : List (Frame Cell)} {f : Frame Cell} {c : Cell} {stays : NodeKey → Prop}

lemma Spine.parent_eq {parent : Option NodeKey} {e : Edge} (h : t.Spine above parent e) :
    parent = above.head?.map fun f => f.item.key := by
  cases h <;> rfl

lemma Spans.only_leaf (h : t.Spans (plug (inner ++ f :: outer) (leaf c)))
    (hempty : ∀ g ∈ inner, g.beside.isEmpty = true) (hbeside : f.beside.isEmpty = true) {l : NodeKey}
    (hleaf : t.IsLeaf l) (hbelow : t.Above f.item.key l) : l = c.key := by
  have h : t.Spans (plug outer (f.close (plug inner (leaf c)))) := by rwa [plug_append] at h
  obtain ⟨_, _, _, hclose⟩ := h.reads.spine
  obtain ⟨_, _, _, _, _, hs, _⟩ := hclose.close_inv
  obtain ⟨n, live, hn⟩ := hleaf
  rw [h.above_close_iff, isEmpty_iff.1 hbeside, keys_empty] at hbelow
  obtain ⟨d, hd, rfl⟩ := hs.exists_mem_leaves (hbelow.resolve_right List.not_mem_nil) live hn
  rw [leaves_plug_of_isEmpty hempty (isEmpty_leaf c), leaves_leaf, List.mem_singleton] at hd
  rw [hd]

lemma Spans.exists_other_leaf (h : t.Spans (plug (inner ++ f :: outer) (leaf c)))
    (hbeside : f.beside.isEmpty = false) (hx : x ∈ wayUp (f :: outer)) :
    ∃ l, t.IsLeaf l ∧ t.Above x l ∧ l ≠ c.key := by
  obtain ⟨d, hd⟩ := List.exists_mem_of_length_pos (length_leaves_pos hbeside)
  have hmem : d.key ∈ f.beside.keys := List.mem_map_of_mem (leaves_subset_preorder _ hd)
  have hfar : c.key ∉ keysAround (inner ++ f :: outer) :=
    (nodup_keys_plug.1 h.nodup).2.2 c.key (by simp)
  have h : t.Spans (plug outer (f.close (plug inner (leaf c)))) := by rwa [plug_append] at h
  obtain ⟨_, _, hspine, hclose⟩ := h.reads.spine
  obtain ⟨n, _, live, linked, _, _, hbelow⟩ := hclose.close_inv
  obtain ⟨m, hlive, hleaf, _⟩ := hbelow.node?_of_mem_leaves hd
  have hself : t.Above f.item.key d.key := hbelow.above_of_mem rfl hmem
  refine ⟨d.key, ⟨m, hlive, hleaf⟩, ?_, ?_⟩
  · rw [wayUp_cons, List.mem_cons] at hx
    rcases hx with rfl | hx
    · exact hself
    · exact ((hspine.above_iff live linked).2 hx).trans hself
  · intro e
    apply hfar
    rw [← e, keysAround, around, List.flatMap_append, List.map_append]
    refine List.mem_append_right _ ?_
    change d.key ∈ keysAround (f :: outer)
    rw [keysAround_cons]
    exact List.mem_cons_of_mem _ (List.mem_append_left _ hmem)

/-- The frames that go with a leaf are those up to the first with something beside the hole. -/
lemma Spans.bereft_iff (h : t.Spans (plug above (leaf c))) :
    t.Bereft c.key x ↔ x ∈ c.key :: wayUp (above.takeWhile fun f => f.beside.isEmpty) := by
  have hsplit := List.takeWhile_append_dropWhile (p := fun f : Frame Cell => f.beside.isEmpty) (l := above)
  have hempty : ∀ f ∈ above.takeWhile fun f => f.beside.isEmpty, f.beside.isEmpty = true :=
    fun f hf => List.mem_takeWhile_imp (p := fun f : Frame Cell => f.beside.isEmpty) hf
  have hnext := List.head?_dropWhile_not (fun f : Frame Cell => f.beside.isEmpty) above
  generalize (above.takeWhile fun f => f.beside.isEmpty) = gone at *
  generalize (above.dropWhile fun f => f.beside.isEmpty) = rest at *
  subst hsplit
  have hnode : t.Spans (plug (gone ++ rest) (.node c .empty .empty)) := h
  rw [Bereft, List.mem_cons, hnode.above_iff, wayUp, List.map_append, List.mem_append]
  refine or_congr_right ⟨?_, ?_⟩
  · rintro ⟨hx, honly⟩
    refine hx.resolve_right fun hx => ?_
    cases rest with
    | nil => cases hx
    | cons f rest =>
      obtain ⟨l, hleaf, hbelow, hne⟩ := h.exists_other_leaf hnext hx
      exact hne (honly l hleaf hbelow)
  · intro hx
    refine ⟨.inl hx, ?_⟩
    obtain ⟨f, hf, rfl⟩ := List.mem_map.1 hx
    obtain ⟨inner, outer, rfl⟩ := List.append_of_mem hf
    rw [List.append_assoc, List.cons_append] at h
    exact fun l hleaf hbelow => h.only_leaf (fun g hg => hempty g (List.mem_append_left _ hg))
      (hempty f hf) hleaf hbelow

lemma Nearest.unique {o o' : Option NodeKey} (h : t.Nearest stays key o) (h' : t.Nearest stays key o') :
    o = o' := by
  induction h generalizing o' with
  | top live linked =>
    cases h' with
    | top => rfl
    | here live' linked' _ | up live' linked' _ _ =>
      cases live.symm.trans live'
      cases linked.symm.trans linked'
  | here live linked hstays =>
    cases h' with
    | top live' linked' =>
      cases live.symm.trans live'
      cases linked.symm.trans linked'
    | here live' linked' _ =>
      cases live.symm.trans live'
      exact linked.symm.trans linked'
    | up live' linked' hgoes _ =>
      cases live.symm.trans live'
      cases linked.symm.trans linked'
      exact absurd hstays hgoes
  | up live linked hgoes _ ih =>
    cases h' with
    | top live' linked' =>
      cases live.symm.trans live'
      cases linked.symm.trans linked'
    | here live' linked' hstays =>
      cases live.symm.trans live'
      cases linked.symm.trans linked'
      exact absurd hstays hgoes
    | up live' linked' _ h' =>
      cases live.symm.trans live'
      cases linked.symm.trans linked'
      exact ih h'

lemma Spans.nearest {left right : Shape Cell} (h : t.Spans (plug (inner ++ outer) (.node c left right)))
    (hgoes : ∀ y ∈ wayUp inner, ¬ stays y) (hstays : ∀ f ∈ outer.head?, stays f.item.key) :
    t.Nearest stays c.key (outer.head?.map fun f => f.item.key) := by
  induction inner generalizing c left right with
  | nil =>
    obtain ⟨_, _, hspine, hread⟩ := h.reads.spine
    obtain ⟨n, _, live, linked, _⟩ := hread.node_inv
    rw [hspine.parent_eq] at linked
    cases outer with
    | nil => exact .top live linked
    | cons f outer => exact .here live linked (hstays f rfl)
  | cons g inner ih =>
    obtain ⟨_, _, hspine, hread⟩ := h.reads.spine
    obtain ⟨n, _, live, linked, _⟩ := hread.node_inv
    rw [hspine.parent_eq] at linked
    rw [wayUp_cons] at hgoes
    refine .up live linked (hgoes _ List.mem_cons_self) ?_
    have hgoes' : ∀ y ∈ wayUp inner, ¬ stays y := fun y hy => hgoes y (List.mem_cons_of_mem _ hy)
    obtain ⟨side, a, beside⟩ := g
    cases side with
    | left =>
      have hnode : t.Spans (plug (inner ++ outer) (.node a (.node c left right) beside)) := h
      exact ih hnode hgoes'
    | right =>
      have hnode : t.Spans (plug (inner ++ outer) (.node a beside (.node c left right))) := h
      exact ih hnode hgoes'

/-- What is elided is the first frame with something beside the hole. -/
lemma Spans.elided_iff (h : t.Spans (plug above (leaf c))) :
    t.Elided c.key x ↔ t.compress = true ∧
      ((above.dropWhile fun f => f.beside.isEmpty).head?.map fun f => f.item.key) = some x := by
  have hbereft := fun y => h.bereft_iff (x := y)
  have hsplit := List.takeWhile_append_dropWhile (p := fun f : Frame Cell => f.beside.isEmpty) (l := above)
  generalize (above.takeWhile fun f => f.beside.isEmpty) = gone at *
  generalize (above.dropWhile fun f => f.beside.isEmpty) = rest at *
  subst hsplit
  have hnode : t.Spans (plug (gone ++ rest) (.node c .empty .empty)) := h
  have hnearest : t.Nearest (fun p => ¬ t.Bereft c.key p) c.key _ :=
    hnode.nearest (fun y hy => not_not_intro ((hbereft y).2 (List.mem_cons_of_mem _ hy))) (fun f hf => ?_)
  · exact and_congr_right fun _ => ⟨fun hx => hnearest.unique hx, fun e => e ▸ hnearest⟩
  · obtain ⟨_, hnodup, hdisjoint⟩ := nodup_keys_plug.1 h.nodup
    have hway := hnodup.sublist (wayUp_sublist_keysAround _)
    have hmem : f.item.key ∈ wayUp rest := List.mem_map_of_mem (List.mem_of_mem_head? hf)
    rw [wayUp, List.map_append, List.nodup_append] at hway
    rw [hbereft, List.mem_cons, not_or]
    refine ⟨fun e => ?_, fun hgone => hway.2.2 _ hgone _ hmem rfl⟩
    refine hdisjoint c.key (by simp) (e ▸ wayUp_subset_keysAround _ ?_)
    rw [wayUp, List.map_append]
    exact List.mem_append_right _ hmem

end Positions

section Stays

variable {k y z : NodeKey} {u : Tree} {gone : List NodeKey} {side : Side}

/-- Below what goes with a leaf there is nothing but what goes with it. -/
lemma Spans.bereft_of_parent (h : t.Spans s) (hk : t.IsLeaf k) (live : t.node? x = some n)
    (linked : n.parent = some y) (hy : t.Bereft k y) : t.Bereft k x := by
  have hup : t.Above y x := .parent live linked
  obtain ⟨l, hl, hat⟩ := h.exists_leaf_below live
  rcases hy with rfl | ⟨_, honly⟩
  · obtain ⟨m, side, hlive, target⟩ := h.exists_edge live linked
    obtain ⟨m', hlive', hleaf⟩ := hk
    cases hlive.symm.trans hlive'
    rw [Node.isLeaf_eq m side, Bool.and_eq_true] at hleaf
    simp [Edge.isNull, target] at hleaf
  · rcases hat with rfl | hat
    · exact .inl (honly _ hl hup)
    · have hlk := honly l hl (hup.trans hat)
      exact .inr ⟨hlk ▸ hat, fun l' hl' hbelow => honly l' hl' (hup.trans hbelow)⟩

lemma not_goes_iff : ¬ t.Goes k x ↔ ¬ t.Bereft k x ∧ ¬ t.Elided k x := not_or

lemma Spans.root_eq_null (h : t.Spans s) (hk : t.IsLeaf k) (hroot : t.Redirects k t.root u.root)
    (hall : ∀ x, (t.node? x).isSome = true → t.Goes k x) : u.root = .null := by
  generalize u.root = e at hroot ⊢
  cases hroot with
  | nowhere null =>
    obtain ⟨n, live, _⟩ := hk
    have hs := h.reads
    have hmem := h.live k (by rw [live]; rfl)
    cases hs with
    | nowhere => cases hmem
    | node target =>
      rw [null] at target
      cases target
  | kept target hstays =>
    obtain ⟨n, live, _⟩ := h.parent_of_root target
    exact absurd (hall _ (by rw [live]; rfl)) hstays
  | cut => rfl
  | promoted _ _ live child hstays =>
    obtain ⟨n, hlive, _⟩ := h.parent_of_target live child
    exact absurd (hall _ (by rw [hlive]; rfl)) hstays

/-- It is enough to look at the nodes that stay and at the root edge. -/
lemma Spans.without (h : t.Spans s) (hk : t.IsLeaf k)
    (hgone : ∀ x, t.node? x = none ∨ t.Goes k x → u.node? x = none)
    (hkept : ∀ x n, t.node? x = some n → ¬ t.Goes k x →
      ∃ m, u.node? x = some m ∧ m.bookmark = n.bookmark ∧ m.note = n.note ∧
        t.Nearest (fun p => ¬ t.Goes k p) x m.parent ∧
        ∀ side, t.Redirects k (n.edgeAt side) (m.edgeAt side))
    (hroot : t.Redirects k t.root u.root)
    (htag : ∀ x, (u.node? x).isSome = true → u.incomingTag x = t.incomingTag x)
    (hsettings : u.settings = t.settings) : t.Without k u := by
  have hlive : ∀ x, (t.node? x).isSome = true → ¬ t.Goes k x → (u.node? x).isSome = true := by
    intro x live hstays
    obtain ⟨n, hn⟩ := Option.isSome_iff_exists.1 live
    obtain ⟨m, hm, _⟩ := hkept x n hn hstays
    rw [hm]
    rfl
  refine ⟨fun x => ⟨fun hx => ?_, fun hx => hlive x hx.1 hx.2⟩, hkept, fun x live hstays =>
    htag x (hlive x live hstays), hroot, h.root_eq_null hk hroot, hsettings⟩
  refine ⟨?_, fun hgoes => by simp [hgone x (.inr hgoes)] at hx⟩
  rw [Option.isSome_iff_ne_none] at hx ⊢
  exact fun hnone => hx (hgone x (.inl hnone))

/-- Cutting off what is bereft is right for an edge that does not lead to the elided node. -/
lemma redirects_cut (hbereft : ∀ x, t.Bereft k x ↔ x ∈ gone) {e : Edge}
    (helided : ∀ x, e.target = some x → ¬ t.Elided k x) : t.Redirects k e (e.cut gone) := by
  cases target : e.target with
  | none =>
    rw [Edge.cut_of_null target]
    exact .nowhere target
  | some x =>
    by_cases hx : x ∈ gone
    · rw [Edge.cut_of_mem target hx]
      exact .cut target ((hbereft x).2 hx)
    · rw [Edge.cut_of_not_mem target hx]
      refine .kept target (not_goes_iff.2 ⟨fun hgone => hx ((hbereft x).1 hgone), helided x target⟩)

/-- A node keeps its parent unless that is elided. -/
lemma Spans.nearest_parent (h : t.Spans s) (hk : t.IsLeaf k) (live : t.node? x = some n)
    (hstays : ¬ t.Bereft k x) (helided : ∀ p, n.parent = some p → ¬ t.Elided k p) :
    t.Nearest (fun p => ¬ t.Goes k p) x n.parent := by
  cases linked : n.parent with
  | none => exact .top live linked
  | some p =>
    have hp : ¬ t.Bereft k p := fun hp => hstays (h.bereft_of_parent hk live linked hp)
    exact .here live linked (not_goes_iff.2 ⟨hp, helided p linked⟩)

/-- The effect where no node is elided. -/
lemma Spans.without_of_cut (h : t.Spans s) (hk : t.IsLeaf k) (hbereft : ∀ x, t.Bereft k x ↔ x ∈ gone)
    (helided : ∀ x, ¬ t.Elided k x)
    (hnode : ∀ x, u.node? x = if x ∈ gone then none else (t.node? x).map (Node.mapEdges (Edge.cut gone)))
    (hroot : u.root = t.root.cut gone)
    (htag : ∀ x, (u.node? x).isSome = true → u.incomingTag x = t.incomingTag x)
    (hsettings : u.settings = t.settings) : t.Without k u := by
  have hedge : ∀ e : Edge, t.Redirects k e (e.cut gone) := fun e =>
    redirects_cut hbereft fun x _ => helided x
  refine h.without hk (fun x hx => ?_) (fun x n live hstays => ?_) (hroot ▸ hedge _) htag hsettings
  · rw [hnode]
    rcases hx with hx | hx
    · simp [hx]
    · exact if_pos ((hbereft x).1 (hx.resolve_right (helided x)))
  · have hx := (not_goes_iff.1 hstays).1
    refine ⟨n.mapEdges (Edge.cut gone), ?_, rfl, rfl, ?_, fun side => ?_⟩
    · rw [hnode, if_neg fun hgone => hx ((hbereft x).2 hgone), live, Option.map_some]
    · have hparent := h.nearest_parent hk live hx fun p _ => helided p
      exact hparent
    · rw [Node.edgeAt_mapEdges]
      exact hedge _

/-- The effect where the node `y` is elided, in favour of the node `z`. -/
lemma Spans.without_of_pass (h : t.Spans s) (hk : t.IsLeaf k) (hbereft : ∀ x, t.Bereft k x ↔ x ∈ gone)
    (helided : ∀ x, t.Elided k x ↔ x = y) (hy : t.node? y = some n) (hstays : y ∉ gone)
    (child : (n.edgeAt side).target = some z) (hz : z ∉ gone)
    (hnode : ∀ x, u.node? x = if x = y then none else
      (if x ∈ gone then none else (t.node? x).map (Node.mapEdges (Edge.cut gone))).map fun m =>
        (m.mapEdges (Edge.pass y (n.edgeAt side))).reparent y n.parent)
    (hroot : u.root = Edge.pass y (n.edgeAt side) (t.root.cut gone))
    (htag : ∀ x, (u.node? x).isSome = true → u.incomingTag x = t.incomingTag x)
    (hsettings : u.settings = t.settings) : t.Without k u := by
  obtain ⟨_, hzlive, hzlinked⟩ := h.parent_of_target hy child
  have hzy : z ≠ y := by
    rintro rfl
    exact h.not_above_self (.parent hzlive hzlinked)
  have hedge : ∀ e : Edge, t.Redirects k e (Edge.pass y (n.edgeAt side) (e.cut gone)) := by
    intro e
    by_cases target : e.target = some y
    · rw [Edge.cut_of_not_mem target hstays, Edge.pass, if_pos target]
      refine .promoted target ((helided y).2 rfl) hy child (not_goes_iff.2 ⟨?_, ?_⟩)
      · exact fun hgone => hz ((hbereft z).1 hgone)
      · exact fun hz' => hzy ((helided z).1 hz')
    · have hne : (e.cut gone).target ≠ some y := by
        rw [Edge.cut]
        split
        · intro e
          cases e
        · exact target
      rw [Edge.pass_of_ne hne]
      refine redirects_cut hbereft fun x hx hx' => target ?_
      rw [hx, (helided x).1 hx']
  refine h.without hk (fun x hx => ?_) (fun x m live hx => ?_) (hroot ▸ hedge _) htag hsettings
  · rw [hnode]
    rcases hx with hx | hx | hx
    · simp [hx]
    · simp [(hbereft x).1 hx]
    · exact if_pos ((helided x).1 hx)
  · obtain ⟨hkept, hxy⟩ := not_goes_iff.1 hx
    rw [helided] at hxy
    refine ⟨((m.mapEdges (Edge.cut gone)).mapEdges (Edge.pass y (n.edgeAt side))).reparent y n.parent,
      ?_, rfl, rfl, ?_, fun side' => ?_⟩
    · rw [hnode, if_neg hxy, if_neg fun hgone => hkept ((hbereft x).2 hgone), live, Option.map_some,
        Option.map_some]
    · change t.Nearest _ x (if m.parent = some y then n.parent else m.parent)
      split
      · next linked =>
        -- The node came up into the place of the one that is elided.
        refine .up live linked (not_not_intro (.inr ((helided y).2 rfl))) ?_
        refine h.nearest_parent hk hy (fun hy' => hstays ((hbereft y).1 hy')) fun p hp hp' => ?_
        rw [(helided p).1 hp'] at hp
        exact h.not_above_self (.parent hy hp)
      · next hne =>
        refine h.nearest_parent hk live hkept fun p hp hp' => hne ?_
        rw [hp, (helided p).1 hp']
    · have hside : (((m.mapEdges (Edge.cut gone)).mapEdges
          (Edge.pass y (n.edgeAt side))).reparent y n.parent).edgeAt side' =
            Edge.pass y (n.edgeAt side) ((m.edgeAt side').cut gone) := by
        cases side' <;> rfl
      rw [hside]
      exact hedge _

end Stays

lemma preorder_removed_sublist (s : Shape Cell) (compress : Bool) (key : NodeKey) :
    (s.removed compress key).preorder.Sublist s.preorder := by
  rw [Shape.removed]
  split
  · exact (preorder_contract_sublist _).trans (preorder_prune_sublist _ s)
  · exact preorder_prune_sublist _ s

/-- What is left of the cells keeps its bits. -/
lemma Spans.incomingTag_removed {u : Tree} {compress : Bool} (h : t.Spans s)
    (hu : u.Spans (s.removed compress key)) (hlive : (u.node? x).isSome = true) :
    u.incomingTag x = t.incomingTag x := by
  obtain ⟨d, hd, rfl⟩ := List.mem_map.1 (hu.live x hlive)
  rw [hu.incomingTag_eq hd, h.incomingTag_eq ((preorder_removed_sublist s compress key).subset hd)]

/-- The loop starts from a tree that differs at the leaf alone. -/
lemma Spans.exists_pruned {v : Tree} {c c' : Cell} (hv : v.Spans (plug above (leaf c')))
    (hkey : c'.key = c.key) (hnode : ∀ x, x ≠ c.key → v.node? x = t.node? x) (hroot : v.root = t.root)
    (hsettings : v.settings = t.settings) :
    let gone := c.key :: wayUp (above.takeWhile fun f => f.beside.isEmpty)
    let rest := above.dropWhile fun f => f.beside.isEmpty
    ∃ w, Tree.prune v.size v c.key = (.ok (rest.head?.map fun f => f.item.key), w) ∧
      w.Spans (plug rest .empty) ∧ w.settings = t.settings ∧
      (∀ x, w.node? x = if x ∈ gone then none else (t.node? x).map (Node.mapEdges (Edge.cut gone))) ∧
      w.root = t.root.cut gone := by
  intro gone rest
  obtain ⟨hresult, hspans, hkept⟩ := hv.prune hv.length_lt_size
  obtain ⟨hnodes, hroots⟩ := hv.node?_prune hv.length_lt_size
  rw [hkey] at hresult hspans hkept hnodes hroots
  refine ⟨(Tree.prune v.size v c.key).2, Prod.ext hresult rfl, hspans, hkept.trans hsettings, fun x => ?_,
    hroot ▸ hroots⟩
  rw [hnodes]
  split
  · rfl
  · next hx => rw [hnode x fun e => hx (e ▸ List.mem_cons_self)]

theorem Shows.without {c : Cell} {u : Tree} (h : t.Shows s) (hc : c ∈ s.leaves)
    (htaken : (t.modify c.key ({ · with bookmark := none })).takeOut c.key = (.ok (), u))
    (hu : u.Shows (s.removed t.compress c.key)) (hsettings : u.settings = t.settings) :
    t.Without c.key u := by
  have htag := fun x => h.toSpans.incomingTag_removed hu.toSpans (x := x)
  have hk : t.IsLeaf c.key := by
    obtain ⟨n, live, hleaf, _⟩ := h.reads.node?_of_mem_leaves hc
    exact ⟨n, live, hleaf⟩
  have hspans := h.toSpans.edit c.key ({ · with bookmark := none }) ({ · with bookmark := none })
    (fun _ => ⟨rfl, rfl, rfl⟩) (fun _ _ => rfl) fun _ => rfl
  obtain ⟨above, rfl⟩ := exists_plug_of_mem_leaves hc
  rw [editAt_plug h.nodup] at hspans
  have hbereft := fun x => h.toSpans.bereft_iff (x := x)
  have helided := fun x => h.toSpans.elided_iff (x := x)
  have hnext := List.head?_dropWhile_not (fun f : Frame Cell => f.beside.isEmpty) above
  -- The leaf goes, so that it lost its bookmark before makes no difference.
  obtain ⟨w, hpruned, hw, hkept, hnode, hroot⟩ := hspans.exists_pruned (t := t) (c := c) rfl
    (fun x hx => node?_modify_of_ne t _ hx) rfl (settings_modify _ _ _)
  have hcompress : w.compress = t.compress := congrArg (·.1) hkept
  rw [Tree.takeOut, hpruned] at htaken
  generalize (above.dropWhile fun f => f.beside.isEmpty) = rest at *
  cases rest with
  | nil =>
    cases htaken
    exact h.toSpans.without_of_cut hk hbereft (fun x hx => by simpa using (helided x).1 hx) hnode hroot
      htag hsettings
  | cons f rest =>
    simp only [List.head?_cons, Option.map_some] at htaken hnext
    cases hcompresses : t.compress with
    | false =>
      rw [hcompress, hcompresses] at htaken
      cases htaken
      refine h.toSpans.without_of_cut hk hbereft (fun x hx => ?_) hnode hroot htag hsettings
      simp [((helided x).1 hx).1] at hcompresses
    | true =>
      rw [hcompress, hcompresses, if_pos rfl] at htaken
      obtain ⟨_, _, hspine, _⟩ := hw.reads.spine
      obtain ⟨m, _, _, _, _, hlive, _, _, _, _, hbeside⟩ := hspine.cons_inv
      obtain ⟨z, child⟩ : ∃ z, (m.edgeAt f.side.other).target = some z := by
        rw [hbeside.isEmpty_eq] at hnext
        simpa [Edge.isNull, Option.isSome_iff_exists] using hnext
      obtain ⟨hnodes, hroots⟩ := hw.node?_splice hnext hlive
      rw [htaken] at hnodes hroots
      rw [hnode] at hlive
      split at hlive
      · cases hlive
      · next hstays =>
        obtain ⟨n, live, rfl⟩ := Option.map_eq_some_iff.1 hlive
        rw [Node.edgeAt_mapEdges, Edge.target_cut] at child
        rw [Node.edgeAt_mapEdges, Edge.cut_of_not_mem child.1 child.2] at hnodes hroots
        refine h.toSpans.without_of_pass hk hbereft (fun x => ?_) live hstays child.1 child.2
          (fun x => ?_) (hroot ▸ hroots) htag hsettings
        · rw [helided, hcompresses, List.head?_cons, Option.map_some, Option.some.injEq]
          exact ⟨fun hx => hx.2.symm, fun hx => ⟨rfl, hx.symm⟩⟩
        · rw [hnodes, hnode]
          rfl

/-! ### Trees of runs -/

/-- What the calls on a tree lead to, as long as each of them succeeds, and the updates of searchers. The
engine may do anything with the paths in between. -/
inductive Arises : Tree → Prop
  | start (path : PathRef) (compress recorded : Bool) (pool : Pool) :
    Arises (start path compress recorded pool).1
  | call {t : Tree} (h : Arises t) (uses : Uses) (pool : Pool) (call : Session.Call)
    (hok : (call.onTree uses t pool).result = .ok ()) : Arises (call.onTree uses t pool).tree
  | retrack {t : Tree} (h : Arises t) (mask : Mask) (added removed : List NodeKey) :
    Arises (t.retrack mask added removed)

/-- Changing the bits on any edge keeps the invariant. -/
lemma Shows.modifyIncoming (h : t.Shows s) (key : NodeKey) (change : Mask → Mask) :
    ∃ s', (t.modifyIncoming key fun e => e.setTag (change e.tag)).Shows s' := by
  cases live : t.node? key with
  | none =>
    simp only [Tree.modifyIncoming, live]
    exact ⟨s, h⟩
  | some n =>
    obtain ⟨above, left, right, e, rfl, _⟩ := h.toSpans.exists_plug live
    have hspans : t.Spans (plug (⟨.left, .ofNode key e.tag n, right⟩ :: above) left) := h.toSpans
    refine ⟨_, h.of_untagged (hspans.retag change) ?_ (settings_modifyIncoming _ _ _)⟩
    rw [untagged, untagged, map_plug_map, map_plug_map]
    rfl

/-- An update keeps the invariant whatever keys it names. -/
lemma Shows.exists_retrack (h : t.Shows s) (mask : Mask) (added removed : List NodeKey) :
    ∃ s', (t.retrack mask added removed).Shows s' := by
  have hshown : ∃ s', t.Shows s' := ⟨s, h⟩
  refine retrack_keeps (P := fun t => ∃ s', t.Shows s') (fun t key ht => ?_) (fun t key ht => ?_) hshown
    added removed
  · obtain ⟨s', hs'⟩ := ht
    exact hs'.modifyIncoming key (· ||| mask)
  · obtain ⟨s', hs'⟩ := ht
    exact hs'.modifyIncoming key (· &&& ~~~mask)

lemma Arises.exists_shows (h : t.Arises) (hsmall : t.nodes.slots.size ≤ UInt32.size) :
    ∃ s, t.Shows s := by
  induction h with
  | start path compress recorded pool =>
    obtain ⟨_, _, hshows⟩ := shows_start path compress recorded pool
    exact ⟨_, hshows⟩
  | @call t h uses pool call hok ih =>
    obtain ⟨s, hs⟩ := ih (Nat.le_trans (keepsArena_onTree uses t pool call).slots_le hsmall)
    exact hs.onTree_using hok hsmall
  | @retrack t h mask added removed ih =>
    have hslots := congrArg (·.2.2.2.2) (settings_retrack mask t added removed)
    obtain ⟨s, hs⟩ := ih (Nat.le_trans (Nat.le_of_eq hslots.symm) hsmall)
    exact hs.exists_retrack mask added removed

/-- The end of a leaf while no path is in use: what goes is the leaf with the nodes above it that have no
other leaf below, and where the tree compresses the next node up. All else stays as it was. -/
theorem Arises.without_remove (h : t.Arises) (hsmall : t.nodes.slots.size ≤ UInt32.size)
    (live : t.node? key = some n) (hleaf : n.isLeaf = true) (pool : Pool) :
    (t.remove pool .none key).result = .ok (finalNote n.note (n.bookmark.bind pool.get?)) ∧
      t.Without key (t.remove pool .none key).tree := by
  obtain ⟨s, hs⟩ := h.exists_shows hsmall
  obtain ⟨c, hc, rfl⟩ := hs.toSpans.exists_leaf live hleaf
  obtain ⟨m, hlive, _, hbookmark, hnote⟩ := hs.reads.node?_of_mem_leaves hc
  cases live.symm.trans hlive
  obtain ⟨path, hpath⟩ := Option.isSome_iff_exists.1 (hs.bookmarked.of_mem_leaves hc)
  obtain ⟨u, heq, hu, hsettings⟩ := hs.remove hc hpath pool
  have hcall := remove_eq live hleaf pool
  rw [heq] at hcall ⊢
  simp only [Outcome.mk.injEq] at hcall
  obtain ⟨hresult, htree, _⟩ := hcall
  refine ⟨by rw [hbookmark, hpath, hnote]; rfl, hs.without hc (Prod.ext ?_ htree.symm) hu hsettings⟩
  cases htaken : ((t.modify c.key ({ · with bookmark := none })).takeOut c.key).1 with
  | ok => rfl
  | error =>
    rw [htaken] at hresult
    cases hresult

/-- Two forks and an update, and then the end of the leaf from the first fork. -/
theorem without_remove_beside_fork :
    let pool : Pool := ⟨#[some (.fresh ⟨7⟩), some (.fresh ⟨8⟩), some (.fresh ⟨9⟩)]⟩
    let first := (Session.Call.attach ⟨0, 0⟩ ⟨1⟩ ⟨0⟩ .conditional).onTree .none
      (start ⟨0⟩ true true pool).1 (start ⟨0⟩ true true pool).2
    let second := (Session.Call.attach ⟨2, 0⟩ ⟨2⟩ ⟨0⟩ .conditional).onTree .none first.tree first.pool
    let t := second.tree.retrack 1 [⟨3, 0⟩] []
    let n : Node := .leaf (some ⟨0, 0⟩) ⟨1⟩ (some (.fresh ⟨2⟩))
    t.Arises ∧ t.nodes.slots.size ≤ UInt32.size ∧ t.node? ⟨1, 0⟩ = some n ∧ n.isLeaf = true ∧
      (t.remove second.pool .none ⟨1, 0⟩).result = .ok (finalNote n.note (n.bookmark.bind second.pool.get?)) ∧
      t.Without ⟨1, 0⟩ (t.remove second.pool .none ⟨1, 0⟩).tree := by
  intro pool first second t n
  have harises : t.Arises :=
    .retrack (.call (.call (.start ⟨0⟩ true true pool) .none _ _ rfl) .none _ _ rfl) 1 _ _
  have hsmall : t.nodes.slots.size ≤ UInt32.size := by decide +kernel
  have live : t.node? ⟨1, 0⟩ = some n := by decide +kernel
  exact ⟨harises, hsmall, live, rfl, harises.without_remove hsmall live rfl second.pool⟩

end Tree

end ForkTree
