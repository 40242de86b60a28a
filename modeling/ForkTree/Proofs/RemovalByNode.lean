import ForkTree.Proofs.Ancestry

/-!
A removal node by node. Wherever the loop ends, the edges to the nodes that it took are cut and nothing
else has changed (`Spans.node?_prune`). Where a node is elided then, edges that led to it pass on to its
child, whose parent is the one above (`Spans.node?_splice`).
-/

namespace ForkTree

open Shape

/-- The edge once nodes are gone, as one to nowhere if it led to any of them. -/
def Edge.cut (gone : List NodeKey) (e : Edge) : Edge := if e.target.any (· ∈ gone) then .null else e

/-- The edge, or another one in its place if it leads to the node. -/
def Edge.pass (key : NodeKey) (through : Edge) (e : Edge) : Edge :=
  if e.target = some key then through else e

def Node.mapEdges (change : Edge → Edge) (n : Node) : Node :=
  { n with left := change n.left, right := change n.right }

/-- The node with another parent if it was below the one named. -/
def Node.reparent (key : NodeKey) (other : Option NodeKey) (n : Node) : Node :=
  { n with parent := if n.parent = some key then other else n.parent }

lemma Edge.pass_of_ne {e : Edge} {key : NodeKey} (h : e.target ≠ some key) (through : Edge) :
    Edge.pass key through e = e := if_neg h

lemma Edge.cut_singleton (key : NodeKey) (e : Edge) : e.cut [key] = Edge.pass key .null e := by
  rw [cut, pass]
  cases h : e.target <;> simp

lemma Edge.cut_of_null {e : Edge} (null : e.target = none) (gone : List NodeKey) : e.cut gone = e := by
  simp [cut, null]

lemma Edge.cut_of_not_mem {e : Edge} {gone : List NodeKey} {key : NodeKey} (target : e.target = some key)
    (h : key ∉ gone) : e.cut gone = e := by
  simp [cut, target, h]

lemma Edge.cut_of_mem {e : Edge} {gone : List NodeKey} {key : NodeKey} (target : e.target = some key)
    (h : key ∈ gone) : e.cut gone = .null := by
  simp [cut, target, h]

lemma Edge.target_cut {e : Edge} {gone : List NodeKey} {key : NodeKey} :
    (e.cut gone).target = some key ↔ e.target = some key ∧ key ∉ gone := by
  rw [cut]
  cases he : e.target with
  | none => simp [he]
  | some y =>
    by_cases hy : y ∈ gone
    · simp only [Option.any_some, hy, decide_true, if_true, Option.some.injEq]
      constructor
      · intro e
        cases e
      · rintro ⟨rfl, hnot⟩
        exact absurd hy hnot
    · simp only [Option.any_some, hy, decide_false, Bool.false_eq_true, if_false, he]
      refine ⟨fun e => ⟨e, ?_⟩, And.left⟩
      rw [← Option.some.inj e]
      exact hy

lemma Edge.cut_comp (key : NodeKey) (gone : List NodeKey) :
    Edge.cut gone ∘ Edge.cut [key] = Edge.cut (key :: gone) := by
  funext e
  rw [Function.comp_apply]
  cases h : e.target with
  | none => simp [cut, h]
  | some y =>
    by_cases hy : y = key
    · simp [cut, h, hy, Edge.null]
    · simp [cut, h, hy]

namespace Node

variable {n : Node} {key : NodeKey}

@[simp]
lemma edgeAt_mapEdges (n : Node) (change : Edge → Edge) (side : Side) :
    (n.mapEdges change).edgeAt side = change (n.edgeAt side) := by
  cases side <;> rfl

lemma mapEdges_comp (f g : Edge → Edge) : mapEdges g ∘ mapEdges f = mapEdges (g ∘ f) := rfl

lemma mapEdges_eq_self {change : Edge → Edge} (h : ∀ side, change (n.edgeAt side) = n.edgeAt side) :
    n.mapEdges change = n := by
  have hl := h .left
  have hr := h .right
  simp only [edgeAt] at hl hr
  rw [mapEdges, hl, hr]

lemma reparent_of_ne {p : NodeKey} (h : n.parent ≠ some p) (other : Option NodeKey) :
    n.reparent p other = n := by
  rw [reparent, if_neg h]

lemma modifyEdgeTo_reparent (n : Node) (p : NodeKey) (other : Option NodeKey) (change : Edge → Edge) :
    (n.reparent p other).modifyEdgeTo key change = (n.modifyEdgeTo key change).reparent p other := by
  cases hl : n.left.pointsTo key <;> cases hr : n.right.pointsTo key <;>
    simp [modifyEdgeTo, reparent, hl, hr]

lemma modifyEdgeTo_eq_mapEdges {side : Side} (target : (n.edgeAt side).target = some key)
    (hother : (n.edgeAt side.other).target ≠ some key) (through : Edge) :
    n.modifyEdgeTo key (fun _ => through) = n.mapEdges (Edge.pass key through) := by
  unfold modifyEdgeTo mapEdges
  cases side with
  | left =>
    simp only [edgeAt, Side.other] at target hother
    simp [Edge.pointsTo, target, Edge.pass, hother]
  | right =>
    simp only [edgeAt, Side.other] at target hother
    simp [Edge.pointsTo, target, Edge.pass, hother]

end Node

namespace Tree

variable {t : Tree} {s : Shape Cell} {key x : NodeKey} {n m : Node} {above : List (Frame Cell)}

/-- Only the parent of a node has an edge to it, and only one. -/
lemma Spans.mapEdges_pass (h : t.Spans s) (live : t.node? key = some n) (hlive : t.node? x = some m)
    (through : Edge) :
    m.mapEdges (Edge.pass key through) =
      if n.parent = some x then m.modifyEdgeTo key fun _ => through else m := by
  split
  · next linked =>
    obtain ⟨m', side, hlive', target⟩ := h.exists_edge live linked
    cases hlive.symm.trans hlive'
    refine (Node.modifyEdgeTo_eq_mapEdges target ?_ through).symm
    obtain ⟨_, left, right, e, rfl, _, _, hleft, hright⟩ := h.exists_plug hlive
    have hnodup := (nodup_keys_plug.1 h.nodup).1
    rw [keys_node, List.nodup_cons, List.nodup_append] at hnodup
    intro hother
    cases side with
    | left => exact hnodup.2.2.2 key (hleft.target_mem target) key (hright.target_mem hother) rfl
    | right => exact hnodup.2.2.2 key (hleft.target_mem hother) key (hright.target_mem target) rfl
  · next hne =>
    refine Node.mapEdges_eq_self fun side => Edge.pass_of_ne (fun target => hne ?_) through
    obtain ⟨n', live', linked⟩ := h.parent_of_target hlive target
    cases live.symm.trans live'
    exact linked

lemma Spans.root_pass (h : t.Spans s) (live : t.node? key = some n) (through : Edge) :
    Edge.pass key through t.root = if n.parent = none then through else t.root := by
  split
  · next linked =>
    obtain ⟨_, _, _, _, _, hspine, target, _⟩ := h.exists_plug live
    rw [linked] at hspine
    cases hspine
    exact if_pos target
  · next hne =>
    refine Edge.pass_of_ne (fun target => hne ?_) through
    obtain ⟨n', live', linked⟩ := h.parent_of_root target
    cases live.symm.trans live'
    exact linked

/-! ### Node by node -/

section Prune

variable {f : Frame Cell} {c : Cell}

lemma Spans.node?_erase_leaf (h : t.Spans (plug (f :: above) (leaf c)))
    (hlive : (t.erase c.key).node? f.item.key = some m) (x : NodeKey) :
    ((t.erase c.key).modify f.item.key fun _ => m.modifyEdgeTo c.key fun _ => .null).node? x =
      if x = c.key then none else (t.node? x).map (Node.mapEdges (Edge.cut [c.key])) := by
  obtain ⟨parent, _, hspine, hleaf⟩ := h.reads.spine
  obtain ⟨n, _, live, linked, _⟩ := hleaf.node_inv
  obtain ⟨_, _, _, hparent, _⟩ := hspine.cons_inv
  rw [hparent] at linked
  have hcut : Edge.cut [c.key] = Edge.pass c.key .null := funext (Edge.cut_singleton c.key)
  have hne : f.item.key ≠ c.key := by
    intro e
    rw [e, node?_erase, if_pos rfl] at hlive
    cases hlive
  rw [node?_erase_of_ne t hne] at hlive
  rw [node?_modify, hcut]
  by_cases hx : x = c.key
  · rw [if_neg (hx ▸ hne.symm), hx, node?_erase, if_pos rfl, if_pos rfl]
  · rw [if_neg hx, node?_erase_of_ne t hne, node?_erase_of_ne t hx]
    by_cases hxf : x = f.item.key
    · rw [if_pos hxf, hxf, hlive, Option.map_some, Option.map_some, h.mapEdges_pass live hlive,
        if_pos linked]
    · rw [if_neg hxf]
      cases hm : t.node? x with
      | none => rfl
      | some m' =>
        rw [Option.map_some, h.mapEdges_pass live hm, if_neg]
        rw [linked]
        exact fun e => hxf (Option.some.inj e).symm

/-- The loop takes the leaf and the frames with nothing beside the hole, and cuts the edges to them. -/
lemma Spans.node?_prune {fuel : Nat} (h : t.Spans (plug above (leaf c))) (hfuel : above.length < fuel) :
    let gone := c.key :: wayUp (above.takeWhile fun f => f.beside.isEmpty)
    (∀ x, (Tree.prune fuel t c.key).2.node? x =
        if x ∈ gone then none else (t.node? x).map (Node.mapEdges (Edge.cut gone))) ∧
      (Tree.prune fuel t c.key).2.root = t.root.cut gone := by
  induction above generalizing t c fuel with
  | nil =>
    obtain ⟨fuel, rfl⟩ : ∃ n, fuel = n + 1 := ⟨fuel - 1, by omega⟩
    obtain ⟨n, target, live, linked, _⟩ := h.reads.node_inv
    simp only [Tree.prune, live, Option.bind_some, linked, List.takeWhile_nil, wayUp_nil,
      List.mem_singleton]
    refine ⟨fun x => ?_, (Edge.cut_of_mem target List.mem_cons_self).symm⟩
    change (t.erase c.key).node? x = _
    rw [node?_erase]
    split
    · rfl
    · next hx =>
      cases hlive : t.node? x with
      | none => rfl
      | some m =>
        have hmem := h.live x (by rw [hlive]; rfl)
        exact absurd (List.mem_singleton.1 hmem) hx
  | cons f above ih =>
    obtain ⟨fuel, rfl⟩ : ∃ n, fuel = n + 1 := ⟨fuel - 1, by omega⟩
    obtain ⟨m, hparent, hlive, hleaf, hspans⟩ := h.erase_leaf
    have hnode := h.node?_erase_leaf hlive
    have hroot : t.root.cut [c.key] = t.root := by
      obtain ⟨n, live, linked⟩ := Option.bind_eq_some_iff.1 hparent
      rw [Edge.cut_singleton, h.root_pass live, if_neg (by simp [linked])]
    simp only [Tree.prune, hparent, hlive, hleaf]
    cases hbeside : f.beside.isEmpty with
    | false =>
      simp only [List.takeWhile_cons, hbeside, Bool.false_eq_true, if_false, wayUp_nil,
        List.mem_singleton]
      exact ⟨hnode, hroot.symm⟩
    | true =>
      have hclose : f.close .empty = leaf f.item := by
        unfold Frame.close
        rw [isEmpty_iff.1 hbeside]
        cases f.side <;> rfl
      rw [plug, hclose] at hspans
      obtain ⟨hnodes, hroots⟩ := ih hspans (Nat.lt_of_succ_lt_succ hfuel)
      simp only [List.takeWhile_cons, hbeside, if_true, wayUp_cons]
      refine ⟨fun x => ?_, ?_⟩
      · rw [hnodes, hnode]
        by_cases hx : x = c.key
        · simp [hx]
        · simp only [List.mem_cons (a := x) (b := c.key), hx, false_or, if_false]
          split
          · rfl
          · rw [Option.map_map, Node.mapEdges_comp, Edge.cut_comp]
      · rw [hroots, ← Edge.cut_comp c.key, Function.comp_apply, hroot]
        rfl

end Prune

/-- A node gives its place to what is beside its empty hole. -/
lemma Spans.node?_splice {f : Frame Cell} (h : t.Spans (plug (f :: above) .empty))
    (hbeside : f.beside.isEmpty = false) (live : t.node? f.item.key = some n) :
    let through := n.edgeAt f.side.other
    (∀ x, (t.splice f.item.key).2.node? x =
        if x = f.item.key then none
        else (t.node? x).map fun m =>
          (m.mapEdges (Edge.pass f.item.key through)).reparent f.item.key n.parent) ∧
      (t.splice f.item.key).2.root = Edge.pass f.item.key through t.root := by
  intro through
  obtain ⟨parent, e, hspine, hempty⟩ := h.reads.spine
  obtain ⟨n', grandparent, edge, rfl, rfl, live', linked, target, _, habove, hread⟩ := hspine.cons_inv
  cases live.symm.trans live'
  subst linked
  have hnull : (n.edgeAt f.side).isNull = true := by
    rw [← hempty.isEmpty_eq]
    rfl
  have hkept : through.isNull = false := by rw [← hread.isEmpty_eq, hbeside]
  obtain ⟨child, hchild⟩ : ∃ child, through.target = some child := by
    simpa [Edge.isNull, Option.isSome_iff_exists] using hkept
  obtain ⟨m, hlive, hlinked⟩ := h.parent_of_target live hchild
  -- No other node hangs from the one that goes.
  have hself : ∀ x m, t.node? x = some m → m.parent = some f.item.key → x = child := by
    intro x m hm hp
    obtain ⟨n', side, live', hto⟩ := h.exists_edge hm hp
    cases live.symm.trans live'
    have hside : side = f.side ∨ side = f.side.other := by
      cases side <;> cases f.side <;> simp [Side.other]
    rcases hside with rfl | rfl
    · simp [Edge.isNull, hto] at hnull
    · exact Option.some.inj (hto.symm.trans hchild)
  have hbypass : ∀ x, (t.bypass f.item.key n child).node? x =
      if x = f.item.key then none else (t.node? x).map (Node.reparent f.item.key n.parent) := by
    intro x
    obtain ⟨m, hlive, hlinked⟩ := h.parent_of_target live hchild
    have hne : child ≠ f.item.key := by
      rintro rfl
      exact h.not_above_self (.parent hlive hlinked)
    rw [Tree.bypass, node?_modify, node?_erase_of_ne t hne, node?_erase]
    by_cases hx : x = child
    · rw [if_pos hx, if_neg (hx ▸ hne), hx, hlive]
      simp [Node.reparent, hlinked]
    · rw [if_neg hx]
      split
      · rfl
      · cases hm : t.node? x with
        | none => rfl
        | some m' => rw [Option.map_some, Node.reparent_of_ne fun hp => hx (hself x m' hm hp)]
  cases hparent : n.parent with
  | none =>
    rw [splice_root live hnull hkept hchild hparent, h.root_pass live, if_pos hparent]
    refine ⟨fun x => ?_, rfl⟩
    change (t.bypass f.item.key n child).node? x = _
    rw [hbypass, hparent]
    split
    · rfl
    · cases hm : t.node? x with
      | none => rfl
      | some m =>
        rw [Option.map_some, Option.map_some, h.mapEdges_pass live hm, if_neg (by simp [hparent])]
  | some p =>
    obtain ⟨m, _, hlive, _⟩ := h.exists_edge live hparent
    have hne : p ≠ f.item.key := by
      rintro rfl
      exact h.not_above_self (.parent live hparent)
    have hp : (t.bypass f.item.key n child).node? p = some (m.reparent f.item.key n.parent) := by
      rw [hbypass, if_neg hne, hlive, Option.map_some]
    rw [splice_below live hnull hkept hchild hparent hp, h.root_pass live,
      if_neg (by simp [hparent])]
    refine ⟨fun x => ?_, rfl⟩
    rw [node?_modify, hp, hbypass, hparent]
    by_cases hx : x = p
    · rw [if_pos hx, if_neg (hx ▸ hne), hx, hlive, Option.map_some, Option.map_some,
        h.mapEdges_pass live hlive, if_pos hparent, Node.modifyEdgeTo_reparent]
    · rw [if_neg hx]
      split
      · rfl
      · cases hm : t.node? x with
        | none => rfl
        | some m' =>
          rw [Option.map_some, Option.map_some, h.mapEdges_pass live hm, if_neg]
          rw [hparent]
          exact fun e => hx (Option.some.inj e).symm

end Tree

end ForkTree
