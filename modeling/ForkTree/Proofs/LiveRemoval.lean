import ForkTree.Proofs.LiveCells

/-!
What removing a leaf does to the cells of a tree. Each turn of the loop takes the leaf in the hole away
and leaves the frame above it with nothing there (`Spans.erase_leaf`), so the loop ends at the first
frame with something beside the hole, which is where `Shape.prune` ends too (`Spans.prune`). A tree that
compresses then elides the node there: once its single child points past it (`Spans.bypass`), the edge
into the node is all that is left to redirect (`Bridges.redirect`), and the child has its place
(`Spans.splice`). In a tree of any form either stops only at a dead node, and then the root edge is still
the same (`takesOut_prune`, `takesOut_splice`).
-/

namespace ForkTree

open Shape

namespace Tree

/-- The cells are all the live nodes, each in one place. -/
structure Spans (t : Tree) (s : Shape Cell) : Prop where
  valid : t.nodes.IsValid
  reads : t.Reads none t.root s
  nodup : s.keys.Nodup
  live : ∀ key, (t.node? key).isSome → key ∈ s.keys
  size_eq : t.size = s.size

/-- What a removal leaves alone. -/
def settings (t : Tree) : Bool × Bool × UInt64 × Masks × Nat :=
  (t.compress, t.recorded, t.nextId, t.masks, t.nodes.slots.size)

@[simp]
lemma settings_modify (t : Tree) (key : NodeKey) (change : Node → Node) :
    (t.modify key change).settings = t.settings := by
  simp [settings, modify]

@[simp]
lemma settings_erase (t : Tree) (key : NodeKey) : (t.erase key).settings = t.settings := by
  simp [settings, erase]

@[simp]
lemma size_modify (t : Tree) (key : NodeKey) (change : Node → Node) :
    (t.modify key change).size = t.size := by
  simp [size, modify]

lemma size_erase {t : Tree} {key : NodeKey} {n : Node} (h : t.node? key = some n) :
    (t.erase key).size = t.size - 1 :=
  Arena.size_remove h

/-- A change of a live node only depends on what it makes of that node. -/
lemma modify_eq {t : Tree} {key : NodeKey} {n : Node} (h : t.node? key = some n)
    {change change' : Node → Node} (heq : change n = change' n) :
    t.modify key change = t.modify key change' := by
  have h' : t.nodes.get? key = some n := h
  simp only [modify, Arena.modify, h', heq]

lemma isSome_node?_modify (t : Tree) (key other : NodeKey) (change : Node → Node) :
    ((t.modify key change).node? other).isSome = (t.node? other).isSome := by
  rw [node?_modify]
  split
  · next h => rw [h, Option.isSome_map]
  · rfl

lemma Spans.erase_root {t : Tree} {c : Cell} (h : t.Spans (leaf c)) :
    { t.erase c.key with root := .null }.Spans .empty where
  valid := h.valid.remove c.key
  reads := .nowhere rfl
  nodup := .nil
  live := by
    intro key hkey
    have hnode : ({ t.erase c.key with root := .null } : Tree).node? key = (t.erase c.key).node? key :=
      rfl
    rw [hnode, node?_erase] at hkey
    split at hkey
    · cases hkey
    · next hne =>
      have := h.live key hkey
      rw [keys_leaf, List.mem_singleton] at this
      exact absurd this hne
  size_eq := by
    obtain ⟨n, _, live, _⟩ := h.reads.node_inv
    have hsize := h.size_eq
    simp only [leaf, Shape.size] at hsize
    change (t.erase c.key).size = 0
    rw [size_erase live, hsize]

/-- Under a frame a leaf has a live parent, which has a single child less once the leaf is gone. -/
lemma Spans.erase_leaf {t : Tree} {f : Frame Cell} {above : List (Frame Cell)} {c : Cell}
    (h : t.Spans (plug (f :: above) (leaf c))) :
    ∃ m, (t.node? c.key).bind Node.parent = some f.item.key ∧
      (t.erase c.key).node? f.item.key = some m ∧
      (m.modifyEdgeTo c.key fun _ => .null).isLeaf = f.beside.isEmpty ∧
      ((t.erase c.key).modify f.item.key fun _ => m.modifyEdgeTo c.key fun _ => .null).Spans
        (plug (f :: above) .empty) := by
  obtain ⟨parent, e, hspine, hleaf⟩ := h.reads.spine
  obtain ⟨n, target, live, linked, _⟩ := hleaf.node_inv
  obtain ⟨m, _, _, rfl, rfl, hlive, _, _, _, _, hbeside⟩ := hspine.cons_inv
  have hnodup := nodup_keys_plug.1 h.nodup
  have hc : c.key ∉ keysAround (f :: above) := hnodup.2.2 _ (by simp)
  have haround := hc
  simp only [keysAround_cons, List.cons_append, List.mem_cons, List.mem_append, not_or] at hc
  obtain ⟨hcf, hcbeside, _⟩ := hc
  have herase : (t.erase c.key).node? f.item.key = some m := by
    rw [node?_erase_of_ne t (Ne.symm hcf), hlive]
  have hother : (m.edgeAt f.side.other).target ≠ some c.key := fun hto =>
    hcbeside (hbeside.target_mem hto)
  have hspine' := hspine.congr (u := t.erase c.key) rfl fun key hk =>
    node?_erase_of_ne t fun e => haround (e ▸ hk)
  have hhole := hspine'.redirect hnodup.2.1 target hcbeside fun _ => .null
  have hconst : ((t.erase c.key).modify f.item.key fun n => n.modifyEdgeTo c.key fun _ => .null) =
      (t.erase c.key).modify f.item.key fun _ => m.modifyEdgeTo c.key fun _ => .null :=
    modify_eq herase rfl
  rw [hconst] at hhole
  refine ⟨m, by rw [live]; exact linked, herase, ?_, ?_⟩
  · obtain ⟨hside, hkept⟩ := Node.modifyEdgeTo_spec (fun _ => Edge.null) target hother
    rw [Node.isLeaf_eq _ f.side, hside, hkept, ← hbeside.isEmpty_eq]
    rfl
  · refine ⟨(h.valid.remove _).modify _ _, hhole.plug (.nowhere rfl), ?_, ?_, ?_⟩
    · exact nodup_keys_plug.2 ⟨.nil, hnodup.2.1, by simp⟩
    · intro key hkey
      rw [isSome_node?_modify, node?_erase] at hkey
      split at hkey
      · cases hkey
      · next hne =>
        rcases mem_keys_plug.1 (h.live key hkey) with hk | hk
        · rw [keys_leaf, List.mem_singleton] at hk
          exact absurd hk hne
        · exact mem_keys_plug.2 (.inr hk)
    · have hsize := h.size_eq
      rw [size_plug] at hsize ⊢
      rw [size_modify, size_erase live, hsize]
      exact (Nat.add_sub_cancel_left 1 _).trans (Nat.zero_add _).symm

/-- The loop takes the frames off that have nothing beside the hole. -/
lemma Spans.prune {t : Tree} {above : List (Frame Cell)} {c : Cell} {fuel : Nat}
    (h : t.Spans (plug above (leaf c))) (hfuel : above.length < fuel) :
    let rest := above.dropWhile fun f => f.beside.isEmpty
    (Tree.prune fuel t c.key).1 = .ok (rest.head?.map fun f => f.item.key) ∧
      (Tree.prune fuel t c.key).2.Spans (plug rest .empty) ∧
      (Tree.prune fuel t c.key).2.settings = t.settings := by
  induction above generalizing t c fuel with
  | nil =>
    obtain ⟨fuel, rfl⟩ : ∃ n, fuel = n + 1 := ⟨fuel - 1, by omega⟩
    obtain ⟨n, _, live, linked, _⟩ := h.reads.node_inv
    simp only [Tree.prune, live, Option.bind_some, linked]
    exact ⟨rfl, h.erase_root, settings_erase t c.key⟩
  | cons f above ih =>
    obtain ⟨fuel, rfl⟩ : ∃ n, fuel = n + 1 := ⟨fuel - 1, by omega⟩
    obtain ⟨m, hparent, hlive, hleaf, hspans⟩ := h.erase_leaf
    simp only [Tree.prune, hparent, hlive, hleaf]
    cases hbeside : f.beside.isEmpty with
    | false =>
      simp only [List.dropWhile_cons, hbeside, Bool.false_eq_true, if_false]
      exact ⟨rfl, hspans, by simp⟩
    | true =>
      -- With nothing on either side the frame has become a leaf, which is the next one to go.
      have hclose : f.close .empty = leaf f.item := by
        unfold Frame.close
        rw [isEmpty_iff.1 hbeside]
        cases f.side <;> rfl
      rw [plug, hclose] at hspans
      have hlength : above.length < fuel := by
        rw [List.length_cons] at hfuel
        omega
      obtain ⟨hresult, htree, hsettings⟩ := ih hspans hlength
      simp only [List.dropWhile_cons, hbeside, if_true]
      exact ⟨hresult, htree, by rw [hsettings]; simp⟩

lemma Reads.reparent {t : Tree} {parent : Option NodeKey} {e : Edge} {s : Shape Cell}
    {child : NodeKey} (h : t.Reads parent e s) (hnodup : s.keys.Nodup)
    (target : e.target = some child) (other : Option NodeKey) :
    (t.modify child ({ · with parent := other })).Reads other e s := by
  cases h with
  | nowhere null =>
    rw [null] at target
    cases target
  | @node _ _ key n left right hto live linked hleft hright =>
    rw [hto] at target
    cases target
    rw [keys_node, List.nodup_cons, List.mem_append, not_or] at hnodup
    have hne : ∀ k, k ≠ child → (t.modify child ({ · with parent := other })).node? k = t.node? k :=
      fun k hk => node?_modify_of_ne t _ hk
    have hnode : (t.modify child ({ · with parent := other })).node? child =
        some { n with parent := other } := by
      rw [node?_modify, if_pos rfl, live]
      rfl
    have hread := Reads.node (n := { n with parent := other }) hto hnode rfl
      (hleft.congr fun k hk => hne k fun e => hnodup.1.1 (e ▸ hk))
      (hright.congr fun k hk => hne k fun e => hnodup.1.2 (e ▸ hk))
    exact hread

/-- The tree once a node is gone and its child points past it. -/
def bypass (t : Tree) (key : NodeKey) (n : Node) (child : NodeKey) : Tree :=
  (t.erase key).modify child ({ · with parent := n.parent })

@[simp]
lemma settings_bypass (t : Tree) (key : NodeKey) (n : Node) (child : NodeKey) :
    (t.bypass key n child).settings = t.settings := by
  rw [bypass, settings_modify, settings_erase]

/-- The frames lead to a hole by the edge `e`, what belongs there stands behind the edge `through`, and
there is nothing else. -/
structure Bridges (t : Tree) (above : List (Frame Cell)) (parent : Option NodeKey) (e through : Edge)
    (s : Shape Cell) : Prop where
  valid : t.nodes.IsValid
  spine : t.Spine above parent e
  reads : t.Reads parent through s
  nodup : (plug above s).keys.Nodup
  live : ∀ key, (t.node? key).isSome → key ∈ (plug above s).keys
  size_eq : t.size = (plug above s).size

lemma Bridges.redirect_root {t : Tree} {parent : Option NodeKey} {e through : Edge} {s : Shape Cell}
    (h : t.Bridges [] parent e through s) : { t with root := through }.Spans s where
  valid := h.valid
  reads := by
    cases h.spine
    exact h.reads.congr fun _ _ => rfl
  nodup := h.nodup
  live := h.live
  size_eq := h.size_eq

lemma Bridges.redirect {t : Tree} {f : Frame Cell} {above : List (Frame Cell)} {parent : Option NodeKey}
    {e through : Edge} {s : Shape Cell} {key : NodeKey} (h : t.Bridges (f :: above) parent e through s)
    (target : e.target = some key) (hkey : key ∉ f.beside.keys) :
    (t.modify f.item.key fun n => n.modifyEdgeTo key fun _ => through).Spans (plug (f :: above) s) := by
  obtain ⟨_, hnodup, hdisjoint⟩ := nodup_keys_plug.1 h.nodup
  have hspine := h.spine.redirect hnodup target hkey fun _ => through
  have hself : f.item.key ∈ keysAround (f :: above) := by
    rw [keysAround_cons]
    exact List.mem_cons_self
  refine ⟨h.valid.modify _ _, hspine.plug (h.reads.congr fun k hk => ?_), h.nodup, ?_, ?_⟩
  · exact node?_modify_of_ne t _ fun e => hdisjoint k hk (e ▸ hself)
  · intro k hk
    rw [isSome_node?_modify] at hk
    exact h.live k hk
  · rw [size_modify]
    exact h.size_eq

/-- Past a node whose hole is empty, what is beside the hole can take its place. -/
lemma Spans.bypass {t : Tree} {f : Frame Cell} {above : List (Frame Cell)} {n : Node} {e : Edge}
    {child : NodeKey} (h : t.Spans (plug (f :: above) .empty)) (live : t.node? f.item.key = some n)
    (hspine : t.Spine above n.parent e)
    (hreads : t.Reads (some f.item.key) (n.edgeAt f.side.other) f.beside)
    (hchild : (n.edgeAt f.side.other).target = some child) :
    (t.bypass f.item.key n child).Bridges above n.parent e (n.edgeAt f.side.other) f.beside := by
  have hmem : child ∈ f.beside.keys := hreads.target_mem hchild
  have hnodup := (nodup_keys_plug.1 h.nodup).2.1
  simp only [keysAround_cons, List.cons_append, List.nodup_cons, List.mem_append, not_or,
    List.nodup_append] at hnodup
  obtain ⟨⟨hself, hfar⟩, hbeside, habove, hdisjoint⟩ := hnodup
  refine ⟨(h.valid.remove _).modify _ _, hspine.congr rfl fun key hk => ?_, ?_, ?_, ?_, ?_⟩
  · have hne : key ≠ f.item.key := fun e => hfar (e ▸ hk)
    rw [Tree.bypass, node?_modify_of_ne _ _ fun e => hdisjoint child hmem key hk e.symm,
      node?_erase_of_ne t hne]
  · refine (hreads.congr fun key hk => ?_).reparent hbeside hchild n.parent
    exact node?_erase_of_ne t fun e => hself (e ▸ hk)
  · exact nodup_keys_plug.2 ⟨hbeside, habove, fun key hk hk' => hdisjoint key hk key hk' rfl⟩
  · intro key hkey
    rw [Tree.bypass, isSome_node?_modify, node?_erase] at hkey
    split at hkey
    · cases hkey
    · next hne =>
      have hbefore := h.live key hkey
      rw [mem_keys_plug, keysAround_cons] at hbefore
      rw [mem_keys_plug]
      simp only [keys_empty, List.not_mem_nil, false_or, List.cons_append, List.mem_cons,
        List.mem_append] at hbefore
      tauto
  · have hsize := h.size_eq
    rw [size_plug, around_cons, List.cons_append, List.length_cons, List.length_append,
      ← size_eq_length, ← Nat.add_assoc] at hsize
    rw [Tree.bypass, size_modify, size_erase live, hsize, size_plug, Nat.add_sub_cancel]
    exact Nat.zero_add _

section Splice

variable {t : Tree} {key child : NodeKey} {n : Node} {side : Side}

lemma splice_root (live : t.node? key = some n) (hnull : (n.edgeAt side).isNull = true)
    (hkept : (n.edgeAt side.other).isNull = false) (hchild : (n.edgeAt side.other).target = some child)
    (hparent : n.parent = none) :
    t.splice key = (.ok (), { t.bypass key n child with root := n.edgeAt side.other }) := by
  obtain ⟨hsingle, hedge⟩ := Node.hasSingleChild_of_isNull hnull hkept
  simp only [splice, live, hsingle, hedge, hchild, hparent, bypass, Bool.not_true, Bool.false_eq_true,
    if_false]

lemma splice_below {parent : NodeKey} {m : Node} (live : t.node? key = some n)
    (hnull : (n.edgeAt side).isNull = true) (hkept : (n.edgeAt side.other).isNull = false)
    (hchild : (n.edgeAt side.other).target = some child) (hparent : n.parent = some parent)
    (hlive : (t.bypass key n child).node? parent = some m) :
    t.splice key = (.ok (), (t.bypass key n child).modify parent fun p =>
      p.modifyEdgeTo key fun _ => n.edgeAt side.other) := by
  obtain ⟨hsingle, hedge⟩ := Node.hasSingleChild_of_isNull hnull hkept
  rw [bypass, hparent] at hlive
  simp only [splice, live, hsingle, hedge, hchild, hparent, hlive, bypass, Bool.not_true,
    Bool.false_eq_true, if_false]

end Splice

/-- A node whose hole is empty gives its place to what is beside the hole. -/
lemma Spans.splice {t : Tree} {f : Frame Cell} {above : List (Frame Cell)}
    (h : t.Spans (plug (f :: above) .empty)) (hbeside : f.beside.isEmpty = false) :
    (t.splice f.item.key).1 = .ok () ∧ (t.splice f.item.key).2.Spans (plug above f.beside) ∧
      (t.splice f.item.key).2.settings = t.settings := by
  obtain ⟨parent, e, hspine, hempty⟩ := h.reads.spine
  obtain ⟨n, grandparent, edge, rfl, rfl, live, linked, target, _, habove, hread⟩ := hspine.cons_inv
  subst linked
  have hnull : (n.edgeAt f.side).isNull = true := by
    rw [← hempty.isEmpty_eq]
    rfl
  have hkept : (n.edgeAt f.side.other).isNull = false := by rw [← hread.isEmpty_eq, hbeside]
  obtain ⟨child, hchild⟩ : ∃ child, (n.edgeAt f.side.other).target = some child := by
    simpa [Edge.isNull, Option.isSome_iff_exists] using hkept
  have hbridges := h.bypass live habove hread hchild
  cases above with
  | nil =>
    have hparent : n.parent = none := by
      generalize n.parent = parent at habove
      cases habove
      rfl
    rw [splice_root live hnull hkept hchild hparent]
    exact ⟨rfl, hbridges.redirect_root, settings_bypass t f.item.key n child⟩
  | cons g above =>
    obtain ⟨m, _, _, hparent, _, hlive, _⟩ := hbridges.spine.cons_inv
    have hfree : f.item.key ∉ g.beside.keys := by
      have hnodup := (nodup_keys_plug.1 h.nodup).2.1
      rw [keysAround_cons, List.cons_append, List.nodup_cons, keysAround_cons] at hnodup
      exact fun hk => hnodup.1 (List.mem_append_right _
        (List.mem_cons_of_mem _ (List.mem_append_left _ hk)))
    rw [splice_below live hnull hkept hchild hparent hlive]
    exact ⟨rfl, hbridges.redirect target hfree, by simp⟩

/-! ### Any trees -/

/-- What taking nodes out makes of a tree, also where it stops at a dead node. -/
structure TakesOut {α : Type} (t : Tree) (result : Except Fault α) (u : Tree) : Prop where
  valid : t.nodes.IsValid → u.nodes.IsValid
  settings_eq : u.settings = t.settings
  stopped : ∀ fault, result = .error fault → (∃ p, fault = .dead p) ∧ u.root = t.root

lemma TakesOut.of_ok {α : Type} {t u : Tree} {a : α} (hvalid : t.nodes.IsValid → u.nodes.IsValid)
    (hsettings : u.settings = t.settings) : t.TakesOut (.ok a) u :=
  ⟨hvalid, hsettings, nofun⟩

/-- Taking more out of what is left. -/
lemma TakesOut.after {α : Type} {t u v : Tree} {result : Except Fault α} (h : u.TakesOut result v)
    (hvalid : t.nodes.IsValid → u.nodes.IsValid) (hsettings : u.settings = t.settings)
    (hroot : u.root = t.root) : t.TakesOut result v :=
  ⟨h.valid ∘ hvalid, h.settings_eq.trans hsettings, fun fault e =>
    (h.stopped fault e).imp_right fun hr => hr.trans hroot⟩

lemma takesOut_prune (fuel : Nat) (t : Tree) (key : NodeKey) :
    t.TakesOut (t.prune fuel key).1 (t.prune fuel key).2 := by
  induction fuel generalizing t key with
  | zero => exact .of_ok id rfl
  | succ fuel ih =>
    have hvalid : t.nodes.IsValid → (t.erase key).nodes.IsValid := fun h => h.remove key
    unfold Tree.prune
    simp only
    split
    · exact .of_ok hvalid (settings_erase t key)
    · next p _ =>
      split
      · refine ⟨hvalid, settings_erase t key, ?_⟩
        rintro _ ⟨⟩
        exact ⟨⟨p, rfl⟩, rfl⟩
      · split
        · exact (ih _ p).after (fun h => (hvalid h).modify p _) (by simp) rfl
        · exact .of_ok (fun h => (hvalid h).modify p _) (by simp)

/-- The root edge changes only where nothing is left. -/
lemma root_prune {fuel : Nat} {t : Tree} {key : NodeKey} (h : (t.prune fuel key).1 ≠ .ok none) :
    (t.prune fuel key).2.root = t.root := by
  induction fuel generalizing t key with
  | zero => exact absurd rfl h
  | succ fuel ih =>
    cases hparent : (t.node? key).bind Node.parent with
    | none => exact absurd (by simp only [Tree.prune, hparent]) h
    | some p =>
      cases live : (t.erase key).node? p with
      | none =>
        simp only [Tree.prune, hparent, live]
        rfl
      | some n =>
        simp only [Tree.prune, hparent, live] at h ⊢
        split
        · next hleaf =>
          rw [if_pos hleaf] at h
          exact ih h
        · rfl

lemma takesOut_splice (t : Tree) (key : NodeKey) : t.TakesOut (t.splice key).1 (t.splice key).2 := by
  have hvalid : t.nodes.IsValid → (t.erase key).nodes.IsValid := fun h => h.remove key
  unfold Tree.splice
  simp only
  split
  · exact .of_ok id rfl
  · split
    · exact .of_ok id rfl
    · split
      · exact .of_ok hvalid (settings_erase t key)
      · next child _ =>
        split
        · exact .of_ok (fun h => (hvalid h).modify child _) (by simp [settings, modify, erase])
        · next p _ =>
          split
          · refine ⟨fun h => (hvalid h).modify child _, by simp, ?_⟩
            rintro _ ⟨⟩
            exact ⟨⟨p, rfl⟩, rfl⟩
          · exact .of_ok (fun h => ((hvalid h).modify child _).modify p _) (by simp)

end Tree

end ForkTree
