import ForkTree.Proofs.ShapeGrowth
import ForkTree.Replay.Unfold
import Mathlib.Data.List.Nodup

/-!
What a record does to a rebuilt tree as a whole. `Tree.Whole` says that the tree is a shape and nothing
besides. A root makes a leaf of nothing (`whole_root`), a branch grows the shape at an open leaf
(`Whole.branch`), and the end of a path changes that leaf alone (`Whole.terminate`); nothing is ever
taken away. What is open in the shape is what a live tree keeps of it (`kept`).
-/

namespace ForkTree.Replay

open Shape

def idsOf (s : Shape Node) : List NodeId := s.preorder.map Node.id

namespace Node

def branched (n : Node) (left right : NodeId) (line : UInt64) (reason : BranchReason) : Node :=
  { n with children := some (left, right), reason := some reason, line := some line }

/-- What a branch puts in the place of a leaf. -/
def fork (n : Node) (left right : NodeId) (line : UInt64) (reason : BranchReason) : Shape Node :=
  .node (n.branched left right line reason) (leaf (.fresh left (some n.id)))
    (leaf (.fresh right (some n.id)))

def ended (n : Node) (state : Option StateId) (line : UInt64) (kind : TerminationKind) : Node :=
  { n with termination := some ⟨state, kind, line⟩ }

end Node

/-- A whole tree after a branch. -/
def branchAt (id left right : NodeId) (line : UInt64) (reason : BranchReason) (s : Shape Node) :
    Shape Node :=
  s.grow fun n => if n.id = id then n.fork left right line reason else leaf n

/-- A whole tree after the end of a path. -/
def endAt (id : NodeId) (state : Option StateId) (line : UInt64) (kind : TerminationKind)
    (s : Shape Node) : Shape Node :=
  s.map fun n => if n.id = id then n.ended state line kind else n

/-- What a live tree keeps: the nodes at or below which a path goes on, with single children elided in
a tree that compresses. -/
def kept (compress : Bool) (s : Shape Node) : Shape Node :=
  if compress then (s.prune Node.isOpen).contract else s.prune Node.isOpen

/-- The nodes of a rebuilt tree are those of the shape. -/
structure Tree.Whole (t : Tree) (s : Shape Node) : Prop where
  unfolds : ∃ id, t.root = some id ∧ t.Unfolds none id s
  nodup : (idsOf s).Nodup
  complete : ∀ id, t.contains id = true → id ∈ idsOf s

namespace Tree

variable {t : Tree} {parent : Option NodeId} {id : NodeId} {s : Shape Node} {n : Node}

lemma Unfolds.node?_of_mem (h : t.Unfolds parent id s) (hn : n ∈ s.preorder) :
    t.node? n.id = some n := by
  induction h with
  | leaf known named =>
    rw [preorder_leaf, List.mem_singleton] at hn
    rw [hn, named, known]
  | fork known named _ _ _ _ ihl ihr =>
    rw [Shape.preorder, List.mem_cons, List.mem_append] at hn
    rcases hn with rfl | hn | hn
    · rw [named, known]
    · exact ihl hn
    · exact ihr hn

/-- The leaves are the nodes without children. -/
lemma Unfolds.mem_leaves_iff (h : t.Unfolds parent id s) :
    n ∈ s.leaves ↔ n ∈ s.preorder ∧ n.children = none := by
  induction h with
  | @leaf _ _ m _ _ _ childless =>
    rw [leaves_leaf, preorder_leaf, List.mem_singleton]
    exact ⟨fun e => ⟨e, e ▸ childless⟩, fun h => h.1⟩
  | @fork _ _ _ _ m l r _ _ _ children hleft hright ihl ihr =>
    have hinner : ¬ (l.isEmpty && r.isEmpty) = true := by
      rw [hleft.isEmpty_eq]
      exact Bool.false_ne_true
    rw [leaves, if_neg hinner, List.mem_append, ihl, ihr, Shape.preorder, List.mem_cons, List.mem_append]
    constructor
    · rintro (⟨hn, hnone⟩ | ⟨hn, hnone⟩)
      · exact ⟨.inr (.inl hn), hnone⟩
      · exact ⟨.inr (.inr hn), hnone⟩
    · rintro ⟨rfl | hn | hn, hnone⟩
      · rw [children] at hnone
        cases hnone
      · exact .inl ⟨hn, hnone⟩
      · exact .inr ⟨hn, hnone⟩

/-- A change at one leaf and two new nodes below it. -/
lemma Unfolds.branch {u : Tree} {left right : NodeId} {line : UInt64} {reason : BranchReason}
    (h : t.Unfolds parent id s) (known : t.node? n.id = some n) (childless : n.children = none)
    (hleft : t.node? left = none) (hright : t.node? right = none)
    (hself : u.node? n.id = some (n.branched left right line reason))
    (hnewl : u.node? left = some (.fresh left (some n.id)))
    (hnewr : u.node? right = some (.fresh right (some n.id)))
    (hother : ∀ other, other ≠ n.id → other ≠ left → other ≠ right → u.node? other = t.node? other) :
    u.Unfolds parent id (branchAt n.id left right line reason s) := by
  have hkept : ∀ {m : Node} {i : NodeId}, t.node? i = some m → i ≠ n.id → u.node? i = some m := by
    intro m i hm hne
    rw [hother i hne, hm]
    · rintro rfl
      rw [hleft] at hm
      cases hm
    · rintro rfl
      rw [hright] at hm
      cases hm
  induction h with
  | @leaf _ i m hm named linked hnone =>
    rw [branchAt, grow_leaf]
    split
    · next e =>
      rw [named] at e
      rw [e, known] at hm
      cases hm
      rw [e]
      exact .fork hself rfl linked rfl (.leaf hnewl rfl rfl rfl) (.leaf hnewr rfl rfl rfl)
    · next hne =>
      rw [named] at hne
      exact .leaf (hkept hm hne) named linked hnone
  | @fork _ i _ _ m l r hm named linked children hl hr ihl ihr =>
    have hne : i ≠ n.id := by
      rintro rfl
      rw [known] at hm
      cases hm
      rw [childless] at children
      cases children
    rw [branchAt, grow, hl.isEmpty_eq]
    exact .fork (hkept hm hne) named linked children ihl ihr

/-- A change that leaves the links of a node alone. -/
lemma Unfolds.terminate {u : Tree} {state : Option StateId} {line : UInt64} {kind : TerminationKind}
    (h : t.Unfolds parent id s) (known : t.node? n.id = some n)
    (hself : u.node? n.id = some (n.ended state line kind))
    (hother : ∀ other, other ≠ n.id → u.node? other = t.node? other) :
    u.Unfolds parent id (endAt n.id state line kind s) := by
  have hnode : ∀ {m : Node} {i : NodeId}, t.node? i = some m → m.id = i →
      u.node? i = some (if m.id = n.id then m.ended state line kind else m) := by
    rintro m i hm rfl
    split
    · next e =>
      rw [e, known] at hm
      cases hm
      exact hself
    · next hne => rw [hother _ hne, hm]
  have hlinks : ∀ m : Node,
      (if m.id = n.id then m.ended state line kind else m).id = m.id ∧
      (if m.id = n.id then m.ended state line kind else m).parent = m.parent ∧
      (if m.id = n.id then m.ended state line kind else m).children = m.children := by
    intro m
    split <;> exact ⟨rfl, rfl, rfl⟩
  induction h with
  | @leaf _ i m hm named linked childless =>
    obtain ⟨hid, hparent, hchildren⟩ := hlinks m
    exact .leaf (hnode hm named) (hid.trans named) (hparent.trans linked) (hchildren.trans childless)
  | @fork _ i _ _ m l r hm named linked children hl hr ihl ihr =>
    obtain ⟨hid, hparent, hchildren⟩ := hlinks m
    exact .fork (hnode hm named) (hid.trans named) (hparent.trans linked) (hchildren.trans children) ihl
      ihr

end Tree

lemma idsOf_plug (above : List (Frame Node)) (s : Shape Node) :
    (idsOf (plug above s)).Perm (idsOf s ++ (around above).map Node.id) := by
  have h := (preorder_plug above s).map Node.id
  rwa [List.map_append] at h

lemma eq_of_id_eq {s : Shape Node} (h : (idsOf s).Nodup) {m n : Node} (hm : m ∈ s.preorder)
    (hn : n ∈ s.preorder) (e : m.id = n.id) : m = n :=
  List.inj_on_of_nodup_map h hm hn e

lemma idsOf_branchAt {s : Shape Node} (h : (idsOf s).Nodup) {n : Node} (hn : n ∈ s.leaves)
    (left right : NodeId) (line : UInt64) (reason : BranchReason) :
    (idsOf (branchAt n.id left right line reason s)).Perm (left :: right :: idsOf s) := by
  obtain ⟨above, rfl⟩ := exists_plug_of_mem_leaves hn
  have hleaf : idsOf (leaf n) = [n.id] := rfl
  have hfork : idsOf (n.fork left right line reason) = [n.id, left, right] := rfl
  have hplug := idsOf_plug above (leaf n)
  rw [hplug.nodup_iff, hleaf, List.singleton_append, List.nodup_cons] at h
  have hother : ∀ a ∈ around above,
      (if a.id = n.id then a.fork left right line reason else leaf a) = leaf a := by
    intro a ha
    refine if_neg fun e => h.1 ?_
    rw [← e]
    exact List.mem_map_of_mem ha
  have hgrown : branchAt n.id left right line reason (plug above (leaf n)) =
      plug above (n.fork left right line reason) := by
    rw [branchAt, grow_plug _ (isEmpty_leaf n) hother, grow_leaf, if_pos rfl]
  have hperm := idsOf_plug above (n.fork left right line reason)
  rw [hfork] at hperm
  rw [hleaf] at hplug
  rw [hgrown]
  refine hperm.trans (List.Perm.trans ?_ ((hplug.symm.cons right).cons left))
  exact (List.Perm.swap left n.id _).trans ((List.Perm.swap right n.id _).cons left)

lemma size_branchAt {s : Shape Node} (h : (idsOf s).Nodup) {n : Node} (hn : n ∈ s.leaves)
    (left right : NodeId) (line : UInt64) (reason : BranchReason) :
    (branchAt n.id left right line reason s).size = s.size + 2 := by
  have hlength := (idsOf_branchAt h hn left right line reason).length_eq
  rw [idsOf, List.length_map, List.length_cons, List.length_cons, idsOf, List.length_map] at hlength
  rw [size_eq_length, size_eq_length, hlength]

lemma idsOf_endAt (id : NodeId) (state : Option StateId) (line : UInt64) (kind : TerminationKind)
    (s : Shape Node) : idsOf (endAt id state line kind s) = idsOf s := by
  rw [idsOf, endAt, preorder_map, List.map_map, idsOf]
  refine List.map_congr_left fun n _ => ?_
  simp only [Function.comp_apply]
  split <;> rfl

/-! ### Records -/

namespace Tree

variable {t : Tree} {s : Shape Node} {n : Node}

lemma contains_put (t : Tree) (n : Node) (id : NodeId) :
    (t.put n).contains id = (id = n.id || t.contains id) := by
  rw [contains, node?_put, contains]
  split
  · next h => simp [h]
  · next h => simp [h]

lemma Whole.node?_of_mem (h : t.Whole s) (hn : n ∈ s.preorder) : t.node? n.id = some n := by
  obtain ⟨id, _, hs⟩ := h.unfolds
  exact hs.node?_of_mem hn

lemma Whole.children_of_mem_leaves (h : t.Whole s) (hn : n ∈ s.leaves) : n.children = none := by
  obtain ⟨id, _, hs⟩ := h.unfolds
  exact (hs.mem_leaves_iff.1 hn).2

lemma Whole.node?_eq_none (h : t.Whole s) {id : NodeId} (hid : id ∉ idsOf s) : t.node? id = none := by
  by_contra hne
  exact hid (h.complete id (Option.isSome_iff_ne_none.2 hne))

lemma whole_root (id : NodeId) :
    ∃ t, empty.apply (.root id) = .ok t ∧ t.Whole (leaf (.fresh id none)) := by
  have hnode : ∀ other, ({ empty with root := some id }.put (.fresh id none)).node? other =
      if other = id then some (.fresh id none) else none := fun other => node?_put _ _ _
  refine ⟨_, rfl, ⟨id, rfl, .leaf (by rw [hnode, if_pos rfl]) rfl rfl rfl⟩, List.nodup_singleton _, ?_⟩
  intro other hother
  rw [contains, hnode] at hother
  split at hother
  · next e => exact List.mem_singleton.2 e
  · cases hother

/-- A branch of an open leaf into new ids is accepted and grows the tree there. -/
theorem Whole.branch (h : t.Whole s) (hn : n ∈ s.leaves) (hopen : n.isOpen = true)
    {left right : NodeId} (hleft : left ∉ idsOf s) (hright : right ∉ idsOf s) (hne : left ≠ right)
    (line : UInt64) (reason : BranchReason) :
    ∃ u, t.apply (.branch n.id left right line reason) = .ok u ∧
      u.Whole (branchAt n.id left right line reason s) := by
  have known := h.node?_of_mem (leaves_subset_preorder s hn)
  have hnl := h.node?_eq_none hleft
  have hnr := h.node?_eq_none hright
  have hnodup := h.nodup
  have hidl : n.id ≠ left := fun e => by
    rw [e, hnl] at known
    cases known
  have hidr : n.id ≠ right := fun e => by
    rw [e, hnr] at known
    cases known
  have hfree : (left = right || t.contains left || t.contains right) = false := by
    rw [contains, contains, hnl, hnr]
    simpa using hne
  have happly : t.apply (.branch n.id left right line reason) =
      .ok (((t.put (n.branched left right line reason)).put (.fresh left (some n.id))).put
        (.fresh right (some n.id))) := by
    simp only [apply, hfree, known, hopen, Bool.false_eq_true, if_false, if_true]
    rfl
  have hids : (n.branched left right line reason).id = n.id ∧
      (Node.fresh left (some n.id)).id = left ∧ (Node.fresh right (some n.id)).id = right :=
    ⟨rfl, rfl, rfl⟩
  refine ⟨_, happly, ?_, ?_, ?_⟩
  · obtain ⟨id, hroot, hs⟩ := h.unfolds
    refine ⟨id, hroot, hs.branch known (h.children_of_mem_leaves hn) hnl hnr ?_ ?_ ?_ ?_⟩
    · simp only [node?_put, hids, hidl, hidr, if_false, if_true]
    · simp only [node?_put, hids, hne, if_false, if_true]
    · simp only [node?_put, hids, if_true]
    · intro other hself hl hr
      simp only [node?_put, hids, hself, hl, hr, if_false]
  · rw [(idsOf_branchAt hnodup hn left right line reason).nodup_iff, List.nodup_cons, List.nodup_cons,
      List.mem_cons, not_or]
    exact ⟨⟨hne, hleft⟩, hright, hnodup⟩
  · intro id hid
    rw [(idsOf_branchAt hnodup hn left right line reason).mem_iff, List.mem_cons, List.mem_cons]
    simp only [contains_put, hids, Bool.or_eq_true, decide_eq_true_eq] at hid
    rcases hid with rfl | rfl | rfl | hid
    · exact .inr (.inl rfl)
    · exact .inl rfl
    · exact .inr (.inr (List.mem_map_of_mem (leaves_subset_preorder s hn)))
    · exact .inr (.inr (h.complete id hid))

/-- The end of a path at an open leaf is accepted and noted there. -/
theorem Whole.terminate (h : t.Whole s) (hn : n ∈ s.leaves) (hopen : n.isOpen = true)
    (state : Option StateId) (line : UInt64) (kind : TerminationKind) :
    ∃ u, t.apply (.terminate n.id state line kind) = .ok u ∧
      u.Whole (endAt n.id state line kind s) := by
  have known := h.node?_of_mem (leaves_subset_preorder s hn)
  have happly : t.apply (.terminate n.id state line kind) =
      .ok (t.put (n.ended state line kind)) := by
    simp only [apply, known, hopen, if_true]
    rfl
  have hid : (n.ended state line kind).id = n.id := rfl
  refine ⟨_, happly, ?_, ?_, ?_⟩
  · obtain ⟨id, hroot, hs⟩ := h.unfolds
    refine ⟨id, hroot, hs.terminate known ?_ ?_⟩
    · rw [node?_put, if_pos hid.symm]
    · intro other hother
      rw [node?_put, if_neg fun e => hother (e.trans hid)]
  · rw [idsOf_endAt]
    exact h.nodup
  · intro other hother
    rw [idsOf_endAt]
    simp only [contains_put, hid, Bool.or_eq_true, decide_eq_true_eq] at hother
    rcases hother with rfl | hother
    · exact List.mem_map_of_mem (leaves_subset_preorder s hn)
    · exact h.complete other hother

end Tree

lemma leaves_kept (compress : Bool) (s : Shape Node) :
    (kept compress s).leaves = s.leaves.filter Node.isOpen := by
  cases compress
  · exact leaves_prune _ s
  · exact (leaves_contract _).trans (leaves_prune _ s)

lemma prune_fork {n : Node} {left right : NodeId} {line : UInt64} {reason : BranchReason} :
    (n.fork left right line reason).prune Node.isOpen = n.fork left right line reason := by
  refine prune_eq_self fun m hm => ?_
  have hleaves : (n.fork left right line reason).leaves =
      [.fresh left (some n.id), .fresh right (some n.id)] := rfl
  rw [hleaves, List.mem_cons, List.mem_singleton] at hm
  rcases hm with rfl | rfl <;> rfl

/-- A branch of an open leaf grows what is kept in the same way. -/
lemma kept_branchAt (compress : Bool) {s : Shape Node} {id : NodeId}
    (hopen : ∀ n ∈ s.leaves, n.id = id → n.isOpen = true) (left right : NodeId) (line : UInt64)
    (reason : BranchReason) :
    kept compress (branchAt id left right line reason s) =
      branchAt id left right line reason (kept compress s) := by
  have hne : ∀ n : Node, (if n.id = id then n.fork left right line reason else leaf n).isEmpty = false := by
    intro n
    split <;> rfl
  have hprune : (branchAt id left right line reason s).prune Node.isOpen =
      branchAt id left right line reason (s.prune Node.isOpen) := by
    refine prune_grow (fun n _ => hne n) (fun n _ _ => hne n) fun n hn => ?_
    split
    · next e => rw [prune_fork, hopen n hn e, if_pos rfl]
    · rfl
  rw [kept, kept, hprune]
  split
  · rw [branchAt, contract_grow fun n _ => hne n]
    refine grow_congr fun n _ => ?_
    split <;> rfl
  · rfl

/-- The end of a path takes its leaf out of what is kept, up to how the path ended. -/
lemma kept_endAt (compress : Bool) (s : Shape Node) (id : NodeId) (state : Option StateId)
    (line : UInt64) (kind : TerminationKind) :
    (kept compress (endAt id state line kind s)).map Node.id =
      (if compress then ((kept compress s).prune fun n => n.id ≠ id).contract
        else (kept compress s).prune fun n => n.id ≠ id).map Node.id := by
  have hopen : ∀ n : Node, (n.isOpen && decide (n.id ≠ id)) =
      (if n.id = id then n.ended state line kind else n).isOpen := by
    intro n
    split
    · next e => simp [e, Node.isOpen, Node.ended]
    · next e => simp [e]
  have hid : ∀ n : Node, (if n.id = id then n.ended state line kind else n).id = n.id := by
    intro n
    split <;> rfl
  have hprune : (endAt id state line kind s).prune Node.isOpen =
      ((s.prune Node.isOpen).prune fun n => n.id ≠ id).map fun n =>
        if n.id = id then n.ended state line kind else n := by
    rw [prune_prune, map_prune fun n _ => hopen n]
    rfl
  have hmap : ((endAt id state line kind s).prune Node.isOpen).map Node.id =
      ((s.prune Node.isOpen).prune fun n => n.id ≠ id).map Node.id := by
    rw [hprune, map_map]
    exact map_congr fun n _ => hid n
  cases compress with
  | false => exact hmap
  | true =>
    simp only [kept, if_true]
    rw [map_contract, hmap, ← map_contract, contract_prune_contract]

end ForkTree.Replay
