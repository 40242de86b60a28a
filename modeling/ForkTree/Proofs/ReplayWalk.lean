import ForkTree.Proofs.ReplayHistory
import ForkTree.Proofs.ReplaySteps
import ForkTree.Replay.Order

/-!
The walk over a rebuilt tree. Whatever records build a tree, it is a shape and nothing besides
(`Tree.whole_of_ofRecords?`), and its map holds the nodes of that shape (`Whole.entries_perm`). The walk
with its stack is then the pre-order of the shape, each node with its level (`Whole.preorder_eq`), and the
level is the number of steps that lead down to the node from the root (`Whole.way_iff`).
-/

namespace ForkTree

/-- The nodes in pre-order, left before right, each with its level below the given one. -/
def Shape.leveled {α : Type} (level : Nat) : Shape α → List (α × Nat)
  | .empty => []
  | .node a left right => (a, level) :: (left.leveled (level + 1) ++ right.leveled (level + 1))

lemma Shape.map_fst_leveled {α : Type} (level : Nat) (s : Shape α) :
    (s.leveled level).map Prod.fst = s.preorder := by
  induction s generalizing level with
  | empty => rfl
  | node a left right ihl ihr =>
    rw [leveled, List.map_cons, List.map_append, ihl, ihr, preorder]

namespace Replay

open Shape

def Node.childIds (n : Node) : List NodeId :=
  n.children.elim [] fun (left, right) => [left, right]

/-- From the root down along the children, a number of steps leads to a node. -/
inductive Tree.Way (t : Tree) : NodeId → Nat → Prop
  | root {id : NodeId} (root : t.root = some id) : Way t id 0
  | child {id child : NodeId} {n : Node} {steps : Nat} (above : Way t id steps)
      (known : t.node? id = some n) (below : child ∈ n.childIds) : Way t child (steps + 1)

namespace Tree

variable {t u : Tree} {parent : Option NodeId} {id : NodeId} {s : Shape Node} {n : Node}
  {records : List Log.Record} {r : Log.Record}

lemma Whole.mem_of_node? (h : t.Whole s) (hn : t.node? id = some n) : n ∈ s.preorder ∧ n.id = id := by
  have hid : id ∈ idsOf s := h.complete id (by rw [contains, hn]; rfl)
  obtain ⟨m, hm, rfl⟩ := List.mem_map.1 hid
  rw [h.node?_of_mem hm] at hn
  cases hn
  exact ⟨hm, rfl⟩

/-- Where a path goes on there is a leaf. -/
lemma Whole.mem_leaves_of_isOpen (h : t.Whole s) (hn : n ∈ s.preorder) (hopen : n.isOpen = true) :
    n ∈ s.leaves := by
  obtain ⟨_, _, hs⟩ := h.unfolds
  rw [Node.isOpen, Bool.and_eq_true, Node.isLeaf, Option.isNone_iff_eq_none] at hopen
  exact hs.mem_leaves_iff.2 ⟨hn, hopen.1⟩

lemma Whole.notMem_of_contains (h : t.Whole s) (hid : t.contains id = false) : id ∉ idsOf s := by
  intro hmem
  obtain ⟨m, hm, rfl⟩ := List.mem_map.1 hmem
  rw [contains, h.node?_of_mem hm] at hid
  cases hid

/-- A record that is taken leaves a tree whole. -/
theorem Whole.apply (h : t.Whole s) (happly : t.apply r = .ok u) : ∃ s', u.Whole s' := by
  have hcases := apply_eq_ok_iff.1 happly
  cases r with
  | root id =>
    obtain ⟨_, hroot, _⟩ := h.unfolds
    rw [hcases.1] at hroot
    cases hroot
  | branch id left right line reason =>
    obtain ⟨hne, hleft, hright, n, hn, hopen, _⟩ := hcases
    obtain ⟨hmem, rfl⟩ := h.mem_of_node? hn
    obtain ⟨u', happly', hu'⟩ := h.branch (h.mem_leaves_of_isOpen hmem hopen) hopen
      (h.notMem_of_contains hleft) (h.notMem_of_contains hright) hne line reason
    rw [happly] at happly'
    cases happly'
    exact ⟨_, hu'⟩
  | terminate id state line kind =>
    obtain ⟨n, hn, hopen, _⟩ := hcases
    obtain ⟨hmem, rfl⟩ := h.mem_of_node? hn
    obtain ⟨u', happly', hu'⟩ := h.terminate (h.mem_leaves_of_isOpen hmem hopen) hopen state line kind
    rw [happly] at happly'
    cases happly'
    exact ⟨_, hu'⟩

/-- Nothing but a root can come first. -/
lemma exists_whole_of_apply_empty (happly : empty.apply r = .ok u) : ∃ s, u.Whole s := by
  have hcases := apply_eq_ok_iff.1 happly
  cases r with
  | root id =>
    obtain ⟨u', happly', hu'⟩ := whole_root id
    rw [happly] at happly'
    cases happly'
    exact ⟨_, hu'⟩
  | branch =>
    obtain ⟨_, _, _, _, hn, _⟩ := hcases
    cases hn
  | terminate =>
    obtain ⟨_, hn, _⟩ := hcases
    cases hn

/-- No records build the empty tree, and any others that build a tree build a whole one. -/
theorem whole_of_ofRecords? (h : ofRecords? records = .ok t) :
    records = [] ∧ t = empty ∨ records ≠ [] ∧ ∃ s, t.Whole s := by
  induction records using List.reverseRecOn generalizing t with
  | nil =>
    cases h
    exact .inl ⟨rfl, rfl⟩
  | append_singleton before r ih =>
    obtain ⟨u, hbefore, happly⟩ := ofRecords?_append_singleton.1 h
    refine .inr ⟨by simp, ?_⟩
    rcases ih hbefore with ⟨_, rfl⟩ | ⟨_, s, hs⟩
    · exact exists_whole_of_apply_empty happly
    · exact hs.apply happly

/-- The map holds the nodes of the shape under their ids, and nothing else. -/
theorem Whole.entries_perm (h : t.Whole s) :
    (s.preorder.map fun n => (n.id, n)).Perm t.nodes.entries := by
  have hkeys : (s.preorder.map fun n => (n.id, n)).Nodup := by
    refine List.Nodup.of_map Prod.fst ?_
    rw [List.map_map]
    exact h.nodup
  have hsorted : t.nodes.entries.Nodup := t.nodes.sorted.imp fun {a b} hlt e => by
    rw [e] at hlt
    exact Std.lt_irrefl hlt
  refine (List.perm_ext_iff_of_nodup hkeys hsorted).2 fun entry => ?_
  obtain ⟨id, n⟩ := entry
  rw [SortedMap.mem_entries_iff, List.mem_map]
  constructor
  · rintro ⟨m, hm, e⟩
    cases e
    exact h.node?_of_mem hm
  · intro hn
    obtain ⟨hmem, rfl⟩ := h.mem_of_node? hn
    exact ⟨n, hmem, rfl⟩

lemma Whole.size_eq (h : t.Whole s) : t.size = s.size := by
  have hlength := h.entries_perm.length_eq
  rw [List.length_map, ← size_eq_length] at hlength
  exact hlength.symm

/-! ### The walk -/

/-- The walk meets what lies at and below an id before the rest of the stack. -/
lemma Unfolds.walk_eq (h : t.Unfolds parent id s) (level fuel : Nat) (stack : List (NodeId × Nat)) :
    t.walk (s.size + fuel) ((id, level) :: stack) = s.leveled level ++ t.walk fuel stack := by
  induction h generalizing level fuel stack with
  | @leaf _ i n known _ _ childless =>
    have hsize : (Shape.leaf n).size + fuel = fuel + 1 := Nat.add_comm 1 fuel
    rw [hsize, walk, known]
    simp only [childless, List.nil_append]
    rfl
  | @fork _ i _ _ n l r known _ _ children _ _ ihl ihr =>
    have hsize : (Shape.node n l r).size + fuel = l.size + (r.size + fuel) + 1 := by
      rw [Shape.size]
      omega
    rw [hsize, walk, known]
    simp only [children]
    rw [List.cons_append, List.singleton_append, ihl, ihr, leveled, List.cons_append, List.append_assoc]

lemma walk_nil (t : Tree) (fuel : Nat) : t.walk fuel [] = [] := by
  cases fuel <;> rfl

/-- The walk from the root is the pre-order of the shape, however many steps more it may take. -/
lemma Whole.walk_root_eq (h : t.Whole s) (fuel : Nat) :
    t.walk (t.size + fuel) (t.root.toList.map (·, 0)) = s.leveled 0 := by
  obtain ⟨id, hroot, hs⟩ := h.unfolds
  rw [hroot, h.size_eq]
  exact (hs.walk_eq 0 fuel []).trans (by rw [walk_nil, List.append_nil])

theorem Whole.preorder_eq (h : t.Whole s) : t.preorder = s.leveled 0 := h.walk_root_eq 0

lemma Unfolds.head_mem (h : t.Unfolds parent id s) (level : Nat) :
    ∃ n, (n, level) ∈ s.leveled level ∧ n.id = id ∧ n.parent = parent := by
  cases h with
  | leaf _ named linked => exact ⟨_, List.mem_cons_self, named, linked⟩
  | fork _ named linked => exact ⟨_, List.mem_cons_self, named, linked⟩

/-- The children of a node lie one level below it and are linked to it. -/
lemma Unfolds.child_mem (h : t.Unfolds parent id s) {level : Nat} {m : Node × Nat}
    (hm : m ∈ s.leveled level) {child : NodeId} (hchild : child ∈ m.1.childIds) :
    ∃ k, (k, m.2 + 1) ∈ s.leveled level ∧ k.id = child ∧ k.parent = some m.1.id := by
  induction h generalizing level with
  | leaf _ _ _ childless =>
    rw [List.mem_singleton.1 hm, Node.childIds, childless] at hchild
    cases hchild
  | @fork _ i left right n l r _ named _ children hleft hright ihl ihr =>
    rw [leveled, List.mem_cons, List.mem_append] at hm
    rcases hm with rfl | hm | hm
    · rw [Node.childIds, children, Option.elim_some, List.mem_pair] at hchild
      rw [leveled, named]
      rcases hchild with rfl | rfl
      · obtain ⟨k, hk, hid, hparent⟩ := hleft.head_mem (level + 1)
        exact ⟨k, List.mem_cons_of_mem _ (List.mem_append_left _ hk), hid, hparent⟩
      · obtain ⟨k, hk, hid, hparent⟩ := hright.head_mem (level + 1)
        exact ⟨k, List.mem_cons_of_mem _ (List.mem_append_right _ hk), hid, hparent⟩
    · obtain ⟨k, hk, hlink⟩ := ihl hm
      exact ⟨k, List.mem_cons_of_mem _ (List.mem_append_left _ hk), hlink⟩
    · obtain ⟨k, hk, hlink⟩ := ihr hm
      exact ⟨k, List.mem_cons_of_mem _ (List.mem_append_right _ hk), hlink⟩

/-- Every node but the first is a child of the node that it is linked to. -/
lemma Unfolds.parent_mem (h : t.Unfolds parent id s) (hn : n ∈ s.preorder) :
    n.id = id ∧ n.parent = parent ∨
      ∃ p ∈ s.preorder, n.parent = some p.id ∧ n.id ∈ p.childIds := by
  induction h with
  | leaf _ named linked =>
    rw [preorder_leaf, List.mem_singleton] at hn
    rw [hn]
    exact .inl ⟨named, linked⟩
  | @fork _ i left right m l r _ named linked children _ _ ihl ihr =>
    have hchildren : m.childIds = [left, right] := by rw [Node.childIds, children, Option.elim_some]
    rw [Shape.preorder, List.mem_cons, List.mem_append] at hn
    rw [Shape.preorder]
    rcases hn with rfl | hn | hn
    · exact .inl ⟨named, linked⟩
    · rcases ihl hn with ⟨hid, hparent⟩ | ⟨p, hp, hlink⟩
      · exact .inr ⟨m, List.mem_cons_self, by rw [hparent, named], by rw [hid, hchildren]; simp⟩
      · exact .inr ⟨p, List.mem_cons_of_mem _ (List.mem_append_left _ hp), hlink⟩
    · rcases ihr hn with ⟨hid, hparent⟩ | ⟨p, hp, hlink⟩
      · exact .inr ⟨m, List.mem_cons_self, by rw [hparent, named], by rw [hid, hchildren]; simp⟩
      · exact .inr ⟨p, List.mem_cons_of_mem _ (List.mem_append_right _ hp), hlink⟩

/-- Below an id that a way leads to, the level says how long the way to a node is. -/
lemma Unfolds.way_of_mem (h : t.Unfolds parent id s) {level : Nat} (hway : t.Way id level)
    {m : Node × Nat} (hm : m ∈ s.leveled level) : t.Way m.1.id m.2 := by
  induction h generalizing level with
  | leaf _ named =>
    rw [List.mem_singleton.1 hm, named]
    exact hway
  | @fork _ i left right n l r known named _ children _ _ ihl ihr =>
    have hchildren : n.childIds = [left, right] := by rw [Node.childIds, children, Option.elim_some]
    rw [leveled, List.mem_cons, List.mem_append] at hm
    rcases hm with rfl | hm | hm
    · rw [named]
      exact hway
    · exact ihl (hway.child known (by rw [hchildren]; simp)) hm
    · exact ihr (hway.child known (by rw [hchildren]; simp)) hm

/-- Ways lead to nodes at their level. -/
lemma Whole.exists_mem_of_way (h : t.Whole s) {steps : Nat} (hway : t.Way id steps) :
    ∃ n, (n, steps) ∈ s.leveled 0 ∧ n.id = id := by
  obtain ⟨first, hroot, hs⟩ := h.unfolds
  induction hway with
  | root hid =>
    rw [hroot] at hid
    cases hid
    obtain ⟨n, hn, hid, _⟩ := hs.head_mem 0
    exact ⟨n, hn, hid⟩
  | child _ known below ih =>
    obtain ⟨m, hm, hid⟩ := ih
    have hmem : m ∈ s.preorder := map_fst_leveled 0 s ▸ List.mem_map_of_mem hm
    have hnode := h.node?_of_mem hmem
    rw [hid, known] at hnode
    cases hnode
    obtain ⟨k, hk, hk', _⟩ := hs.child_mem hm below
    exact ⟨k, hk, hk'⟩

/-- The level of a node is the number of steps that lead to it, and the only one. -/
theorem Whole.way_iff (h : t.Whole s) {m : Node × Nat} (hm : m ∈ s.leveled 0) {steps : Nat} :
    t.Way m.1.id steps ↔ steps = m.2 := by
  obtain ⟨first, hroot, hs⟩ := h.unfolds
  constructor
  · intro hway
    have hnodup : ((s.leveled 0).map fun m => m.1.id).Nodup := by
      have hids := h.nodup
      rw [idsOf, ← map_fst_leveled 0 s, List.map_map] at hids
      exact hids
    obtain ⟨n, hn, hid⟩ := h.exists_mem_of_way hway
    have hsame : (n, steps) = m := List.inj_on_of_nodup_map hnodup hn hm hid
    rw [← hsame]
  · rintro rfl
    exact hs.way_of_mem (.root hroot) hm

end Tree

end Replay

end ForkTree
