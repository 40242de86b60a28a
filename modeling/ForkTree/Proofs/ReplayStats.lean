import ForkTree.Proofs.ReplayWalk
import Mathlib.Algebra.GroupWithZero.Nat

/-!
The counts that summarise a rebuilt tree. Counting goes node by node along the walk, so a step lemma
(`Stats.Counts.add`) says what the counts are of any row of nodes. Of a whole tree the row is the shape in
pre-order, and the shape is full, which ties the numbers of nodes, forks and leaves to one another. Hence
whatever records build a tree, its links agree, the walk meets each of its nodes once and at its depth, and
its counts add up (`Tree.adds_up`).
-/

namespace ForkTree.Replay

open Shape

/-- The number of occurrences that a tally counted. -/
def Tally.total (t : Tally) : Nat := (t.entries.map Prod.snd).sum

def Tally.count (t : Tally) (name : String) : Nat := (t.get? name).getD 0

/-- The root, the parents and the children of the nodes agree with one another. -/
structure Tree.IsLinked (t : Tree) : Prop where
  named : ∀ id n, t.node? id = some n → n.id = id
  root_iff : ∀ id, t.root = some id ↔ ∃ n, t.node? id = some n ∧ n.parent = none
  child_linked : ∀ id n, t.node? id = some n → ∀ child ∈ n.childIds,
    ∃ c, t.node? child = some c ∧ c.parent = some id
  parent_linked : ∀ id n, t.node? id = some n → ∀ parent, n.parent = some parent →
    ∃ p, t.node? parent = some p ∧ id ∈ p.childIds

/-- The walk meets each entry of the map once, with the number of steps that lead down to it, and is done
within the bound that is set on it. -/
structure Tree.IsWalked (t : Tree) : Prop where
  perm : (t.preorder.map fun m => (m.1.id, m.1)).Perm t.nodes.entries
  way_iff : ∀ m ∈ t.preorder, ∀ steps, t.Way m.1.id steps ↔ steps = m.2
  done : ∀ fuel, t.walk (t.size + fuel) (t.root.toList.map (·, 0)) = t.preorder

def Tree.all (t : Tree) : List Node := t.nodes.entries.map Prod.snd

/-- The counts are those of the nodes in the tree's map, and fit together as those of a full tree do. -/
structure Stats.AddsUp (s : Stats) (t : Tree) : Prop where
  nodes_eq : s.nodes = t.size
  branches_eq : s.branches = t.all.countP fun n => n.children.isSome
  terminated_eq : s.terminated = t.all.countP fun n => n.termination.isSome
  openLeaves_eq : s.openLeaves = t.all.countP Node.isOpen
  kinds_eq : ∀ name, s.terminationsByKind.count name =
    t.all.countP fun n => n.termination.any fun e => e.kind.name = name
  reasons_eq : ∀ name, s.branchesByReason.count name =
    t.all.countP fun n => n.reason.any fun r => r.name = name
  total_kinds : s.terminationsByKind.total = s.terminated
  total_reasons : s.branchesByReason.total = s.branches
  steps_le : ∀ id steps, t.Way id steps → steps ≤ s.maxDepth
  of_root : t.root ≠ none → s.nodes = 2 * s.branches + 1 ∧
    s.terminated + s.openLeaves = s.branches + 1 ∧ ∃ id, t.Way id s.maxDepth
  of_empty : t.root = none → s = .empty

namespace Tally

lemma sum_place (name : String) (l : List (String × Nat)) :
    ((SortedMap.place name (fun n => n.getD 0 + 1) l).map Prod.snd).sum = (l.map Prod.snd).sum + 1 := by
  induction l with
  | nil => rfl
  | cons entry rest ih =>
    rw [SortedMap.place]
    split
    · simp only [Option.getD_none, List.map_cons, List.sum_cons]
      omega
    · split
      · simp only [Option.getD_some, List.map_cons, List.sum_cons]
        omega
      · simp only [List.map_cons, List.sum_cons, ih]
        omega

lemma total_add (t : Tally) (name : String) : (add t name).total = t.total + 1 := sum_place name t.entries

lemma count_add (t : Tally) (name other : String) :
    (add t name).count other = t.count other + if name = other then 1 else 0 := by
  rw [count, add, SortedMap.get?_alter, count]
  by_cases h : other = name
  · rw [if_pos h, if_pos h.symm, h, Option.getD_some]
  · rw [if_neg h, if_neg fun e => h e.symm, Nat.add_zero]

end Tally

namespace Stats

/-- What the counts are after some nodes were met. -/
structure Counts (s : Stats) (met : List (Node × Nat)) : Prop where
  nodes_eq : s.nodes = met.length
  branches_eq : s.branches = (met.map Prod.fst).countP fun n => n.reason.isSome
  terminated_eq : s.terminated = (met.map Prod.fst).countP fun n => n.termination.isSome
  openLeaves_eq : s.openLeaves = (met.map Prod.fst).countP Node.isOpen
  kinds_eq : ∀ name, s.terminationsByKind.count name =
    (met.map Prod.fst).countP fun n => n.termination.any fun e => e.kind.name = name
  reasons_eq : ∀ name, s.branchesByReason.count name =
    (met.map Prod.fst).countP fun n => n.reason.any fun r => r.name = name
  total_kinds : s.terminationsByKind.total = s.terminated
  total_reasons : s.branchesByReason.total = s.branches
  le_maxDepth : ∀ m ∈ met, m.2 ≤ s.maxDepth
  deepest : met = [] ∧ s.maxDepth = 0 ∨ ∃ m ∈ met, m.2 = s.maxDepth

variable {s : Stats} {met : List (Node × Nat)}

lemma counts_empty : empty.Counts [] where
  nodes_eq := rfl
  branches_eq := rfl
  terminated_eq := rfl
  openLeaves_eq := rfl
  kinds_eq _ := rfl
  reasons_eq _ := rfl
  total_kinds := rfl
  total_reasons := rfl
  le_maxDepth m hm := by cases hm
  deepest := .inl ⟨rfl, rfl⟩

/-- Meeting a node counts it, its reason, its end, and the path that goes on there. -/
lemma add_eq (s : Stats) (m : Node × Nat) :
    s.add m = {
      nodes := s.nodes + 1
      branches := s.branches + if m.1.reason.isSome then 1 else 0
      terminated := s.terminated + if m.1.termination.isSome then 1 else 0
      openLeaves := s.openLeaves + if m.1.isOpen then 1 else 0
      maxDepth := max s.maxDepth m.2
      terminationsByKind := m.1.termination.elim s.terminationsByKind fun e =>
        Tally.add s.terminationsByKind e.kind.name
      branchesByReason := m.1.reason.elim s.branchesByReason fun r =>
        Tally.add s.branchesByReason r.name } := by
  obtain ⟨⟨id, parent, children, reason, line, termination⟩, depth⟩ := m
  cases children <;> cases reason <;> cases termination <;> rfl

theorem Counts.add (h : s.Counts met) (m : Node × Nat) : (s.add m).Counts (met ++ [m]) := by
  have hcount : ∀ p : Node → Bool, ((met ++ [m]).map Prod.fst).countP p =
      (met.map Prod.fst).countP p + if p m.1 then 1 else 0 := by
    intro p
    rw [List.map_append, List.countP_append, List.map_singleton, List.countP_singleton]
  rw [add_eq]
  constructor
  case nodes_eq => rw [h.nodes_eq, List.length_append, List.length_singleton]
  case branches_eq => rw [h.branches_eq, hcount]
  case terminated_eq => rw [h.terminated_eq, hcount]
  case openLeaves_eq => rw [h.openLeaves_eq, hcount]
  case kinds_eq =>
    intro name
    rw [hcount, ← h.kinds_eq]
    cases m.1.termination with
    | none => rfl
    | some e => simp [Tally.count_add]
  case reasons_eq =>
    intro name
    rw [hcount, ← h.reasons_eq]
    cases m.1.reason with
    | none => rfl
    | some r => simp [Tally.count_add]
  case total_kinds =>
    rw [← h.total_kinds]
    cases m.1.termination with
    | none => rfl
    | some e => exact Tally.total_add _ _
  case total_reasons =>
    rw [← h.total_reasons]
    cases m.1.reason with
    | none => rfl
    | some r => exact Tally.total_add _ _
  case le_maxDepth =>
    intro k hk
    rcases List.mem_append.1 hk with hk | hk
    · exact Nat.le_trans (h.le_maxDepth k hk) (Nat.le_max_left _ _)
    · rw [List.mem_singleton.1 hk]
      exact Nat.le_max_right _ _
  case deepest =>
    refine .inr ?_
    rcases h.deepest with ⟨_, hzero⟩ | ⟨k, hk, hdepth⟩
    · exact ⟨m, by simp, by rw [hzero, Nat.zero_max]⟩
    · rcases Nat.le_total s.maxDepth m.2 with hle | hle
      · exact ⟨m, by simp, (Nat.max_eq_right hle).symm⟩
      · exact ⟨k, List.mem_append_left _ hk, by rw [hdepth, Nat.max_eq_left hle]⟩

theorem counts_foldl (met : List (Node × Nat)) : (met.foldl Stats.add .empty).Counts met := by
  induction met using List.reverseRecOn with
  | nil => exact counts_empty
  | append_singleton met m ih =>
    rw [List.foldl_append]
    exact ih.add m

end Stats

/-- A node has a reason exactly if it forked, and only a leaf has ended. -/
structure Node.IsConsistent (n : Node) : Prop where
  reason_eq : n.reason.isSome = n.children.isSome
  isLeaf : n.termination.isSome = true → n.children = none

namespace Tree

variable {t u : Tree} {s : Shape Node} {records : List Log.Record} {r : Log.Record}

lemma isConsistent_put (h : ∀ id n, t.node? id = some n → n.IsConsistent) {n : Node}
    (hn : n.IsConsistent) : ∀ id m, (t.put n).node? id = some m → m.IsConsistent := by
  intro id m hm
  rw [node?_put] at hm
  split at hm
  · cases hm
    exact hn
  · exact h id m hm

lemma isConsistent_fresh (id : NodeId) (parent : Option NodeId) : (Node.fresh id parent).IsConsistent :=
  ⟨rfl, fun h => by cases h⟩

lemma isConsistent_apply (h : ∀ id n, t.node? id = some n → n.IsConsistent) (happly : t.apply r = .ok u) :
    ∀ id n, u.node? id = some n → n.IsConsistent := by
  have hcases := apply_eq_ok_iff.1 happly
  cases r with
  | root id =>
    obtain ⟨_, rfl⟩ := hcases
    exact isConsistent_put h (isConsistent_fresh _ _)
  | branch id left right line reason =>
    obtain ⟨_, _, _, n, hn, hopen, rfl⟩ := hcases
    refine isConsistent_put (isConsistent_put (isConsistent_put h ⟨rfl, fun hended => ?_⟩)
      (isConsistent_fresh _ _)) (isConsistent_fresh _ _)
    -- An open leaf has not ended.
    rw [Node.isOpen, Bool.and_eq_true, Option.isNone_iff_eq_none] at hopen
    rw [hopen.2] at hended
    cases hended
  | terminate id state line kind =>
    obtain ⟨n, hn, hopen, rfl⟩ := hcases
    rw [Node.isOpen, Bool.and_eq_true, Node.isLeaf, Option.isNone_iff_eq_none] at hopen
    exact isConsistent_put h ⟨(h id n hn).reason_eq, fun _ => hopen.1⟩

theorem isConsistent_of_ofRecords? (h : ofRecords? records = .ok t) :
    ∀ id n, t.node? id = some n → n.IsConsistent := by
  induction records using List.reverseRecOn generalizing t with
  | nil =>
    cases h
    intro id n hn
    cases hn
  | append_singleton before r ih =>
    obtain ⟨u, hbefore, happly⟩ := ofRecords?_append_singleton.1 h
    exact isConsistent_apply (ih hbefore) happly

/-! ### Whole trees -/

lemma Whole.isLinked (h : t.Whole s) : t.IsLinked := by
  obtain ⟨first, hroot, hs⟩ := h.unfolds
  constructor
  case named => exact fun id n hn => (h.mem_of_node? hn).2
  case root_iff =>
    intro id
    constructor
    · intro hid
      rw [hroot] at hid
      cases hid
      obtain ⟨n, hn, rfl, hparent⟩ := hs.head_mem 0
      exact ⟨n, h.node?_of_mem (map_fst_leveled 0 s ▸ List.mem_map_of_mem hn), hparent⟩
    · rintro ⟨n, hn, hparent⟩
      obtain ⟨hmem, rfl⟩ := h.mem_of_node? hn
      rcases hs.parent_mem hmem with ⟨hid, _⟩ | ⟨p, _, hlink, _⟩
      · rw [hid, hroot]
      · rw [hparent] at hlink
        cases hlink
  case child_linked =>
    intro id n hn child hchild
    obtain ⟨hmem, rfl⟩ := h.mem_of_node? hn
    rw [← map_fst_leveled 0 s] at hmem
    obtain ⟨m, hm, rfl⟩ := List.mem_map.1 hmem
    obtain ⟨k, hk, rfl, hparent⟩ := hs.child_mem hm hchild
    exact ⟨k, h.node?_of_mem (map_fst_leveled 0 s ▸ List.mem_map_of_mem hk), hparent⟩
  case parent_linked =>
    intro id n hn parent hparent
    obtain ⟨hmem, rfl⟩ := h.mem_of_node? hn
    rcases hs.parent_mem hmem with ⟨_, hnone⟩ | ⟨p, hp, hlink, hbelow⟩
    · rw [hparent] at hnone
      cases hnone
    · rw [hparent] at hlink
      cases hlink
      exact ⟨p, h.node?_of_mem hp, hbelow⟩

lemma Whole.isWalked (h : t.Whole s) : t.IsWalked where
  perm := by
    have hentries := h.entries_perm
    rw [← map_fst_leveled 0 s, ← h.preorder_eq, List.map_map] at hentries
    exact hentries
  way_iff m hm steps := h.way_iff (h.preorder_eq ▸ hm)
  done fuel := (h.walk_root_eq fuel).trans h.preorder_eq.symm

/-- The leaves are the nodes that did not fork. -/
lemma Unfolds.countP_isLeaf {parent : Option NodeId} {id : NodeId} (h : t.Unfolds parent id s) :
    s.preorder.countP Node.isLeaf = s.leaves.length := by
  induction h with
  | @leaf _ _ n _ _ _ childless => simp [Node.isLeaf, childless]
  | @fork _ _ _ _ n l r _ _ _ children hleft hright ihl ihr =>
    have hinner : n.isLeaf = false := by rw [Node.isLeaf, children]; rfl
    rw [Shape.preorder, List.countP_cons, List.countP_append, ihl, ihr, leaves, hleft.isEmpty_eq, hinner]
    simp

/-- A full tree has one leaf more than it has forks. -/
lemma Whole.countP_isSome (h : t.Whole s) :
    s.size = 2 * (s.preorder.countP fun n => n.children.isSome) + 1 ∧
      s.preorder.countP Node.isLeaf = (s.preorder.countP fun n => n.children.isSome) + 1 := by
  obtain ⟨_, _, hs⟩ := h.unfolds
  have hfull := hs.isFull.size_eq hs.isEmpty_eq
  have hsplit : s.size = (s.preorder.countP fun n => n.children.isSome) + s.preorder.countP Node.isLeaf := by
    rw [size_eq_length, List.length_eq_countP_add_countP fun n : Node => n.children.isSome]
    congr 2
    funext n
    cases hn : n.children <;> simp [Node.isLeaf, hn]
  rw [← hs.countP_isLeaf] at hfull
  omega

/-- Each leaf has ended or is open. -/
lemma countP_isLeaf_eq {l : List Node} (h : ∀ n ∈ l, n.IsConsistent) :
    l.countP Node.isLeaf = (l.countP fun n => n.termination.isSome) + l.countP Node.isOpen := by
  induction l with
  | nil => rfl
  | cons n rest ih =>
    have hn := h n List.mem_cons_self
    rw [List.countP_cons, List.countP_cons, List.countP_cons, ih fun m hm => h m (List.mem_cons_of_mem _ hm)]
    cases hended : n.termination with
    | none =>
      have hopen : n.isOpen = n.isLeaf := by rw [Node.isOpen, hended, Option.isNone_none, Bool.and_true]
      rw [hopen, Option.isSome_none, if_neg Bool.false_ne_true, Nat.add_zero, Nat.add_assoc]
    | some e =>
      have hleaf : n.isLeaf = true := by rw [Node.isLeaf, hn.isLeaf (by rw [hended]; rfl)]; rfl
      have hclosed : n.isOpen = false := by rw [Node.isOpen, hended, Option.isNone_some, Bool.and_false]
      rw [hleaf, hclosed, Option.isSome_some, if_pos rfl, if_neg Bool.false_ne_true]
      omega

theorem Whole.addsUp (h : t.Whole s) (hnodes : ∀ n ∈ s.preorder, n.IsConsistent) : t.stats.AddsUp t := by
  have hmet : t.preorder.map Prod.fst = s.preorder := by rw [h.preorder_eq, map_fst_leveled]
  have hall : ∀ p : Node → Bool, t.all.countP p = s.preorder.countP p := by
    intro p
    have hentries := h.entries_perm.map Prod.snd
    rw [List.map_map] at hentries
    rw [all, ← hentries.countP_eq]
    exact congrArg _ (List.map_id _)
  obtain ⟨hnodes_eq, hbranches, hterminated, hopen, hkinds, hreasons, htotal, htotal', hle, hdeepest⟩ :=
    Stats.counts_foldl t.preorder
  rw [hmet] at hbranches hterminated hopen hkinds hreasons
  have hforks : t.stats.branches = s.preorder.countP fun n => n.children.isSome := by
    refine hbranches.trans (List.countP_congr fun n hn => ?_)
    rw [(hnodes n hn).reason_eq]
  have hsize : t.stats.nodes = s.size := by
    rw [size_eq_length, ← hmet, List.length_map]
    exact hnodes_eq
  obtain ⟨first, hroot, hs⟩ := h.unfolds
  obtain ⟨htwice, hleaves⟩ := h.countP_isSome
  constructor
  case nodes_eq => exact hsize.trans h.size_eq.symm
  case branches_eq => rw [hforks, hall]
  case terminated_eq => rw [hall]; exact hterminated
  case openLeaves_eq => rw [hall]; exact hopen
  case kinds_eq => exact fun name => by rw [hall]; exact hkinds name
  case reasons_eq => exact fun name => by rw [hall]; exact hreasons name
  case total_kinds => exact htotal
  case total_reasons => exact htotal'
  case steps_le =>
    intro id steps hway
    obtain ⟨n, hn, _⟩ := h.exists_mem_of_way hway
    rw [← h.preorder_eq] at hn
    exact hle _ hn
  case of_root =>
    refine fun _ => ⟨?_, ?_, ?_⟩
    · rw [hsize, htwice, hforks]
    · rw [hforks, ← hleaves, countP_isLeaf_eq hnodes]
      exact congrArg₂ _ hterminated hopen
    · rcases hdeepest with ⟨hnil, _⟩ | ⟨m, hm, hdepth⟩
      · obtain ⟨n, hn, _⟩ := hs.head_mem 0
        rw [← h.preorder_eq, hnil] at hn
        cases hn
      · exact ⟨m.1.id, (h.isWalked.way_iff m hm _).2 hdepth.symm⟩
  case of_empty =>
    intro hnone
    rw [hroot] at hnone
    cases hnone

lemma isLinked_empty : empty.IsLinked where
  named id n hn := by cases hn
  root_iff id := ⟨fun h => (by cases h), fun ⟨n, hn, _⟩ => (by cases hn)⟩
  child_linked id n hn := by cases hn
  parent_linked id n hn := by cases hn

lemma not_way_empty (id : NodeId) (steps : Nat) : ¬ empty.Way id steps := by
  intro h
  induction h with
  | root hroot => cases hroot
  | child _ _ _ ih => exact ih

lemma addsUp_empty : empty.stats.AddsUp empty where
  nodes_eq := rfl
  branches_eq := rfl
  terminated_eq := rfl
  openLeaves_eq := rfl
  kinds_eq _ := rfl
  reasons_eq _ := rfl
  total_kinds := rfl
  total_reasons := rfl
  steps_le id steps hway := absurd hway (not_way_empty id steps)
  of_root h := absurd rfl h
  of_empty _ := rfl

lemma isWalked_empty : empty.IsWalked where
  perm := .nil
  way_iff m hm := by cases hm
  done fuel := walk_nil empty _

/-- Whatever records build a tree, it is full, or empty if there were no records. The links of its nodes
agree, the walk from the root meets each node of the map once, with its depth, and its counts are those of a
full tree. -/
theorem adds_up (h : ofRecords? records = .ok t) :
    (records = [] ∧ t = empty ∨ records ≠ [] ∧ ∃ s : Shape Node, s.IsFull ∧ t.Whole s) ∧
      t.IsLinked ∧ t.IsWalked ∧ t.stats.AddsUp t := by
  rcases whole_of_ofRecords? h with ⟨rfl, rfl⟩ | ⟨hne, s, hs⟩
  · exact ⟨.inl ⟨rfl, rfl⟩, isLinked_empty, isWalked_empty, addsUp_empty⟩
  · obtain ⟨_, _, hunfolds⟩ := hs.unfolds
    have hnodes : ∀ n ∈ s.preorder, n.IsConsistent := fun n hn =>
      isConsistent_of_ofRecords? h _ n (hs.node?_of_mem hn)
    exact ⟨.inr ⟨hne, s, hunfolds.isFull, hs⟩, hs.isLinked, hs.isWalked, hs.addsUp hnodes⟩

/-- A root that forks twice on the right, with an end on each level. -/
theorem adds_up_of_two_forks :
    let records : List Log.Record := [.root ⟨1⟩, .branch ⟨1⟩ ⟨7⟩ ⟨3⟩ 11 .conditional,
      .terminate ⟨7⟩ (some ⟨2⟩) 27 .exit, .branch ⟨3⟩ ⟨5⟩ ⟨4⟩ 13 .switch, .terminate ⟨5⟩ none 25 .exit]
    ∃ t, ofRecords? records = .ok t ∧ t.IsLinked ∧ t.IsWalked ∧ t.stats.AddsUp t ∧
      t.stats.maxDepth = 2 ∧ t.stats.openLeaves = 1 := by
  intro records
  obtain ⟨t, ht⟩ : ∃ t, ofRecords? records = .ok t := ⟨_, rfl⟩
  obtain ⟨_, hlinked, hwalked, hadds⟩ := adds_up ht
  refine ⟨t, ht, hlinked, hwalked, hadds, ?_, ?_⟩
  · cases ht
    decide
  · cases ht
    decide

end Tree

end ForkTree.Replay
