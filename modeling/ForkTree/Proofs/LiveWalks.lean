import ForkTree.Proofs.LiveCalls
import ForkTree.Tree.Walk

/-!
The walks over a live tree that is as it should be. `Tree.Holds` says that in terms of the nodes: they
unfold from the root, each once and none left over, the leaves are the nodes with a bookmark, and a tree
that compresses is full. It follows from the invariant of the calls (`Shows.holds`), it is all that
`Tree.check` asks for (`Holds.check`), and it fixes the frontier as the leaves in their order
(`Shows.frontier_eq`).
-/

namespace ForkTree

open Shape

namespace Tree

/-- The live nodes form the given shape, with a bookmark at exactly the leaves. -/
structure Holds (t : Tree) (s : Shape (NodeKey × Node)) : Prop where
  unfolds : t.Unfolds none t.root s
  nodup : (s.preorder.map Prod.fst).Nodup
  complete : ∀ key n, t.node? key = some n → (key, n) ∈ s.preorder
  bookmarked : ∀ p ∈ s.preorder, p.2.bookmark.isSome = p.2.isLeaf
  full : t.compress = true → s.IsFull
  size_eq : t.size = s.size

lemma keys_cellsOf (e : Edge) (s : Shape (NodeKey × Node)) :
    (cellsOf e s).keys = s.preorder.map Prod.fst := by
  have h := congrArg Shape.preorder (map_cellsOf (fun key _ _ => key) e s)
  rwa [preorder_map, preorder_map] at h

lemma size_cellsOf (e : Edge) (s : Shape (NodeKey × Node)) : (cellsOf e s).size = s.size := by
  have h := congrArg Shape.size (map_cellsOf (fun key _ _ => key) e s)
  rwa [size_map, size_map] at h

lemma isFull_cellsOf (e : Edge) (s : Shape (NodeKey × Node)) : (cellsOf e s).IsFull ↔ s.IsFull := by
  have h := congrArg IsFull (map_cellsOf (fun key _ _ => key) e s)
  rwa [eq_iff_iff, isFull_map, isFull_map] at h

lemma isEmpty_cellsOf (e : Edge) (s : Shape (NodeKey × Node)) :
    (cellsOf e s).isEmpty = s.isEmpty := by
  have h := congrArg Shape.isEmpty (map_cellsOf (fun key _ _ => key) e s)
  rwa [isEmpty_map, isEmpty_map] at h

lemma Unfolds.node?_of_mem {t : Tree} {parent : Option NodeKey} {e : Edge}
    {s : Shape (NodeKey × Node)} (h : t.Unfolds parent e s) {p : NodeKey × Node}
    (hp : p ∈ s.preorder) : t.node? p.1 = some p.2 := by
  induction h with
  | nowhere => cases hp
  | node target live linked hleft hright ihl ihr =>
    rw [Shape.preorder, List.mem_cons, List.mem_append] at hp
    rcases hp with rfl | hp | hp
    · exact live
    · exact ihl hp
    · exact ihr hp

lemma Unfolds.bookmarked {t : Tree} {parent : Option NodeKey} {e : Edge}
    {s : Shape (NodeKey × Node)} (h : t.Unfolds parent e s) (hc : (cellsOf e s).IsBookmarked) :
    ∀ p ∈ s.preorder, p.2.bookmark.isSome = p.2.isLeaf := by
  induction h with
  | nowhere =>
    intro p hp
    cases hp
  | @node _ _ key n left right target live linked hleft hright ihl ihr =>
    obtain ⟨hself, hl, hr⟩ := hc
    intro p hp
    rw [Shape.preorder, List.mem_cons, List.mem_append] at hp
    rcases hp with rfl | hp | hp
    · rw [isEmpty_cellsOf, isEmpty_cellsOf, hleft.isEmpty_eq, hright.isEmpty_eq] at hself
      exact hself
    · exact ihl hl p hp
    · exact ihr hr p hp

theorem Shows.holds {t : Tree} {c : Shape Cell} (h : t.Shows c) :
    ∃ s, cellsOf t.root s = c ∧ t.Holds s := by
  obtain ⟨s, hs, rfl⟩ := h.reads.unfolds
  have hnodup := h.nodup
  have hsize := h.size_eq
  have hfull := h.full
  rw [keys_cellsOf] at hnodup
  rw [size_cellsOf] at hsize
  rw [isFull_cellsOf] at hfull
  refine ⟨s, rfl, hs, hnodup, ?_, hs.bookmarked h.bookmarked, hfull, hsize⟩
  intro key n hlive
  have hmem := h.live key (by rw [hlive]; rfl)
  rw [keys_cellsOf, List.mem_map] at hmem
  obtain ⟨p, hp, rfl⟩ := hmem
  have hp' := hs.node?_of_mem hp
  rw [hlive] at hp'
  cases hp'
  exact hp

lemma Unfolds.below_eq {t : Tree} {parent : Option NodeKey} {e : Edge}
    {s : Shape (NodeKey × Node)} (h : t.Unfolds parent e s) {fuel : Nat} (hfuel : s.height ≤ fuel) :
    e.target.toList.flatMap (t.below fuel) = s.preorder := by
  induction h generalizing fuel with
  | nowhere null => rw [null]; rfl
  | @node _ _ key n left right target live linked hleft hright ihl ihr =>
    rw [height] at hfuel
    obtain ⟨fuel, rfl⟩ : ∃ m, fuel = m + 1 := ⟨fuel - 1, by omega⟩
    have hl := @ihl fuel (by omega)
    have hr := @ihr fuel (by omega)
    rw [target, Option.toList_some, List.flatMap_singleton, Tree.below, live, Shape.preorder, ← hl, ← hr,
      ← List.flatMap_append]
    rfl

lemma Holds.preorder_eq {t : Tree} {s : Shape (NodeKey × Node)} (h : t.Holds s) :
    t.preorder = s.preorder :=
  h.unfolds.below_eq (by rw [h.size_eq]; exact height_le_size s)

lemma Unfolds.leaves_eq {t : Tree} {parent : Option NodeKey} {e : Edge}
    {s : Shape (NodeKey × Node)} (h : t.Unfolds parent e s) :
    s.preorder.filter (fun p => p.2.isLeaf) = s.leaves := by
  induction h with
  | nowhere => rfl
  | @node _ _ key n left right target live linked hleft hright ihl ihr =>
    have hself : n.isLeaf = (left.isEmpty && right.isEmpty) := by
      rw [hleft.isEmpty_eq, hright.isEmpty_eq]
      rfl
    rw [Shape.preorder, leaves, List.filter_cons, List.filter_append, ihl, ihr, hself]
    split
    · next hempty =>
      rw [Bool.and_eq_true] at hempty
      rw [leaves_of_isEmpty hempty.1, leaves_of_isEmpty hempty.2]
      rfl
    · rfl

theorem Shows.frontier_eq {t : Tree} {c : Shape Cell} (h : t.Shows c) (pool : Pool) :
    t.frontier pool =
      (c.leaves.filter fun c => c.bookmark.any pool.isAlive).map Cell.key := by
  obtain ⟨s, rfl, hs⟩ := h.holds
  have hleaves := congrArg Shape.leaves
    (map_cellsOf (fun key bookmark _ => (key, bookmark.any pool.isAlive)) t.root s)
  rw [leaves_map, leaves_map] at hleaves
  have halive : ∀ p : NodeKey × Node, (p.2.path? pool).isSome = p.2.bookmark.any pool.isAlive := by
    intro p
    unfold Node.path?
    cases p.2.bookmark with
    | none => rfl
    | some r => cases ha : pool.isAlive r <;> simp [Option.filter, ha]
  have hpairs : ∀ (l : List Cell) (l' : List (NodeKey × Node)),
      l.map (fun c => (c.key, c.bookmark.any pool.isAlive)) =
        l'.map (fun p => (p.1, p.2.bookmark.any pool.isAlive)) →
      (l.filter fun c => c.bookmark.any pool.isAlive).map Cell.key =
        (l'.filter fun p => p.2.bookmark.any pool.isAlive).map Prod.fst := by
    intro l l' heq
    have hfilter := congrArg (fun l => (l.filter fun q => q.2).map Prod.fst) heq
    simpa [List.filter_map, Function.comp_def] using hfilter
  rw [hpairs _ _ hleaves, frontier, hs.preorder_eq, ← hs.unfolds.leaves_eq, List.filter_filter]
  congr 1
  refine List.filter_congr fun p _ => ?_
  rw [← halive, Bool.and_comm]

/-- The visits behind an edge out of `parent`. -/
def visitEdge (t : Tree) (fuel : Nat) (parent : Option NodeKey) (e : Edge) : Except Defect Nat :=
  match e.target with
  | some key => t.visit fuel key parent
  | none => .ok 0

/-- What the check makes of the visits. -/
def verdict (t : Tree) : Except Defect Nat → Except Defect Unit
  | .error d => .error d
  | .ok visits => if visits = t.size then .ok () else .error (.unreachable ((t.size : Int) - visits))

lemma check_eq (t : Tree) : t.check = t.verdict (t.visitEdge (t.size + 1) none t.root) := by
  unfold check
  cases hroot : t.root.target with
  | none => simp only [visitEdge, hroot]; rfl
  | some key =>
    simp only [visitEdge, hroot]
    cases t.visit (t.size + 1) key none <;> rfl

lemma visitEdge_null {t : Tree} {fuel : Nat} {parent : Option NodeKey} {e : Edge}
    (null : e.target = none) : t.visitEdge fuel parent e = .ok 0 := by
  rw [visitEdge, null]

lemma visitEdge_dead {t : Tree} {fuel : Nat} {parent : Option NodeKey} {e : Edge} {key : NodeKey}
    (target : e.target = some key) (dead : t.node? key = none) :
    t.visitEdge (fuel + 1) parent e = .error (.danglingEdge key) := by
  simp only [visitEdge, target, visit, dead]

lemma visitEdge_defect {t : Tree} {fuel : Nat} {parent : Option NodeKey} {e : Edge} {key : NodeKey}
    {n : Node} {d : Defect} (target : e.target = some key) (live : t.node? key = some n)
    (hdefect : t.defectAt? key parent n = some d) : t.visitEdge (fuel + 1) parent e = .error d := by
  simp only [visitEdge, target, visit, live, hdefect]

lemma visitEdge_node {t : Tree} {fuel : Nat} {parent : Option NodeKey} {e : Edge} {key : NodeKey}
    {n : Node} (target : e.target = some key) (live : t.node? key = some n)
    (hnone : t.defectAt? key parent n = none) :
    t.visitEdge (fuel + 1) parent e = (do
      let right ← t.visitEdge fuel (some key) n.right
      let left ← t.visitEdge fuel (some key) n.left
      return 1 + right + left) := by
  simp only [visitEdge, target, visit, live, hnone]
  cases n.right.target <;> cases n.left.target <;> rfl

lemma defectAt?_eq_none_iff {t : Tree} {key : NodeKey} {parent : Option NodeKey} {n : Node} :
    t.defectAt? key parent n = none ↔ n.parent = parent ∧ n.bookmark.isSome = n.isLeaf ∧
      (t.compress = true → n.hasSingleChild = false) := by
  unfold defectAt?
  by_cases hparent : n.parent = parent
  · cases n.isLeaf <;> cases n.bookmark <;> cases t.compress <;> cases n.hasSingleChild <;> simp [hparent]
  · simp [hparent]

lemma Holds.visitEdge_eq {t : Tree} {root : Shape (NodeKey × Node)} (h : t.Holds root)
    {parent : Option NodeKey} {e : Edge} {s : Shape (NodeKey × Node)} (hs : t.Unfolds parent e s)
    (hsub : s.preorder ⊆ root.preorder) (hfull : t.compress = true → s.IsFull) {fuel : Nat}
    (hfuel : s.height ≤ fuel) : t.visitEdge fuel parent e = .ok s.size := by
  induction hs generalizing fuel with
  | nowhere null => exact visitEdge_null null
  | @node parent _ key n left right target live linked hleft hright ihl ihr =>
    rw [height] at hfuel
    obtain ⟨fuel, rfl⟩ : ∃ m, fuel = m + 1 := ⟨fuel - 1, by omega⟩
    rw [Shape.preorder, List.cons_subset, List.append_subset] at hsub
    obtain ⟨hself, hsubl, hsubr⟩ := hsub
    have hsingle : t.compress = true → n.hasSingleChild = false := by
      intro hc
      obtain ⟨hsame, _⟩ := hfull hc
      rw [hleft.isEmpty_eq, hright.isEmpty_eq] at hsame
      rw [Node.hasSingleChild, hsame, bne_self_eq_false]
    have hl := @ihl hsubl (fun hc => (hfull hc).2.1) fuel (by omega)
    have hr := @ihr hsubr (fun hc => (hfull hc).2.2) fuel (by omega)
    rw [visitEdge_node target live (defectAt?_eq_none_iff.2 ⟨linked, h.bookmarked _ hself, hsingle⟩), hl, hr,
      Shape.size, Nat.add_right_comm]
    rfl

theorem Holds.check {t : Tree} {s : Shape (NodeKey × Node)} (h : t.Holds s) : t.check = .ok () := by
  have hheight : s.height ≤ t.size + 1 := by
    have := height_le_size s
    rw [h.size_eq]
    omega
  have hvisits := h.visitEdge_eq h.unfolds (List.Subset.refl _) h.full hheight
  rw [check_eq, hvisits, verdict, if_pos h.size_eq.symm]

end Tree

end ForkTree
