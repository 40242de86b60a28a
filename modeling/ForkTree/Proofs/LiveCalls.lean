import ForkTree.Proofs.LiveRemoval
import Mathlib.Data.List.Nodup

/-!
The calls on a live tree by what they do to its cells. `Tree.Shows` is the invariant between calls: the
cells span the tree, its leaves are the cells with a bookmark, and a tree that compresses is full. A
fork grows the shape at one leaf (`Shows.attach`), an end prunes it there (`Shows.remove`), and a call
that is refused leaves the tree and the paths as they were (`attach_refused`, `remove_refused`).
-/

namespace ForkTree

open Shape

/-- The cells that bookmark a path are the leaves. -/
def Shape.IsBookmarked : Shape Cell → Prop
  | .empty => True
  | .node c left right =>
    c.bookmark.isSome = (left.isEmpty && right.isEmpty) ∧ left.IsBookmarked ∧ right.IsBookmarked

/-- Put a shape in the place of the leaf with a key. -/
def Shape.growAt (key : NodeKey) (s : Shape Cell) (grown : Shape Cell) : Shape Cell :=
  s.grow fun c => if c.key = key then grown else leaf c

/-- Take the leaf with a key away, with everything that has no other leaf below it. -/
def Shape.cutAt (key : NodeKey) (s : Shape Cell) : Shape Cell := s.prune fun c => c.key ≠ key

/-- Change the cell with a key. -/
def Shape.editAt (key : NodeKey) (edit : Cell → Cell) (s : Shape Cell) : Shape Cell :=
  s.map fun c => if c.key = key then edit c else c

/-- What is left of a shape when the leaf with a key ends. -/
def Shape.removed (compress : Bool) (key : NodeKey) (s : Shape Cell) : Shape Cell :=
  if compress then (s.cutAt key).contract else s.cutAt key

/-- A leaf after it forked. -/
def Cell.forked (c : Cell) (reason : BranchReason) (line : UInt64) : Cell :=
  { c with bookmark := none, note := c.note.map ({ · with reason, line }) }

/-- What a fork puts in the place of a leaf. -/
def Cell.fork (c : Cell) (reason : BranchReason) (line : UInt64) (left right : Cell) : Shape Cell :=
  .node (c.forked reason line) (leaf left) (leaf { right with tag := c.tag })

def Cell.withKind (c : Cell) (kind : TerminationKind) : Cell :=
  { c with note := c.note.map ({ · with kind }) }

/-- The line that a path is recorded with. -/
def Pool.lineOf (p : Pool) (r : PathRef) : UInt64 := ((p.get? r).bind PathState.prevLine).getD 0

namespace Tree

/-- The note of the next leaf after `i` more of them. -/
def noteAfter (t : Tree) (i : UInt64) : Option Note :=
  if t.recorded then some (.fresh ⟨t.nextId + i⟩) else none

/-- The invariant between calls. -/
structure Shows (t : Tree) (s : Shape Cell) : Prop extends Spans t s where
  bookmarked : s.IsBookmarked
  full : t.compress = true → s.IsFull

/-- What a fork of the leaf `c` into `l` and `r` makes of a tree. -/
structure Attached (t u : Tree) (s : Shape Cell) (c : Cell) (left right : PathRef)
    (reason : BranchReason) (line : UInt64) (l r : NodeKey) : Prop where
  shows : u.Shows (s.growAt c.key (c.fork reason line ⟨l, 0, some left, t.noteAfter 0⟩
    ⟨r, 0, some right, t.noteAfter 1⟩))
  left_fresh : l ∉ s.keys
  right_fresh : r ∉ s.keys
  left_ne_right : l ≠ r
  compress_eq : u.compress = t.compress
  recorded_eq : u.recorded = t.recorded
  nextId_eq : u.nextId = if t.recorded then t.nextId + 2 else t.nextId

def attachRefusal? (t : Tree) (pool : Pool) (key : NodeKey) (right : PathRef) : Option Fault :=
  match t.node? key with
  | none => some (.dead key)
  | some n =>
    if !n.isLeaf then some (.attachToInner key)
    else if (pool.get? right).bind PathState.node ≠ some key then some .foreignRight
    else none

/-- Take a leaf out that has lost its bookmark. -/
def takeOut (t : Tree) (key : NodeKey) : Except Fault Unit × Tree :=
  match prune t.size t key with
  | (.error fault, t) => (.error fault, t)
  | (.ok none, t) => (.ok (), t)
  | (.ok (some survivor), t) => if t.compress then t.splice survivor else (.ok (), t)

/-- The end of the path at a leaf would be recorded, but that path is being written. -/
def isBlocked (t : Tree) (pool : Pool) (uses : Uses) (key : NodeKey) : Bool :=
  (t.node? key).any fun n =>
    n.isLeaf && (n.note.isSome && (n.path? pool).any fun r => uses r = .writing)

def removeRefusal? (t : Tree) (key : NodeKey) : Option Fault :=
  match t.node? key with
  | none => some (.dead key)
  | some n => if !n.isLeaf then some (.removeOfInner key) else none

end Tree

lemma Shape.isBookmarked_leaf {c : Cell} (h : c.bookmark.isSome = true) :
    (leaf c).IsBookmarked := by
  rw [leaf, IsBookmarked]
  exact ⟨h, trivial, trivial⟩

lemma Shape.IsBookmarked.of_mem_leaves {s : Shape Cell} (h : s.IsBookmarked) {c : Cell}
    (hc : c ∈ s.leaves) : c.bookmark.isSome = true := by
  induction s with
  | empty => cases hc
  | node a left right hleft hright =>
    obtain ⟨hbookmark, hl, hr⟩ := h
    rw [leaves] at hc
    split at hc
    · next hempty =>
      rw [List.mem_singleton.1 hc, hbookmark, hempty]
    · rcases List.mem_append.1 hc with hc | hc
      · exact hleft hl hc
      · exact hright hr hc

lemma Shape.IsBookmarked.prune {s : Shape Cell} (h : s.IsBookmarked) (keep : Cell → Bool) :
    (s.prune keep).IsBookmarked := by
  induction s with
  | empty => trivial
  | node a left right hleft hright =>
    obtain ⟨hbookmark, hl, hr⟩ := h
    rw [Shape.prune]
    split
    · next hempty =>
      rw [hempty] at hbookmark
      split
      · exact isBookmarked_leaf hbookmark
      · trivial
    · next hne =>
      split
      · trivial
      · next hkept =>
        rw [Bool.not_eq_true] at hne hkept
        exact ⟨by rw [hbookmark, hne, hkept], hleft hl, hright hr⟩

lemma Shape.IsBookmarked.contract {s : Shape Cell} (h : s.IsBookmarked) :
    s.contract.IsBookmarked := by
  induction s with
  | empty => trivial
  | node a left right hleft hright =>
    obtain ⟨hbookmark, hl, hr⟩ := h
    rw [Shape.contract]
    split
    · next hempty => exact isBookmarked_leaf (by rw [hbookmark, hempty])
    · next hne =>
      split
      · exact hright hr
      · split
        · exact hleft hl
        · rw [Bool.not_eq_true] at hne
          exact ⟨by rw [hbookmark, isEmpty_contract, isEmpty_contract], hleft hl, hright hr⟩

lemma Shape.IsBookmarked.grow {s : Shape Cell} (h : s.IsBookmarked) {f : Cell → Shape Cell}
    (hf : ∀ c ∈ s.leaves, (f c).IsBookmarked) (hne : ∀ c ∈ s.leaves, (f c).isEmpty = false) :
    (s.grow f).IsBookmarked := by
  induction s with
  | empty => trivial
  | node a left right hleft hright =>
    obtain ⟨hbookmark, hl, hr⟩ := h
    rw [Shape.grow]
    split
    · next hempty => exact hf a (mem_leaves_node hempty)
    · next hinner =>
      obtain ⟨hfl, hfr⟩ := forall_leaves_node hf hinner
      obtain ⟨hnel, hner⟩ := forall_leaves_node hne hinner
      exact ⟨by rw [hbookmark, isEmpty_grow hnel, isEmpty_grow hner], hleft hl hfl hnel,
        hright hr hfr hner⟩

lemma Shape.IsFull.grow {s : Shape Cell} (h : s.IsFull) {f : Cell → Shape Cell}
    (hf : ∀ c ∈ s.leaves, (f c).IsFull) (hne : ∀ c ∈ s.leaves, (f c).isEmpty = false) :
    (s.grow f).IsFull := by
  induction s with
  | empty => trivial
  | node a left right hleft hright =>
    obtain ⟨hsame, hl, hr⟩ := h
    rw [Shape.grow]
    split
    · next hempty => exact hf a (mem_leaves_node hempty)
    · next hinner =>
      obtain ⟨hfl, hfr⟩ := forall_leaves_node hf hinner
      obtain ⟨hnel, hner⟩ := forall_leaves_node hne hinner
      exact ⟨by rw [isEmpty_grow hnel, isEmpty_grow hner, hsame], hleft hl hfl hnel,
        hright hr hfr hner⟩

lemma Shape.IsBookmarked.growAt {s : Shape Cell} (h : s.IsBookmarked) (key : NodeKey)
    {grown : Shape Cell} (hgrown : grown.IsBookmarked) (hne : grown.isEmpty = false) :
    (s.growAt key grown).IsBookmarked := by
  refine h.grow (fun c hc => ?_) fun c _ => ?_
  · split
    · exact hgrown
    · exact isBookmarked_leaf (h.of_mem_leaves hc)
  · split
    · exact hne
    · rfl

lemma Shape.IsFull.growAt {s : Shape Cell} (h : s.IsFull) (key : NodeKey) {grown : Shape Cell}
    (hgrown : grown.IsFull) (hne : grown.isEmpty = false) : (s.growAt key grown).IsFull := by
  refine h.grow (fun c _ => ?_) fun c _ => ?_
  · split
    · exact hgrown
    · exact ⟨rfl, trivial, trivial⟩
  · split
    · exact hne
    · rfl

lemma isBookmarked_fork {c left right : Cell} (reason : BranchReason) (line : UInt64)
    (hleft : left.bookmark.isSome = true) (hright : right.bookmark.isSome = true) :
    (c.fork reason line left right).IsBookmarked :=
  ⟨rfl, isBookmarked_leaf hleft, isBookmarked_leaf hright⟩

lemma isFull_fork (c left right : Cell) (reason : BranchReason) (line : UInt64) :
    (c.fork reason line left right).IsFull :=
  ⟨rfl, ⟨rfl, trivial, trivial⟩, ⟨rfl, trivial, trivial⟩⟩

lemma Shape.eq_of_key_eq {s : Shape Cell} (hnodup : s.keys.Nodup) {c d : Cell}
    (hc : c ∈ s.preorder) (hd : d ∈ s.preorder) (h : c.key = d.key) : c = d :=
  List.inj_on_of_nodup_map hnodup hc hd h

lemma Shape.cutAt_plug {above : List (Frame Cell)} {c : Cell}
    (h : (plug above (leaf c)).keys.Nodup) :
    (plug above (leaf c)).cutAt c.key = plug (above.dropWhile fun f => f.beside.isEmpty) .empty := by
  obtain ⟨_, _, hdisjoint⟩ := nodup_keys_plug.1 h
  have hkeep : ∀ a ∈ around above, decide (a.key ≠ c.key) = true := by
    intro a ha
    rw [decide_eq_true_eq]
    intro e
    exact hdisjoint c.key (by simp) (e ▸ List.mem_map_of_mem ha)
  rw [cutAt, prune_plug _ above (isEmpty_leaf c) hkeep]
  simp [leaf, Shape.prune]

lemma Shape.growAt_plug {above : List (Frame Cell)} {c : Cell}
    (h : (plug above (leaf c)).keys.Nodup) (grown : Shape Cell) :
    (plug above (leaf c)).growAt c.key grown = plug above grown := by
  obtain ⟨_, _, hdisjoint⟩ := nodup_keys_plug.1 h
  have hsame : ∀ a ∈ around above, (if a.key = c.key then grown else leaf a) = leaf a := by
    intro a ha
    refine if_neg fun e => ?_
    exact hdisjoint c.key (by simp) (e ▸ List.mem_map_of_mem ha)
  rw [growAt, grow_plug _ (isEmpty_leaf c) hsame, grow_leaf, if_pos rfl]

lemma Shape.keys_editAt (s : Shape Cell) (key : NodeKey) {edit : Cell → Cell}
    (hkey : ∀ c, (edit c).key = c.key) : (s.editAt key edit).keys = s.keys := by
  have hsame : ∀ c : Cell, (if c.key = key then edit c else c).key = c.key := fun c => by
    split
    · exact hkey c
    · rfl
  simp only [Shape.keys, Shape.editAt, preorder_map, List.map_map]
  exact List.map_congr_left fun c _ => hsame c

lemma Shape.editAt_plug {above : List (Frame Cell)} {c : Cell}
    (h : (plug above (leaf c)).keys.Nodup) (edit : Cell → Cell) :
    (plug above (leaf c)).editAt c.key edit = plug above (leaf (edit c)) := by
  obtain ⟨_, _, hdisjoint⟩ := nodup_keys_plug.1 h
  have hsame : ∀ a ∈ around above, (if a.key = c.key then edit a else a) = a := by
    intro a ha
    refine if_neg fun e => ?_
    exact hdisjoint c.key (by simp) (e ▸ List.mem_map_of_mem ha)
  rw [editAt, map_plug _ hsame, map_leaf, if_pos rfl]

lemma Shape.leaves_removed (s : Shape Cell) (compress : Bool) (key : NodeKey) :
    (s.removed compress key).leaves = s.leaves.filter fun c => c.key ≠ key := by
  rw [removed, ← leaves_prune]
  split
  · exact leaves_contract _
  · rfl

/-- A leaf that forks makes room for two. -/
lemma Shape.mem_leaves_growAt {s : Shape Cell} {c : Cell} (hc : c ∈ s.leaves) (reason : BranchReason)
    (line : UInt64) (left right : Cell) {d : Cell} :
    d ∈ (s.growAt c.key (c.fork reason line left right)).leaves ↔
      d = left ∨ d = { right with tag := c.tag } ∨ d ∈ s.leaves ∧ d.key ≠ c.key := by
  have hfork : (c.fork reason line left right).leaves = [left, { right with tag := c.tag }] := rfl
  rw [growAt, leaves_grow fun a _ => by split <;> rfl, List.mem_flatMap]
  constructor
  · rintro ⟨a, ha, hd⟩
    split at hd
    · rw [hfork, List.mem_cons, List.mem_singleton] at hd
      exact hd.imp_right .inl
    · next hkey =>
      rw [leaves_leaf, List.mem_singleton] at hd
      exact .inr (.inr (hd ▸ ⟨ha, hkey⟩))
  · rintro (rfl | rfl | ⟨hd, hkey⟩)
    · exact ⟨c, hc, by rw [if_pos rfl, hfork]; exact List.mem_cons_self⟩
    · exact ⟨c, hc, by rw [if_pos rfl, hfork]; exact List.mem_cons_of_mem _ List.mem_cons_self⟩
    · exact ⟨d, hd, by rw [if_neg hkey]; exact List.mem_singleton.2 rfl⟩

lemma Shape.IsBookmarked.editAt {s : Shape Cell} (h : s.IsBookmarked) (key : NodeKey)
    {edit : Cell → Cell} (hedit : ∀ c, (edit c).bookmark = c.bookmark) :
    (s.editAt key edit).IsBookmarked := by
  have hsame : ∀ c : Cell, (if c.key = key then edit c else c).bookmark = c.bookmark := fun c => by
    split
    · exact hedit c
    · rfl
  induction s with
  | empty => trivial
  | node a left right hleft hright =>
    obtain ⟨hbookmark, hl, hr⟩ := h
    refine ⟨?_, hleft hl, hright hr⟩
    rw [hsame, isEmpty_map, isEmpty_map, hbookmark]

namespace Tree

lemma Reads.node?_of_mem_leaves {t : Tree} {parent : Option NodeKey} {e : Edge} {s : Shape Cell}
    (h : t.Reads parent e s) {c : Cell} (hc : c ∈ s.leaves) :
    ∃ n, t.node? c.key = some n ∧ n.isLeaf = true ∧ n.bookmark = c.bookmark ∧ n.note = c.note := by
  induction h with
  | nowhere => cases hc
  | @node _ _ key n left right target live linked hleft hright ihl ihr =>
    rw [leaves] at hc
    split at hc
    · next hempty =>
      rw [hleft.isEmpty_eq, hright.isEmpty_eq] at hempty
      rw [List.mem_singleton.1 hc]
      exact ⟨n, live, hempty, rfl, rfl⟩
    · rcases List.mem_append.1 hc with hc | hc
      · exact ihl hc
      · exact ihr hc

lemma Reads.exists_mem_leaves {t : Tree} {parent : Option NodeKey} {e : Edge} {s : Shape Cell}
    (h : t.Reads parent e s) {key : NodeKey} (hkey : key ∈ s.keys) {n : Node}
    (hlive : t.node? key = some n) (hleaf : n.isLeaf = true) : ∃ c ∈ s.leaves, c.key = key := by
  induction h with
  | nowhere => cases hkey
  | @node _ _ key' m left right target live linked hleft hright ihl ihr =>
    rw [keys_node, List.mem_cons, List.mem_append] at hkey
    rw [leaves]
    split
    · next hempty =>
      rw [Bool.and_eq_true, Shape.isEmpty_iff, Shape.isEmpty_iff] at hempty
      simp only [hempty, keys_empty, List.not_mem_nil, or_false] at hkey
      exact ⟨_, List.mem_singleton.2 rfl, hkey.symm⟩
    · next hinner =>
      rcases hkey with hkey | hkey | hkey
      · rw [hkey] at hlive
        change t.node? key' = some n at hlive
        rw [live] at hlive
        cases hlive
        rw [hleft.isEmpty_eq, hright.isEmpty_eq] at hinner
        exact absurd hleaf hinner
      · obtain ⟨c, hc, e⟩ := ihl hkey
        exact ⟨c, List.mem_append_left _ hc, e⟩
      · obtain ⟨c, hc, e⟩ := ihr hkey
        exact ⟨c, List.mem_append_right _ hc, e⟩

lemma Spans.exists_leaf {t : Tree} {s : Shape Cell} (h : t.Spans s) {key : NodeKey} {n : Node}
    (hlive : t.node? key = some n) (hleaf : n.isLeaf = true) : ∃ c ∈ s.leaves, c.key = key :=
  h.reads.exists_mem_leaves (h.live key (by rw [hlive]; rfl)) hlive hleaf

lemma insertLeaf_spec {t : Tree} (h : t.nodes.IsValid) (parent : Option NodeKey) (path : PathRef)
    (hsmall : (t.insertLeaf parent path).2.nodes.slots.size ≤ UInt32.size) :
    let key := (t.insertLeaf parent path).1
    let u := (t.insertLeaf parent path).2
    t.node? key = none ∧ u.nodes.IsValid ∧ u.size = t.size + 1 ∧
      ∀ other, u.node? other =
        if other = key then some (.leaf parent path (t.noteAfter 0)) else t.node? other := by
  have hnote : (if t.recorded then some (Note.fresh ⟨t.nextId⟩) else none) = t.noteAfter 0 := by
    simp [noteAfter]
  simp only [insertLeaf, hnote] at hsmall ⊢
  exact ⟨Arena.get?_insert_key h _ hsmall, h.insert _, Arena.size_insert _ _,
    Arena.get?_insert h _ hsmall⟩

lemma slots_size_insertLeaf (t : Tree) (parent : Option NodeKey) (path : PathRef) :
    t.nodes.slots.size ≤ (t.insertLeaf parent path).2.nodes.slots.size :=
  Arena.slots_size_insert _ _

lemma attachRefusal?_eq_none {t : Tree} {pool : Pool} {key : NodeKey} {right : PathRef}
    (h : t.attachRefusal? pool key right = none) :
    ∃ n, t.node? key = some n ∧ n.isLeaf = true ∧
      (pool.get? right).bind PathState.node = some key := by
  unfold attachRefusal? at h
  split at h
  · cases h
  · next n live =>
    split at h
    · cases h
    · next hleaf =>
      split at h
      · cases h
      · next hright => exact ⟨n, live, by simpa using hleaf, by simpa using hright⟩

lemma attach_eq {t : Tree} {pool : Pool} {key : NodeKey} {right : PathRef}
    (h : t.attachRefusal? pool key right = none) (left : PathRef) (reason : BranchReason) :
    let l := (t.insertLeaf (some key) left).1
    let u := (t.insertLeaf (some key) left).2
    let r := (u.insertLeaf (some key) right).1
    t.attach pool .none key left right reason =
      ⟨.ok (l, r), (u.insertLeaf (some key) right).2.modify key
        (forked l r (t.incomingTag key) reason (pool.lineOf right)),
        (pool.setNode left (some l)).setNode right (some r)⟩ := by
  obtain ⟨n, live, hleaf, hright⟩ := attachRefusal?_eq_none h
  simp only [attach, live, hleaf, hright, Uses.none, addLeaf, Pool.lineOf]
  simp

lemma attach_refused {t : Tree} {pool : Pool} {key : NodeKey} {right : PathRef} {fault : Fault}
    (h : t.attachRefusal? pool key right = some fault) (left : PathRef) (reason : BranchReason) :
    t.attach pool .none key left right reason = ⟨.error fault, t, pool⟩ := by
  unfold attachRefusal? at h
  split at h
  · next live =>
    cases h
    simp only [attach, live]
  · next n live =>
    split at h
    · next hleaf =>
      cases h
      simp only [attach, live, hleaf, if_true]
    · next hleaf =>
      split at h
      · next hright =>
        cases h
        simp [attach, live, hleaf, Uses.none, hright]
      · cases h

lemma slots_size_attach (t : Tree) (pool : Pool) (key : NodeKey) (left right : PathRef)
    (reason : BranchReason) :
    t.nodes.slots.size ≤ (t.attach pool .none key left right reason).tree.nodes.slots.size := by
  cases h : t.attachRefusal? pool key right with
  | some fault =>
    exact Nat.le_of_eq (by rw [attach_refused h])
  | none =>
    rw [attach_eq h]
    simp only [modify, Arena.slots_size_modify]
    exact Nat.le_trans (slots_size_insertLeaf t _ _) (slots_size_insertLeaf _ _ _)

lemma Spans.attachRefusal?_eq {t : Tree} {s : Shape Cell} (h : t.Spans s) {c : Cell}
    (hc : c ∈ s.leaves) {pool : Pool} {right : PathRef}
    (hright : (pool.get? right).bind PathState.node = some c.key) :
    t.attachRefusal? pool c.key right = none := by
  obtain ⟨n, live, hleaf, _⟩ := h.reads.node?_of_mem_leaves hc
  simp only [attachRefusal?, live, hleaf, hright]
  simp

lemma Spans.incomingTag_eq {t : Tree} {s : Shape Cell} (h : t.Spans s) {c : Cell}
    (hc : c ∈ s.preorder) : t.incomingTag c.key = c.tag := by
  obtain ⟨above, left, right, rfl⟩ := exists_plug_of_mem hc
  obtain ⟨parent, e, hspine, hread⟩ := h.reads.spine
  obtain ⟨n, target, live, linked, hcell, _⟩ := hread.node_inv
  have hkey : c.key ∉ keysAround above := (nodup_keys_plug.1 h.nodup).2.2 _ (by simp [keys_node])
  have htag : c.tag = e.tag := by rw [hcell, Cell.ofNode]
  rw [incomingTag, hspine.incoming? target live linked hkey, htag]
  rfl

lemma Spans.fork {t u : Tree} {s : Shape Cell} (h : t.Spans s) {c : Cell} (hc : c ∈ s.leaves)
    {l r : NodeKey} (hl : l ∉ s.keys) (hr : r ∉ s.keys) (hlr : l ≠ r) {left right : PathRef}
    {noteL noteR : Option Note} {reason : BranchReason} {line : UInt64} (hvalid : u.nodes.IsValid)
    (hsize : u.size = t.size + 2) (hroot : u.root = t.root)
    (hnode : ∀ key, u.node? key =
      if key = c.key then (t.node? c.key).map (forked l r c.tag reason line)
      else if key = r then some (.leaf (some c.key) right noteR)
      else if key = l then some (.leaf (some c.key) left noteL)
      else t.node? key) :
    u.Spans (s.growAt c.key (c.fork reason line ⟨l, 0, some left, noteL⟩
      ⟨r, 0, some right, noteR⟩)) := by
  obtain ⟨above, rfl⟩ := exists_plug_of_mem_leaves hc
  rw [growAt_plug h.nodup]
  obtain ⟨parent, e, hspine, hleaf⟩ := h.reads.spine
  obtain ⟨n, target, live, linked, hcell, _⟩ := hleaf.node_inv
  rw [mem_keys_plug, not_or, keys_leaf, List.mem_singleton] at hl hr
  obtain ⟨_, hnodup, hdisjoint⟩ := nodup_keys_plug.1 h.nodup
  have hca : c.key ∉ keysAround above := hdisjoint _ (by simp)
  have hkeys : (c.fork reason line ⟨l, 0, some left, noteL⟩ ⟨r, 0, some right, noteR⟩).keys =
      [c.key, l, r] := rfl
  have hliveC : u.node? c.key = some (forked l r c.tag reason line n) := by
    rw [hnode, if_pos rfl, live]
    rfl
  have hliveL : u.node? l = some (.leaf (some c.key) left noteL) := by
    rw [hnode, if_neg hl.1, if_neg hlr, if_pos rfl]
  have hliveR : u.node? r = some (.leaf (some c.key) right noteR) := by
    rw [hnode, if_neg hr.1, if_pos rfl]
  have hspine' : u.Spine above parent e := hspine.congr hroot fun key hk => by
    rw [hnode, if_neg (ne_of_mem_of_not_mem hk hca), if_neg (ne_of_mem_of_not_mem hk hr.2),
      if_neg (ne_of_mem_of_not_mem hk hl.2)]
  have hforked : u.Reads parent e (c.fork reason line ⟨l, 0, some left, noteL⟩
      ⟨r, 0, some right, noteR⟩) := by
    have hreads := Reads.node target hliveC linked
      (Reads.node (e := .plain l) rfl hliveL rfl (.nowhere rfl) (.nowhere rfl))
      (Reads.node (e := ⟨some r, c.tag⟩) rfl hliveR rfl (.nowhere rfl) (.nowhere rfl))
    have hitem : Cell.ofNode c.key e.tag (forked l r c.tag reason line n) = c.forked reason line := by
      rw [hcell]
      rfl
    rwa [hitem] at hreads
  refine ⟨hvalid, hspine'.plug hforked, ?_, ?_, ?_⟩
  · rw [nodup_keys_plug, hkeys]
    refine ⟨?_, hnodup, ?_⟩
    · simp [Ne.symm hl.1, Ne.symm hr.1, hlr]
    · simp [hca, hl.2, hr.2]
  · intro key hkey
    rw [mem_keys_plug, hkeys]
    by_cases hnew : key ∈ [c.key, l, r]
    · exact .inl hnew
    · simp only [List.mem_cons, List.not_mem_nil, or_false, not_or] at hnew
      rw [hnode, if_neg hnew.1, if_neg hnew.2.2, if_neg hnew.2.1] at hkey
      rcases mem_keys_plug.1 (h.live key hkey) with hk | hk
      · rw [keys_leaf, List.mem_singleton] at hk
        exact absurd hk hnew.1
      · exact .inr hk
  · have hcells := h.size_eq
    rw [size_plug] at hcells ⊢
    rw [hsize, hcells]
    exact Nat.add_right_comm _ _ _

theorem Shows.attach {t : Tree} {s : Shape Cell} (h : t.Shows s) {c : Cell} (hc : c ∈ s.leaves)
    {pool : Pool} {right : PathRef} (hright : (pool.get? right).bind PathState.node = some c.key)
    (left : PathRef) (reason : BranchReason)
    (hsmall : (t.attach pool .none c.key left right reason).tree.nodes.slots.size ≤ UInt32.size) :
    ∃ l r u, t.attach pool .none c.key left right reason =
        ⟨.ok (l, r), u, (pool.setNode left (some l)).setNode right (some r)⟩ ∧
      t.Attached u s c left right reason (pool.lineOf right) l r := by
  have heq := attach_eq (h.attachRefusal?_eq hc hright) left reason
  simp only [heq, modify, Arena.slots_size_modify] at hsmall
  refine ⟨_, _, _, heq, ?_⟩
  -- The two leaves are added one after the other.
  obtain ⟨hl, hvalidL, hsizeL, hnodeL⟩ := insertLeaf_spec h.valid (some c.key) left
    (Nat.le_trans (slots_size_insertLeaf _ _ _) hsmall)
  obtain ⟨hr, hvalidR, hsizeR, hnodeR⟩ := insertLeaf_spec hvalidL (some c.key) right hsmall
  have hnextL : (t.insertLeaf (some c.key) left).2.noteAfter 0 = t.noteAfter 1 := by
    cases hrec : t.recorded <;> simp [noteAfter, insertLeaf, hrec]
  have hnextR : ((t.insertLeaf (some c.key) left).2.insertLeaf (some c.key) right).2.nextId =
      if t.recorded then t.nextId + 2 else t.nextId := by
    cases hrec : t.recorded <;> simp [insertLeaf, hrec]
    rw [UInt64.add_assoc]
    rfl
  have hcompress : ((t.insertLeaf (some c.key) left).2.insertLeaf (some c.key) right).2.compress =
      t.compress := rfl
  have hrecorded : ((t.insertLeaf (some c.key) left).2.insertLeaf (some c.key) right).2.recorded =
      t.recorded := rfl
  have hroot : ((t.insertLeaf (some c.key) left).2.insertLeaf (some c.key) right).2.root = t.root :=
    rfl
  rw [hnextL] at hnodeR
  generalize (t.insertLeaf (some c.key) left).1 = l at *
  generalize ((t.insertLeaf (some c.key) left).2.insertLeaf (some c.key) right).1 = r at *
  generalize ((t.insertLeaf (some c.key) left).2.insertLeaf (some c.key) right).2 = v at *
  rw [hnodeL] at hr
  have hlr : l ≠ r := by
    intro e
    rw [if_pos e.symm] at hr
    cases hr
  rw [if_neg hlr.symm] at hr
  have hlkeys : l ∉ s.keys := fun hmem => by simpa [hl] using h.reads.node?_isSome hmem
  have hrkeys : r ∉ s.keys := fun hmem => by simpa [hr] using h.reads.node?_isSome hmem
  have hckey : c.key ∈ s.keys := List.mem_map_of_mem (leaves_subset_preorder s hc)
  have hcl : c.key ≠ l := fun e => hlkeys (e ▸ hckey)
  have hcr : c.key ≠ r := fun e => hrkeys (e ▸ hckey)
  have hspans := h.toSpans.fork (u := v.modify c.key
      (forked l r (t.incomingTag c.key) reason (pool.lineOf right))) hc hlkeys hrkeys hlr
    (hvalidR.modify _ _) (by rw [size_modify, hsizeR, hsizeL]) hroot fun key => by
      rw [node?_modify, h.incomingTag_eq (leaves_subset_preorder s hc)]
      split
      · rw [hnodeR, if_neg hcr, hnodeL, if_neg hcl]
      · rw [hnodeR, hnodeL]
  exact ⟨⟨hspans, h.bookmarked.growAt _ (isBookmarked_fork _ _ rfl rfl) rfl, fun hfull =>
      (h.full (hcompress ▸ hfull)).growAt _ (isFull_fork _ _ _ _ _) rfl⟩,
    hlkeys, hrkeys, hlr, hcompress, hrecorded, hnextR⟩

lemma Reads.edit {t : Tree} {parent : Option NodeKey} {e : Edge} {s : Shape Cell}
    (h : t.Reads parent e s) (key : NodeKey) {change : Node → Node} {edit : Cell → Cell}
    (hlinks : ∀ n, (change n).parent = n.parent ∧ (change n).left = n.left ∧
      (change n).right = n.right)
    (hcell : ∀ tag n, Cell.ofNode key tag (change n) = edit (.ofNode key tag n)) :
    (t.modify key change).Reads parent e (s.editAt key edit) := by
  induction h with
  | nowhere null => exact .nowhere null
  | @node parent e k n left right target live linked hleft hright ihl ihr =>
    obtain ⟨hparent, hl, hr⟩ := hlinks n
    by_cases hk : k = key
    · subst hk
      have hlive : (t.modify k change).node? k = some (change n) := by
        rw [node?_modify, if_pos rfl, live]
        rfl
      rw [← hl] at ihl
      rw [← hr] at ihr
      have hreads := Reads.node target hlive (hparent.trans linked) ihl ihr
      rw [hcell] at hreads
      simpa [Shape.editAt, Shape.map, Cell.ofNode] using hreads
    · have hlive : (t.modify key change).node? k = some n := by rw [node?_modify_of_ne t _ hk, live]
      have hitem : (if (Cell.ofNode k e.tag n).key = key then edit (.ofNode k e.tag n)
          else .ofNode k e.tag n) = .ofNode k e.tag n := if_neg hk
      have hreads := Reads.node target hlive linked ihl ihr
      rw [← hitem] at hreads
      exact hreads

lemma Spans.edit {t : Tree} {s : Shape Cell} (h : t.Spans s) (key : NodeKey)
    (change : Node → Node) (edit : Cell → Cell)
    (hlinks : ∀ n, (change n).parent = n.parent ∧ (change n).left = n.left ∧
      (change n).right = n.right)
    (hcell : ∀ tag n, Cell.ofNode key tag (change n) = edit (.ofNode key tag n))
    (hkey : ∀ c, (edit c).key = c.key) : (t.modify key change).Spans (s.editAt key edit) where
  valid := h.valid.modify _ _
  reads := h.reads.edit key hlinks hcell
  nodup := by
    rw [Shape.keys_editAt s key hkey]
    exact h.nodup
  live := by
    intro k hk
    rw [isSome_node?_modify] at hk
    rw [Shape.keys_editAt s key hkey]
    exact h.live k hk
  size_eq := by
    rw [size_modify, h.size_eq]
    exact (size_map _ s).symm

/-! ### Ends -/

lemma takesOut_takeOut (t : Tree) (key : NodeKey) :
    t.TakesOut (t.takeOut key).1 (t.takeOut key).2 := by
  have hprune := takesOut_prune t.size t key
  have hroot := @root_prune t.size t key
  unfold Tree.takeOut
  generalize Tree.prune t.size t key = pruned at *
  rcases pruned with ⟨fault | _ | survivor, u⟩
  · exact ⟨hprune.valid, hprune.settings_eq, fun _ e => hprune.stopped _ (by cases e; rfl)⟩
  · exact .of_ok hprune.valid hprune.settings_eq
  · simp only
    split
    · exact (takesOut_splice u survivor).after hprune.valid hprune.settings_eq (hroot nofun)
    · exact .of_ok hprune.valid hprune.settings_eq

lemma remove_refused_using {t : Tree} {key : NodeKey} {fault : Fault}
    (h : t.removeRefusal? key = some fault) (pool : Pool) (uses : Uses) :
    t.remove pool uses key = ⟨.error fault, t, pool⟩ := by
  unfold removeRefusal? at h
  split at h
  · next live =>
    cases h
    simp only [remove, live]
  · next n live =>
    split at h
    · next hleaf =>
      cases h
      simp only [remove, live, hleaf, if_true]
    · cases h

lemma remove_refused {t : Tree} {key : NodeKey} {fault : Fault} (h : t.removeRefusal? key = some fault)
    (pool : Pool) : t.remove pool .none key = ⟨.error fault, t, pool⟩ :=
  remove_refused_using h pool .none

lemma removeRefusal?_eq_none {t : Tree} {key : NodeKey} (h : t.removeRefusal? key = none) :
    ∃ n, t.node? key = some n ∧ n.isLeaf = true := by
  unfold removeRefusal? at h
  split at h
  · cases h
  · next n live =>
    split at h
    · cases h
    · next hleaf => exact ⟨n, live, by simpa using hleaf⟩

/-- The frames above a leaf are fewer than the nodes. -/
lemma Spans.length_lt_size {t : Tree} {above : List (Frame Cell)} {c : Cell}
    (h : t.Spans (plug above (leaf c))) : above.length < t.size := by
  have hlength := length_le_length_around above
  have hleaf : (leaf c).size = 1 := rfl
  rw [h.size_eq, size_plug, hleaf]
  omega

/-- In a tree that does not compress a leaf is cut off. -/
lemma Spans.takeOut_plain {t : Tree} {above : List (Frame Cell)} {c : Cell}
    (h : t.Spans (plug above (leaf c))) (hplain : t.compress = false) :
    ∃ u, t.takeOut c.key = (.ok (), u) ∧ u.Spans ((plug above (leaf c)).cutAt c.key) ∧
      u.settings = t.settings := by
  obtain ⟨hresult, hspans, hkept⟩ := h.prune h.length_lt_size
  rw [cutAt_plug h.nodup]
  unfold Tree.takeOut
  generalize Tree.prune t.size t c.key = pruned at *
  obtain ⟨result, u⟩ := pruned
  subst hresult
  have hcompress : u.compress = false := (congrArg (·.1) hkept).trans hplain
  refine ⟨u, ?_, hspans, hkept⟩
  cases (above.dropWhile fun f => f.beside.isEmpty).head? with
  | none => rfl
  | some f => exact if_neg (Bool.eq_false_iff.1 hcompress)

/-- In a full tree that compresses the node above the leaf goes with it. -/
lemma Spans.takeOut_compressing {t : Tree} {above : List (Frame Cell)} {c : Cell}
    (h : t.Spans (plug above (leaf c))) (hcompress : t.compress = true)
    (hfull : (plug above (leaf c)).IsFull) :
    ∃ u, t.takeOut c.key = (.ok (), u) ∧ u.Spans ((plug above (leaf c)).cutAt c.key).contract ∧
      u.settings = t.settings := by
  obtain ⟨hresult, hspans, hkept⟩ := h.prune h.length_lt_size
  rw [cutAt_plug h.nodup]
  rw [dropWhile_of_isFull (isEmpty_leaf c) hfull] at hresult hspans ⊢
  unfold Tree.takeOut
  generalize Tree.prune t.size t c.key = pruned at *
  obtain ⟨result, v⟩ := pruned
  subst hresult
  cases above with
  | nil => exact ⟨v, rfl, hspans, hkept⟩
  | cons f above =>
    have hframe := ((isFull_plug _ (isEmpty_leaf c)).1 hfull).2 f List.mem_cons_self
    obtain ⟨hdone, hspliced, hsame⟩ := hspans.splice hframe.1
    have hkeeps : v.compress = true := (congrArg (·.1) hkept).trans hcompress
    rw [contract_plug_empty hfull]
    refine ⟨(v.splice f.item.key).2, ?_, hspliced, hsame.trans hkept⟩
    exact (if_pos hkeeps).trans (Prod.ext hdone rfl)

/-- The leaf is cut off, and in a tree that compresses the node above it is elided. -/
lemma Shows.takeOut {t u : Tree} {above : List (Frame Cell)} {c c' : Cell}
    (h : t.Shows (plug above (leaf c))) (hu : u.Spans (plug above (leaf c'))) (hkey : c'.key = c.key)
    (hsettings : u.settings = t.settings) :
    ∃ w, u.takeOut c.key = (.ok (), w) ∧ w.Shows ((plug above (leaf c)).removed t.compress c.key) ∧
      w.settings = t.settings := by
  have hcut : (plug above (leaf c')).cutAt c.key = (plug above (leaf c)).cutAt c.key := by
    rw [cutAt_plug h.nodup, ← hkey, cutAt_plug hu.nodup]
  have hsame : u.compress = t.compress := congrArg (·.1) hsettings
  have hbookmarked : ((plug above (leaf c)).cutAt c.key).IsBookmarked := h.bookmarked.prune _
  rw [← hkey] at hcut hbookmarked ⊢
  rw [Shape.removed]
  cases hcompress : t.compress with
  | false =>
    obtain ⟨w, htaken, hspans, hkept⟩ := hu.takeOut_plain (hsame.trans hcompress)
    have hsettings' := hkept.trans hsettings
    have hplain : w.compress = false := (congrArg (·.1) hsettings').trans hcompress
    rw [hcut] at hspans
    refine ⟨w, htaken, ⟨hspans, hbookmarked, fun e => ?_⟩, hsettings'⟩
    rw [hplain] at e
    cases e
  | true =>
    have hfull : (plug above (leaf c')).IsFull := by
      rw [isFull_plug above (isEmpty_leaf c')]
      exact ⟨⟨rfl, trivial, trivial⟩, ((isFull_plug above (isEmpty_leaf c)).1 (h.full hcompress)).2⟩
    obtain ⟨w, htaken, hspans, hkept⟩ := hu.takeOut_compressing (hsame.trans hcompress) hfull
    rw [hcut] at hspans
    exact ⟨w, htaken, ⟨hspans, hbookmarked.contract, fun _ => isFull_contract _⟩, hkept.trans hsettings⟩

/-- A path that is not kept any more is not told. -/
lemma release_of_get?_eq_none {pool : Pool} {uses : Uses} {key : NodeKey} {path : PathRef}
    (h : pool.get? path = none) : release pool uses key path = pool := by
  rw [release, h]

/-- A path that is not kept any more might as well be there: there is nothing to read of it and nothing
to tell it. -/
lemma elim_path? (n : Node) (pool : Pool) (uses : Uses) (key : NodeKey) :
    (n.path? pool).bind pool.get? = n.bookmark.bind pool.get? ∧
      (n.path? pool).elim pool (release pool uses key) =
        n.bookmark.elim pool (release pool uses key) := by
  unfold Node.path?
  cases n.bookmark with
  | none => exact ⟨rfl, rfl⟩
  | some path =>
    cases hstate : pool.get? path with
    | none => simp [Option.filter, Pool.isAlive, hstate, release_of_get?_eq_none hstate]
    | some state => simp [Option.filter, Pool.isAlive, hstate]

/-- An end that is neither refused nor blocked takes the leaf out and lets go of its path. -/
lemma remove_using {t : Tree} {pool : Pool} {uses : Uses} {key : NodeKey} {n : Node}
    (live : t.node? key = some n) (hleaf : n.isLeaf = true)
    (hfree : t.isBlocked pool uses key = false) :
    t.remove pool uses key =
      let taken := (t.modify key ({ · with bookmark := none })).takeOut key
      ⟨taken.1.map fun _ => finalNote n.note (n.bookmark.bind pool.get?), taken.2,
        n.bookmark.elim pool (release pool uses key)⟩ := by
  have hread : (n.note.isSome && (n.path? pool).any fun r => uses r = .writing) = false := by
    simpa only [isBlocked, live, Option.any_some, hleaf, Bool.true_and] using hfree
  obtain ⟨hknown, htold⟩ := elim_path? n pool uses key
  rw [← hknown, ← htold]
  simp only [remove, live, hleaf, hread, Bool.not_true, Bool.false_eq_true, if_false, takeOut]
  generalize t.modify key _ = v
  rcases prune v.size v key with ⟨_ | _ | survivor, u⟩
  · cases n.path? pool <;> rfl
  · cases n.path? pool <;> rfl
  · cases hcompress : u.compress with
    | false => cases n.path? pool <;> simp [hcompress, Except.map]
    | true =>
      simp only [hcompress, if_true]
      rcases u.splice survivor with ⟨_ | _, w⟩
      · cases n.path? pool <;> rfl
      · cases n.path? pool <;> rfl

lemma isBlocked_none (t : Tree) (pool : Pool) (key : NodeKey) : t.isBlocked pool .none key = false := by
  have hidle : ∀ n : Node, (n.path? pool).any (fun r => Uses.none r = .writing) = false := fun n => by
    cases n.path? pool <;> rfl
  simp only [isBlocked, hidle, Bool.and_false]
  cases t.node? key <;> rfl

lemma remove_eq {t : Tree} {key : NodeKey} {n : Node} (live : t.node? key = some n)
    (hleaf : n.isLeaf = true) (pool : Pool) :
    t.remove pool .none key =
      let taken := (t.modify key ({ · with bookmark := none })).takeOut key
      ⟨taken.1.map fun _ => finalNote n.note (n.bookmark.bind pool.get?), taken.2,
        n.bookmark.elim pool (release pool .none key)⟩ :=
  remove_using live hleaf (isBlocked_none t pool key)

theorem Shows.remove {t : Tree} {s : Shape Cell} (h : t.Shows s) {c : Cell} (hc : c ∈ s.leaves)
    {path : PathRef} (hpath : c.bookmark = some path) (pool : Pool) :
    ∃ u, t.remove pool .none c.key =
        ⟨.ok (finalNote c.note (pool.get? path)), u, release pool .none c.key path⟩ ∧
      u.Shows (s.removed t.compress c.key) ∧ u.settings = t.settings := by
  obtain ⟨n, live, hleaf, hbookmark, hnote⟩ := h.reads.node?_of_mem_leaves hc
  have hspans := h.toSpans.edit c.key ({ · with bookmark := none }) ({ · with bookmark := none })
    (fun _ => ⟨rfl, rfl, rfl⟩) (fun _ _ => rfl) fun _ => rfl
  obtain ⟨above, rfl⟩ := exists_plug_of_mem_leaves hc
  rw [editAt_plug h.nodup] at hspans
  obtain ⟨u, htaken, hshows, hsettings⟩ := h.takeOut hspans rfl (settings_modify _ _ _)
  refine ⟨u, ?_, hshows, hsettings⟩
  rw [remove_eq live hleaf, htaken, hnote, hbookmark, hpath]
  rfl

lemma Shows.edit {t : Tree} {s : Shape Cell} (h : t.Shows s) (key : NodeKey)
    {change : Node → Node} {edit : Cell → Cell}
    (hlinks : ∀ n, (change n).parent = n.parent ∧ (change n).left = n.left ∧
      (change n).right = n.right)
    (hcell : ∀ tag n, Cell.ofNode key tag (change n) = edit (.ofNode key tag n))
    (hkey : ∀ c, (edit c).key = c.key) (hbookmark : ∀ c, (edit c).bookmark = c.bookmark) :
    (t.modify key change).Shows (s.editAt key edit) :=
  ⟨h.toSpans.edit key change edit hlinks hcell hkey, h.bookmarked.editAt key hbookmark, fun hfull =>
    (isFull_map _ s).2 (h.full hfull)⟩

theorem Shows.setKind {t : Tree} {s : Shape Cell} (h : t.Shows s) (path : PathState)
    (kind : TerminationKind) :
    (t.setKind path kind).Shows (path.node.elim s fun key => s.editAt key (·.withKind kind)) ∧
      (t.setKind path kind).settings = t.settings := by
  unfold Tree.setKind
  cases path.node with
  | none => exact ⟨h, rfl⟩
  | some key =>
    refine ⟨h.edit key (fun _ => ⟨rfl, rfl, rfl⟩) (fun _ _ => rfl) (fun _ => rfl) fun _ => rfl, ?_⟩
    exact settings_modify _ _ _

/-- The invariant is about nodes, the root edge and whether the tree compresses. -/
lemma Shows.congr {t u : Tree} {s : Shape Cell} (h : t.Shows s) (hnodes : u.nodes = t.nodes)
    (hroot : u.root = t.root) (hcompress : u.compress = t.compress) : u.Shows s where
  valid := hnodes ▸ h.valid
  reads := by
    rw [hroot]
    exact h.reads.congr fun key _ => by rw [node?, node?, hnodes]
  nodup := h.nodup
  live := by
    intro key hkey
    rw [node?, hnodes] at hkey
    exact h.live key hkey
  size_eq := by
    rw [size, hnodes]
    exact h.size_eq
  bookmarked := h.bookmarked
  full := hcompress ▸ h.full

theorem shows_start (path : PathRef) (compress recorded : Bool) (pool : Pool) :
    ∃ key, (start path compress recorded pool).2 = pool.setNode path (some key) ∧
      (start path compress recorded pool).1.Shows
        (leaf ⟨key, 0, some path, (bare compress recorded).noteAfter 0⟩) := by
  obtain ⟨_, hvalid, hsize, hnode⟩ := insertLeaf_spec (t := bare compress recorded)
    Arena.isValid_empty none path (Nat.le_of_ble_eq_true rfl)
  have hcompress : ((bare compress recorded).insertLeaf none path).2.compress = compress := rfl
  refine ⟨((bare compress recorded).insertLeaf none path).1, rfl, ?_⟩
  unfold start
  simp only
  generalize ((bare compress recorded).insertLeaf none path).1 = key at *
  generalize ((bare compress recorded).insertLeaf none path).2 = u at *
  have hlive : u.node? key = some (.leaf none path ((bare compress recorded).noteAfter 0)) := by
    rw [hnode, if_pos rfl]
  have hreads : u.Reads none (.plain key)
      (leaf ⟨key, 0, some path, (bare compress recorded).noteAfter 0⟩) :=
    .node rfl hlive rfl (.nowhere rfl) (.nowhere rfl)
  refine ⟨⟨hvalid, hreads.congr fun _ _ => rfl, ?_, ?_, hsize⟩, isBookmarked_leaf rfl, fun _ => ?_⟩
  · exact List.nodup_singleton _
  · intro other hother
    change (u.node? other).isSome at hother
    rw [hnode] at hother
    split at hother
    · next e => exact List.mem_singleton.2 e
    · cases hother
  · exact ⟨rfl, trivial, trivial⟩

end Tree

end ForkTree
