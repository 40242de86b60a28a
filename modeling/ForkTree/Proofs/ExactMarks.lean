import ForkTree.Proofs.EdgeBits
import ForkTree.Proofs.UsedPaths
import ForkTree.Proofs.Search

/-!
Where the searchers' bits are. Each searcher tracks some of the leaves, and a leaf that forks is tracked
from then on as the right child that its path goes to. `Tracks` are the trees and the tracked leaves that
calls and updates lead to, whatever becomes of the paths. There an edge carries a searcher's bit exactly if
a leaf that it tracks is at the end of the edge or below that, so the order of updates makes no difference,
and no update has to do with the bits of other searchers (`Tracks.marks_exact`).
-/

namespace ForkTree

open Shape

namespace Mask

lemma and_bit_ne_zero (tag : Mask) {i : Nat} (hi : i < 8) :
    (tag &&& (1 <<< UInt8.ofNat i) != 0) = tag.toBitVec[i] := by
  have hshift : ∀ i : Fin 8, ((1 : Mask) <<< UInt8.ofNat i.val).toBitVec = BitVec.twoPow 8 i.val := by
    decide
  have hzero : ∀ i : Fin 8, BitVec.twoPow 8 i.val ≠ 0#8 := by decide
  have hbits : (tag &&& (1 <<< UInt8.ofNat i)).toBitVec =
      if tag.toBitVec[i] then BitVec.twoPow 8 i else 0#8 := by
    rw [UInt8.toBitVec_and, hshift ⟨i, hi⟩, BitVec.and_twoPow, BitVec.getLsbD_eq_getElem hi]
  have hne := hzero ⟨i, hi⟩
  rw [Bool.eq_iff_iff, bne_iff_ne, ne_eq, ← UInt8.toBitVec_inj, hbits]
  split <;> simp_all

/-- The searchers' bits are all that there is on an edge. -/
lemma eq_of_all {tag tag' : Mask} (h : ∀ mask ∈ all, (tag &&& mask != 0) = (tag' &&& mask != 0)) :
    tag = tag' := by
  apply UInt8.eq_of_toBitVec_eq
  ext i hi
  rw [← and_bit_ne_zero tag hi, ← and_bit_ne_zero tag' hi]
  exact h _ (List.mem_map_of_mem (List.mem_range.2 hi))

end Mask

/-- The leaves that each searcher tracks. -/
abbrev Tracking := Mask → NodeKey → Bool

namespace Tracking

def empty : Tracking := fun _ _ => false

/-- After a fork of `key` its path is at `right`. -/
def fork (key right : NodeKey) (tracked : Tracking) : Tracking := fun mask k =>
  if k = right then tracked mask key else decide (k ≠ key) && tracked mask k

/-- A searcher goes on to track the leaves `added`, and then not those `removed`. -/
def update (mask : Mask) (added removed : List NodeKey) (tracked : Tracking) : Tracking :=
  Function.update tracked mask fun k => (tracked mask k || decide (k ∈ added)) && decide (k ∉ removed)

@[simp]
lemma update_self (tracked : Tracking) (mask : Mask) (added removed : List NodeKey) (key : NodeKey) :
    tracked.update mask added removed mask key =
      ((tracked mask key || decide (key ∈ added)) && decide (key ∉ removed)) := by
  rw [update, Function.update_self]

lemma update_of_ne (tracked : Tracking) {mask other : Mask} (h : other ≠ mask)
    (added removed : List NodeKey) : tracked.update mask added removed other = tracked other :=
  Function.update_of_ne h _ _

lemma eq_of_mask {tracked tracked' : Tracking} (mask : Mask)
    (h : ∀ key, tracked mask key = tracked' mask key)
    (hothers : ∀ other, other ≠ mask → tracked other = tracked' other) : tracked = tracked' := by
  funext other key
  by_cases hne : other = mask
  · rw [hne, h]
  · rw [hothers other hne]

lemma foldl_update_added (tracked : Tracking) (mask : Mask) (added : List NodeKey) :
    added.foldl (fun tracked key => update mask [key] [] tracked) tracked =
      tracked.update mask added [] := by
  induction added generalizing tracked with
  | nil => exact eq_of_mask mask (fun key => by simp) fun other h => (tracked.update_of_ne h _ _).symm
  | cons key added ih =>
    rw [List.foldl_cons, ih]
    refine eq_of_mask mask (fun k => by simp [Bool.or_assoc]) fun other h => ?_
    rw [update_of_ne _ h, update_of_ne _ h, update_of_ne _ h]

lemma foldl_update_removed (tracked : Tracking) (mask : Mask) (removed : List NodeKey) :
    removed.foldl (fun tracked key => update mask [] [key] tracked) tracked =
      tracked.update mask [] removed := by
  induction removed generalizing tracked with
  | nil => exact eq_of_mask mask (fun key => by simp) fun other h => (tracked.update_of_ne h _ _).symm
  | cons key removed ih =>
    rw [List.foldl_cons, ih]
    refine eq_of_mask mask (fun k => by simp [Bool.and_assoc]) fun other h => ?_
    rw [update_of_ne _ h, update_of_ne _ h, update_of_ne _ h]

/-- What is removed is removed after what is added. -/
lemma update_update (tracked : Tracking) (mask : Mask) (added removed : List NodeKey) :
    (tracked.update mask added []).update mask [] removed = tracked.update mask added removed := by
  refine eq_of_mask mask (fun key => by simp) fun other h => ?_
  rw [update_of_ne _ h, update_of_ne _ h, update_of_ne _ h]

end Tracking

namespace Tree

/-- What a searcher is told. -/
structure Update where
  mask : Mask
  added : List NodeKey
  removed : List NodeKey

namespace Update

/-- A searcher is told of leaves. -/
def Admits (t : Tree) (x : Update) : Prop :=
  x.mask ∈ Mask.all ∧ ∀ key ∈ x.added ++ x.removed, t.IsLeaf key

instance (t : Tree) (x : Update) : Decidable (x.Admits t) := inferInstanceAs (Decidable (_ ∧ _))

def run (t : Tree) (x : Update) : Tree := t.retrack x.mask x.added x.removed

def track (tracked : Tracking) (x : Update) : Tracking := tracked.update x.mask x.added x.removed

end Update

/-- A live tree with the leaves that the searchers track. A leaf that ends is not tracked any more. -/
inductive Tracks : Tree → Tracking → Prop
  | start (path : PathRef) (compress recorded : Bool) (pool : Pool) :
    Tracks (start path compress recorded pool).1 .empty
  | attach {t u : Tree} {tracked : Tracking} {pool pool' : Pool} {uses : Uses} {key l r : NodeKey}
    {left right : PathRef} {reason : BranchReason} (h : Tracks t tracked)
    (hcall : t.attach pool uses key left right reason = ⟨.ok (l, r), u, pool'⟩) :
    Tracks u (tracked.fork key r)
  | remove {t u : Tree} {tracked : Tracking} {pool pool' : Pool} {uses : Uses} {key : NodeKey}
    {note : Option Note} (h : Tracks t tracked) (hfree : ∀ mask, tracked mask key = false)
    (hcall : t.remove pool uses key = ⟨.ok note, u, pool'⟩) : Tracks u tracked
  | update {t : Tree} {tracked : Tracking} {x : Update} (h : Tracks t tracked) (hx : x.Admits t) :
    Tracks (x.run t) (x.track tracked)
  | setKind {t : Tree} {tracked : Tracking} (h : Tracks t tracked) (path : PathState)
    (kind : TerminationKind) : Tracks (t.setKind path kind) tracked
  | claimMask {t : Tree} {tracked : Tracking} (h : Tracks t tracked) : Tracks t.claimMask.2 tracked

/-- The root edge, and the edges of live nodes. -/
inductive HasEdge (t : Tree) : Edge → Prop
  | root : HasEdge t t.root
  | child {key : NodeKey} {n : Node} (live : t.node? key = some n) (side : Side) :
    HasEdge t (n.edgeAt side)

/-- The node is where an edge leads, or below that. -/
def IsBehind (t : Tree) (e : Edge) (key : NodeKey) : Prop :=
  ∃ y, e.target = some y ∧ (key = y ∨ t.Above y key)

/-- The cells are marked at and above the leaves that are tracked. -/
structure Marked (t : Tree) (tracked : Tracking) (s : Shape Cell) : Prop extends t.Shows s where
  marks : ∀ mask ∈ Mask.all, s.IsMarked (Cell.isMarked mask) fun c => tracked mask c.key
  placed : ∀ mask key, tracked mask key = true → ∃ c ∈ s.leaves, c.key = key

variable {t u : Tree} {s : Shape Cell} {tracked : Tracking} {mask : Mask} {key : NodeKey} {n : Node}

lemma Marked.of_untagged {s' : Shape Cell} {tracked' : Tracking} (h : t.Marked tracked s) (hu : u.Spans s')
    (hsame : s'.untagged = s.untagged) (hsettings : u.settings = t.settings)
    (hmarks : ∀ mask ∈ Mask.all, s'.IsMarked (Cell.isMarked mask) fun c => tracked' mask c.key)
    (hplaced : ∀ mask key, tracked' mask key = true → ∃ c ∈ s.leaves, c.key = key) :
    u.Marked tracked' s' := by
  refine ⟨h.toShows.of_untagged hu hsame hsettings, hmarks, fun mask key hkey => ?_⟩
  obtain ⟨c, hc, rfl⟩ := hplaced mask key hkey
  obtain ⟨d, hd, hkey, _⟩ := exists_leaf_of_untagged hsame.symm hc
  exact ⟨d, hd, hkey⟩

/-- Cells around a leaf have other keys. -/
lemma Spans.key_ne_of_mem_around {above : List (Frame Cell)} {c : Cell} (h : t.Spans (plug above (leaf c))) :
    ∀ b ∈ around above, b.key ≠ c.key := by
  intro b hb e
  exact (nodup_keys_plug.1 h.nodup).2.2 c.key (by simp) (e ▸ List.mem_map_of_mem hb)

lemma Marked.mark (h : t.Marked tracked s) (hmask : mask ∈ Mask.all) {c : Cell} (hc : c ∈ s.leaves) :
    ∃ s', s'.untagged = s.untagged ∧ (t.mark mask c.key).Marked (tracked.update mask [c.key] []) s' := by
  obtain ⟨above, rfl⟩ := exists_plug_of_mem_leaves hc
  have hleaf : t.Spans (plug (.ofLeaf c :: above) .empty) := h.toSpans
  have hspans : (t.mark mask c.key).Spans _ := hleaf.markUp mask h.toSpans.length_lt_size
  have hsame := untagged_climb (fun f => f.item.isMarked mask) (· ||| mask) (.ofLeaf c :: above) .empty
  refine ⟨_, hsame, h.of_untagged hspans hsame (settings_mark _ _ _) (fun other hother => ?_)
    fun other key hkey => ?_⟩
  · by_cases hne : other = mask
    · subst hne
      refine (h.marks other hother).markLeaf (fun b => b.isMarked_mark (Mask.ne_zero other hmask))
        (fun b hb => ?_) (by simp) (by simp [Cell.retag])
      simp [h.toSpans.key_ne_of_mem_around b hb]
    · rw [tracked.update_of_ne hne]
      exact (h.marks other hother).climbLeaf
        (fun b => b.isMarked_mark_of_disjoint (Mask.disjoint mask hmask other hother hne)) rfl _
  · by_cases hne : other = mask
    · subst hne
      rw [Tracking.update_self] at hkey
      simp only [List.mem_singleton, List.not_mem_nil, not_false_eq_true, decide_true, Bool.and_true,
        Bool.or_eq_true, decide_eq_true_eq] at hkey
      exact hkey.elim (h.placed other key) fun e => ⟨c, hc, e.symm⟩
    · rw [tracked.update_of_ne hne] at hkey
      exact h.placed other key hkey

lemma Marked.unmark (h : t.Marked tracked s) (hmask : mask ∈ Mask.all) {c : Cell} (hc : c ∈ s.leaves) :
    ∃ s', s'.untagged = s.untagged ∧ (t.unmark mask c.key).Marked (tracked.update mask [] [c.key]) s' := by
  obtain ⟨above, rfl⟩ := exists_plug_of_mem_leaves hc
  have hleaf : t.Spans (plug (.ofLeaf c :: above) .empty) := h.toSpans
  have hspans : (t.unmark mask c.key).Spans _ := hleaf.unmarkUp mask rfl h.toSpans.length_lt_size
  have hsame := untagged_climb (fun f => f.beside.topMarked (Cell.isMarked mask)) (· &&& ~~~mask)
    (.ofLeaf c :: above) .empty
  refine ⟨_, hsame, h.of_untagged hspans hsame (settings_unmark _ _ _) (fun other hother => ?_)
    fun other key hkey => ?_⟩
  · by_cases hne : other = mask
    · subst hne
      refine (h.marks other hother).unmarkLeaf (fun b => b.isMarked_unmark) (fun b hb => ?_)
        (by simp [Cell.retag])
      simp [h.toSpans.key_ne_of_mem_around b hb]
    · rw [tracked.update_of_ne hne]
      exact (h.marks other hother).climbLeaf
        (fun b => b.isMarked_unmark_of_disjoint (Mask.disjoint mask hmask other hother hne)) rfl _
  · by_cases hne : other = mask
    · subst hne
      rw [Tracking.update_self] at hkey
      simp only [List.not_mem_nil, decide_false, Bool.or_false, Bool.and_eq_true] at hkey
      exact h.placed other key hkey.1
    · rw [tracked.update_of_ne hne] at hkey
      exact h.placed other key hkey

lemma Marked.foldl (f : Tree → NodeKey → Tree) (g : NodeKey → Tracking → Tracking)
    (hstep : ∀ {t : Tree} {tracked : Tracking} {s : Shape Cell}, t.Marked tracked s → ∀ c ∈ s.leaves,
      ∃ s', s'.untagged = s.untagged ∧ (f t c.key).Marked (g c.key tracked) s')
    (keys : List NodeKey) (h : t.Marked tracked s) (hkeys : ∀ key ∈ keys, ∃ c ∈ s.leaves, c.key = key) :
    ∃ s', s'.untagged = s.untagged ∧
      (keys.foldl f t).Marked (keys.foldl (fun tracked key => g key tracked) tracked) s' := by
  induction keys generalizing t tracked s with
  | nil => exact ⟨s, rfl, h⟩
  | cons key keys ih =>
    obtain ⟨c, hc, rfl⟩ := hkeys key List.mem_cons_self
    obtain ⟨s', hsame, hs'⟩ := hstep h c hc
    obtain ⟨s'', hsame', hs''⟩ := ih hs' fun key hkey => by
      obtain ⟨d, hd, rfl⟩ := hkeys key (List.mem_cons_of_mem _ hkey)
      obtain ⟨d', hd', hkey', _⟩ := exists_leaf_of_untagged hsame.symm hd
      exact ⟨d', hd', hkey'⟩
    exact ⟨s'', hsame'.trans hsame, hs''⟩

lemma Marked.exists_leaf (h : t.Marked tracked s) (hleaf : t.IsLeaf key) :
    ∃ c ∈ s.leaves, c.key = key := by
  obtain ⟨n, live, hn⟩ := hleaf
  exact h.toSpans.exists_leaf live hn

lemma Marked.update {x : Update} (h : t.Marked tracked s) (hx : x.Admits t) :
    ∃ s', s'.untagged = s.untagged ∧ (x.run t).Marked (x.track tracked) s' := by
  obtain ⟨hmask, hkeys⟩ := hx
  have hadded : ∀ key ∈ x.added, ∃ c ∈ s.leaves, c.key = key := fun key hkey =>
    h.exists_leaf (hkeys key (List.mem_append_left _ hkey))
  obtain ⟨s', hsame, hs'⟩ := Marked.foldl (Tree.mark x.mask) (Tracking.update x.mask [·] [])
    (fun h c hc => h.mark hmask hc) x.added h hadded
  have hremoved : ∀ key ∈ x.removed, ∃ c ∈ s'.leaves, c.key = key := by
    intro key hkey
    obtain ⟨c, hc, rfl⟩ := h.exists_leaf (hkeys key (List.mem_append_right _ hkey))
    obtain ⟨d, hd, hdkey, _⟩ := exists_leaf_of_untagged hsame.symm hc
    exact ⟨d, hd, hdkey⟩
  obtain ⟨s'', hsame', hs''⟩ := Marked.foldl (Tree.unmark x.mask) (Tracking.update x.mask [] [·])
    (fun h c hc => h.unmark hmask hc) x.removed hs' hremoved
  rw [Tracking.foldl_update_added, Tracking.foldl_update_removed, Tracking.update_update] at hs''
  exact ⟨s'', hsame'.trans hsame, hs''⟩

lemma marked_start (path : PathRef) (compress recorded : Bool) (pool : Pool) :
    ∃ s, (start path compress recorded pool).1.Marked .empty s := by
  obtain ⟨key, _, hshows⟩ := shows_start path compress recorded pool
  refine ⟨_, hshows, fun mask _ => ⟨?_, trivial, trivial⟩, fun _ _ h => by cases h⟩
  change ((0 : Mask) &&& mask != 0) = [_].any fun _ => false
  simp

lemma Marked.attach (h : t.Marked tracked s) {pool : Pool} {left right : PathRef} {reason : BranchReason}
    {l r : NodeKey} {pool' : Pool}
    (hcall : t.attach pool .none key left right reason = ⟨.ok (l, r), u, pool'⟩)
    (hsmall : u.nodes.slots.size ≤ UInt32.size) : ∃ s', u.Marked (tracked.fork key r) s' := by
  cases hrefused : t.attachRefusal? pool key right with
  | some fault =>
    rw [attach_refused hrefused] at hcall
    cases hcall
  | none =>
    obtain ⟨n, live, hleaf, hright⟩ := attachRefusal?_eq_none hrefused
    obtain ⟨c, hc, rfl⟩ := h.toSpans.exists_leaf live hleaf
    obtain ⟨l', r', u', heq, hattached⟩ :=
      h.toShows.attach hc hright left reason (by rw [hcall]; exact hsmall)
    rw [hcall] at heq
    cases heq
    have hkeys : ∀ d ∈ s.leaves, d.key ∈ s.keys := fun d hd =>
      List.mem_map_of_mem (leaves_subset_preorder s hd)
    have hfresh : ∀ mask, tracked mask l = false := by
      intro mask
      rw [Bool.eq_false_iff]
      intro hl
      obtain ⟨d, hd, rfl⟩ := h.placed mask l hl
      exact hattached.left_fresh (hkeys d hd)
    have hnone : ∀ mask, tracked.fork c.key r mask l = false := fun mask => by
      simp [Tracking.fork, hattached.left_ne_right, hfresh]
    have hright : ∀ mask, tracked.fork c.key r mask r = tracked mask c.key := fun mask => if_pos rfl
    have hother : ∀ mask, ∀ d ∈ s.leaves, d.key ≠ c.key →
        tracked.fork c.key r mask d.key = tracked mask d.key := by
      intro mask d hd hne
      have hr : d.key ≠ r := fun e => hattached.right_fresh (e ▸ hkeys d hd)
      simp [Tracking.fork, hr, hne]
    have hself : ∀ d ∈ s.leaves, d.key = c.key → d = c := fun d hd =>
      eq_of_key_eq h.nodup (leaves_subset_preorder s hd) (leaves_subset_preorder s hc)
    refine ⟨_, hattached.shows, fun mask hmask => ?_, fun mask key hkey => ?_⟩
    · refine (h.marks mask hmask).grow (fun d hd hmark => ?_) (fun d hd => ?_) fun d _ => by split <;> rfl
      · split
        · next e =>
          rw [hself d hd e] at hmark
          refine ⟨?_, ⟨?_, trivial, trivial⟩, ?_, trivial, trivial⟩
          · refine Eq.trans hmark ?_
            simp [any_leaves_node, leaf, hnone, hright]
          · simp [Cell.isMarked, any_leaves_node, hnone]
          · refine Eq.trans hmark ?_
            simp [any_leaves_node, hright]
        · next hne =>
          refine ⟨?_, trivial, trivial⟩
          rw [hmark, any_leaves_node]
          exact (hother mask d hd hne).symm
      · split
        · next e =>
          rw [hself d hd e]
          simp [Cell.fork, any_leaves_node, leaf, hnone, hright]
        · next hne => rw [leaves_leaf, List.any_cons, List.any_nil, Bool.or_false, hother mask d hd hne]
    · simp only [mem_leaves_growAt hc]
      by_cases hr : key = r
      · exact ⟨_, .inr (.inl rfl), hr.symm⟩
      · simp only [Tracking.fork, hr, if_false, Bool.and_eq_true, decide_eq_true_eq] at hkey
        obtain ⟨d, hd, rfl⟩ := h.placed mask key hkey.2
        exact ⟨d, .inr (.inr ⟨hd, hkey.1⟩), rfl⟩

/-- The leaf that ends was not tracked. -/
lemma Marked.remove (h : t.Marked tracked s) (hfree : ∀ mask, tracked mask key = false) {pool : Pool}
    {note : Option Note} {pool' : Pool} (hcall : t.remove pool .none key = ⟨.ok note, u, pool'⟩) :
    ∃ s', u.Marked tracked s' := by
  cases hrefused : t.removeRefusal? key with
  | some fault =>
    rw [remove_refused hrefused] at hcall
    cases hcall
  | none =>
    obtain ⟨n, live, hleaf⟩ := removeRefusal?_eq_none hrefused
    obtain ⟨c, hc, rfl⟩ := h.toSpans.exists_leaf live hleaf
    obtain ⟨path, hpath⟩ := Option.isSome_iff_exists.1 (h.bookmarked.of_mem_leaves hc)
    obtain ⟨u', heq, hshows, _⟩ := h.toShows.remove hc hpath pool
    rw [hcall] at heq
    cases heq
    have hne : ∀ mask (d : Cell), tracked mask d.key = true → d.key ≠ c.key := by
      intro mask d hd e
      rw [e, hfree] at hd
      cases hd
    refine ⟨_, hshows, fun mask hmask => ?_, fun mask key hkey => ?_⟩
    · have hcut : (s.cutAt c.key).IsMarked (Cell.isMarked mask) fun c => tracked mask c.key :=
        (h.marks mask hmask).prune fun d _ hd => decide_eq_true (hne mask d hd)
      rw [Shape.removed]
      split
      · exact hcut.contract
      · exact hcut
    · obtain ⟨d, hd, rfl⟩ := h.placed mask key hkey
      refine ⟨d, ?_, rfl⟩
      rw [leaves_removed, List.mem_filter]
      exact ⟨hd, decide_eq_true (hne mask d hkey)⟩

lemma Marked.setKind (h : t.Marked tracked s) (path : PathState) (kind : TerminationKind) :
    ∃ s', (t.setKind path kind).Marked tracked s' := by
  have hshows := (h.toShows.setKind path kind).1
  cases hnode : path.node with
  | none =>
    rw [hnode] at hshows
    exact ⟨s, hshows, h.marks, h.placed⟩
  | some key =>
    rw [hnode] at hshows
    refine ⟨_, hshows, fun mask hmask => ?_, fun mask k hk => ?_⟩
    · refine (isMarked_map (fun c => ?_) fun c => ?_).2 (h.marks mask hmask)
      · split <;> rfl
      · split <;> rfl
    · obtain ⟨c, hc, rfl⟩ := h.placed mask k hk
      refine ⟨if c.key = key then c.withKind kind else c, ?_, by split <;> rfl⟩
      rw [Option.elim_some, editAt, leaves_map]
      exact List.mem_map_of_mem hc

/-! ### Runs -/

/-- A fork that succeeds is one that is made while no path is in use. -/
lemma attach_of_ok {pool pool' : Pool} {uses : Uses} {left right : PathRef} {reason : BranchReason}
    {children : NodeKey × NodeKey}
    (h : t.attach pool uses key left right reason = ⟨.ok children, u, pool'⟩) :
    t.attach pool .none key left right reason = ⟨.ok children, u, pool'⟩ := by
  rcases t.attach_cases pool uses key left right reason with
    ⟨_, _, _, _, heq⟩ | ⟨_, ⟨_, heq⟩ | ⟨_, _, heq⟩ | ⟨_, _, heq⟩ | ⟨_, _, heq⟩⟩
  · cases heq.symm.trans h
  · cases heq.symm.trans h
  · cases heq.symm.trans h
  · cases heq.symm.trans h
  · exact heq.symm.trans h

lemma remove_of_ok {pool pool' : Pool} {uses : Uses} {note : Option Note}
    (h : t.remove pool uses key = ⟨.ok note, u, pool'⟩) :
    ∃ pool'', t.remove pool .none key = ⟨.ok note, u, pool''⟩ := by
  rcases t.remove_cases pool uses key with ⟨_, _, heq⟩ | ⟨_, _, heq⟩ | ⟨n, live, hleaf, _, heq⟩
  · cases heq.symm.trans h
  · cases heq.symm.trans h
  · have hcall := heq.symm.trans h
    simp only [Outcome.mk.injEq] at hcall
    refine ⟨n.bookmark.elim pool (release pool .none key), ?_⟩
    rw [remove_eq live hleaf]
    simp only [Outcome.mk.injEq]
    exact ⟨hcall.1, hcall.2.1, trivial⟩

lemma Tracks.exists_marked (h : Tracks t tracked) (hsmall : t.nodes.slots.size ≤ UInt32.size) :
    ∃ s, t.Marked tracked s := by
  induction h with
  | start path compress recorded pool => exact marked_start path compress recorded pool
  | @attach t u tracked pool pool' uses key l r left right reason h hcall ih =>
    have hslots := (keepsArena_onTree uses t pool (.attach key left right reason)).slots_le
    simp only [Session.Call.onTree, hcall] at hslots
    obtain ⟨s, hs⟩ := ih (Nat.le_trans hslots hsmall)
    exact hs.attach (attach_of_ok hcall) hsmall
  | @remove t u tracked pool pool' uses key note h hfree hcall ih =>
    have hslots := (keepsArena_onTree uses t pool (.remove key)).slots_le
    simp only [Session.Call.onTree, hcall] at hslots
    obtain ⟨s, hs⟩ := ih (Nat.le_trans hslots hsmall)
    obtain ⟨_, hcall'⟩ := remove_of_ok hcall
    exact hs.remove hfree hcall'
  | @update t tracked x h hx ih =>
    have hslots := congrArg (·.2.2.2.2) (settings_retrack x.mask t x.added x.removed)
    obtain ⟨s, hs⟩ := ih (Nat.le_trans (Nat.le_of_eq hslots.symm) hsmall)
    obtain ⟨s', _, hs'⟩ := hs.update hx
    exact ⟨s', hs'⟩
  | @setKind t tracked h path kind ih =>
    have hslots := (keepsArena_onTree .none t default (.setKind path kind)).slots_le
    obtain ⟨s, hs⟩ := ih (Nat.le_trans hslots hsmall)
    exact hs.setKind path kind
  | @claimMask t tracked h ih =>
    obtain ⟨s, hs⟩ := ih hsmall
    exact ⟨s, hs.toShows.congr rfl rfl rfl, hs.marks, hs.placed⟩

lemma Marked.exists_reads (h : t.Marked tracked s) {e : Edge} (he : t.HasEdge e) :
    ∃ above parent s', s = plug above s' ∧ t.Reads parent e s' := by
  cases he with
  | root => exact ⟨[], none, s, rfl, h.reads⟩
  | @child key n live side =>
    obtain ⟨above, left, right, e, rfl, _, _, hleft, hright⟩ := h.toSpans.exists_plug live
    cases side with
    | left => exact ⟨⟨.left, .ofNode key e.tag n, right⟩ :: above, some key, left, rfl, hleft⟩
    | right => exact ⟨⟨.right, .ofNode key e.tag n, left⟩ :: above, some key, right, rfl, hright⟩

lemma Spans.isBehind_iff {above : List (Frame Cell)} {parent : Option NodeKey} {e : Edge}
    (h : t.Spans (plug above s)) (hs : t.Reads parent e s) :
    t.IsLeaf key ∧ t.IsBehind e key ↔ ∃ c ∈ s.leaves, c.key = key := by
  cases hs with
  | nowhere null =>
    constructor
    · rintro ⟨_, y, target, _⟩
      rw [null] at target
      cases target
    · rintro ⟨c, hc, _⟩
      cases hc
  | @node _ _ k n left right target live linked hleft hright =>
    have hread := Reads.node target live linked hleft hright
    have hclose : t.Spans (plug above (Frame.close ⟨.left, .ofNode k e.tag n, right⟩ left)) := h
    have hbehind : t.IsBehind e key ↔ key ∈ (Shape.node (.ofNode k e.tag n) left right).keys := by
      rw [keys_node, List.mem_cons, List.mem_append, ← hclose.above_close_iff]
      constructor
      · rintro ⟨y, hy, hkey⟩
        cases target.symm.trans hy
        exact hkey
      · exact fun hkey => ⟨k, target, hkey⟩
    rw [hbehind]
    constructor
    · rintro ⟨⟨m, hm, hleaf⟩, hkey⟩
      exact hread.exists_mem_leaves hkey hm hleaf
    · rintro ⟨c, hc, rfl⟩
      obtain ⟨m, hm, hleaf, _⟩ := hread.node?_of_mem_leaves hc
      exact ⟨⟨m, hm, hleaf⟩, List.mem_map_of_mem (leaves_subset_preorder _ hc)⟩

/-- An edge is marked exactly if a tracked leaf is behind it. -/
lemma Marked.isMarked_iff (h : t.Marked tracked s) (hmask : mask ∈ Mask.all) {e : Edge} (he : t.HasEdge e) :
    e.isMarked mask = true ↔ ∃ key, tracked mask key = true ∧ t.IsLeaf key ∧ t.IsBehind e key := by
  obtain ⟨above, parent, s', rfl, hs'⟩ := h.exists_reads he
  have hmarks : s'.IsMarked (Cell.isMarked mask) fun c => tracked mask c.key := by
    cases hempty : s'.isEmpty with
    | true =>
      rw [isEmpty_iff.1 hempty]
      trivial
    | false => exact ((isMarked_plug hempty).1 (h.marks mask hmask)).1
  rw [hs'.isMarked_eq, hmarks.topMarked_eq, List.any_eq_true]
  constructor
  · rintro ⟨c, hc, htracked⟩
    exact ⟨c.key, htracked, (h.toSpans.isBehind_iff hs').2 ⟨c, hc, rfl⟩⟩
  · rintro ⟨key, htracked, hbehind⟩
    obtain ⟨c, hc, rfl⟩ := (h.toSpans.isBehind_iff hs').1 hbehind
    exact ⟨c, hc, htracked⟩

section Orders

variable {xs ys : List Update} {kept : Mask → Prop}

lemma Tracks.foldl (h : t.Tracks tracked) (hxs : ∀ x ∈ xs, x.Admits t) :
    (xs.foldl Update.run t).Tracks (xs.foldl Update.track tracked) ∧
      t.Rebits (fun _ => False) (xs.foldl Update.run t) := by
  induction xs generalizing t tracked with
  | nil => exact ⟨h, .refl t⟩
  | cons x xs ih =>
    have hrebits : t.Rebits (fun _ => False) (x.run t) :=
      rebits_retrack (fun _ hfalse => hfalse.elim) t x.added x.removed
    obtain ⟨htracks, hrest⟩ := ih (h.update (hxs x List.mem_cons_self)) fun y hy => by
      obtain ⟨hmask, hkeys⟩ := hxs y (List.mem_cons_of_mem _ hy)
      exact ⟨hmask, fun key hkey => hrebits.isLeaf_iff.2 (hkeys key hkey)⟩
    exact ⟨htracks, hrebits.trans hrest⟩

lemma slots_size_foldl_run (t : Tree) (xs : List Update) :
    (xs.foldl Update.run t).nodes.slots.size = t.nodes.slots.size := by
  induction xs generalizing t with
  | nil => rfl
  | cons x xs ih =>
    rw [List.foldl_cons, ih]
    exact congrArg (·.2.2.2.2) (settings_retrack x.mask t x.added x.removed)

/-- Two edges that lead to the same place in like trees are marked alike if the same leaves are tracked. -/
lemma Marked.edge_eq {v w : Tree} {sv sw : Shape Cell} {tracked' : Tracking} (hv : v.Marked tracked sv)
    (hw : w.Marked tracked' sw) (hsame : ∀ mask ∈ Mask.all, tracked mask = tracked' mask)
    (htv : t.Rebits kept v) (htw : t.Rebits kept w) {e e' e'' : Edge} (he' : v.HasEdge e')
    (he'' : w.HasEdge e'') (hedge : e.Rebits kept e') (hedge' : e.Rebits kept e'') : e' = e'' := by
  cases target : e.target with
  | none => rw [hedge.null_eq target, hedge'.null_eq target]
  | some y =>
    have htarget := hedge.target_eq.trans hedge'.target_eq.symm
    have hmarked : ∀ mask ∈ Mask.all, e'.isMarked mask = e''.isMarked mask := by
      intro mask hmask
      rw [Bool.eq_iff_iff, hv.isMarked_iff hmask he', hw.isMarked_iff hmask he'', hsame mask hmask]
      simp only [IsBehind, htv.isLeaf_iff, htw.isLeaf_iff, htv.above_iff, htw.above_iff, htarget]
    have htag : e'.tag = e''.tag := by
      refine Mask.eq_of_all fun mask hmask => ?_
      have h := hmarked mask hmask
      rw [Edge.isMarked, Edge.isMarked, hedge.target_eq, hedge'.target_eq, target] at h
      simpa using h
    obtain ⟨_, _⟩ := e'
    obtain ⟨_, _⟩ := e''
    rw [Edge.mk.injEq]
    exact ⟨htarget, htag⟩

/-- Whatever the order in which the same leaves come to be tracked, the tree is the same. -/
lemma Tracks.node?_eq (h : t.Tracks tracked) (hsmall : t.nodes.slots.size ≤ UInt32.size)
    (hxs : ∀ x ∈ xs, x.Admits t) (hys : ∀ y ∈ ys, y.Admits t)
    (hsame : ∀ mask ∈ Mask.all, xs.foldl Update.track tracked mask = ys.foldl Update.track tracked mask) :
    (xs.foldl Update.run t).root = (ys.foldl Update.run t).root ∧
      ∀ key, (xs.foldl Update.run t).node? key = (ys.foldl Update.run t).node? key := by
  obtain ⟨hv, htv⟩ := h.foldl hxs
  obtain ⟨hw, htw⟩ := h.foldl hys
  obtain ⟨sv, hv⟩ := hv.exists_marked (by rw [slots_size_foldl_run]; exact hsmall)
  obtain ⟨sw, hw⟩ := hw.exists_marked (by rw [slots_size_foldl_run]; exact hsmall)
  refine ⟨hv.edge_eq hw hsame htv htw .root .root htv.root htw.root, fun key => ?_⟩
  cases hn : t.node? key with
  | none => rw [htv.dead key hn, htw.dead key hn]
  | some n =>
    obtain ⟨m, hm, hparent, hbookmark, hnote, hedge⟩ := htv.live key n hn
    obtain ⟨m', hm', hparent', hbookmark', hnote', hedge'⟩ := htw.live key n hn
    have hsides : ∀ side, m.edgeAt side = m'.edgeAt side := fun side =>
      hv.edge_eq hw hsame htv htw (.child hm side) (.child hm' side) (hedge side) (hedge' side)
    rw [hm, hm', Option.some.injEq]
    obtain ⟨_, _, _, _, _⟩ := m
    obtain ⟨_, _, _, _, _⟩ := m'
    rw [Node.mk.injEq]
    exact ⟨hparent.trans hparent'.symm, hsides .left, hsides .right, hbookmark.trans hbookmark'.symm,
      hnote.trans hnote'.symm⟩

/-- Marks are exact: an edge carries a searcher's bit if and only if a leaf that the searcher tracks is
behind it. So the same updates in another order make the same tree, and an update keeps the bits of all
other searchers. The bound is the number of slot numbers. -/
theorem Tracks.marks_exact (h : t.Tracks tracked) (hsmall : t.nodes.slots.size ≤ UInt32.size) :
    (∀ mask ∈ Mask.all, ∀ e, t.HasEdge e →
      (e.isMarked mask = true ↔ ∃ key, tracked mask key = true ∧ t.IsLeaf key ∧ t.IsBehind e key)) ∧
    (∀ xs ys : List Update, (∀ x ∈ xs, x.Admits t) → (∀ y ∈ ys, y.Admits t) →
      (∀ mask ∈ Mask.all, xs.foldl Update.track tracked mask = ys.foldl Update.track tracked mask) →
      (xs.foldl Update.run t).root = (ys.foldl Update.run t).root ∧
        ∀ key, (xs.foldl Update.run t).node? key = (ys.foldl Update.run t).node? key) ∧
    ∀ x : Update, x.mask ∈ Mask.all →
      t.Rebits (fun other => other ∈ Mask.all ∧ other ≠ x.mask) (x.run t) := by
  refine ⟨fun mask hmask e he => ?_, fun xs ys hxs hys hsame => h.node?_eq hsmall hxs hys hsame,
    fun x hmask => rebits_retrack (fun other hother => ?_) t x.added x.removed⟩
  · obtain ⟨s, hs⟩ := h.exists_marked hsmall
    exact hs.isMarked_iff hmask he
  · exact Mask.disjoint x.mask hmask other hother.1 hother.2

/-- A searcher is told of the first leaf, which then forks, and another one of the left child. -/
theorem marks_exact_after_fork :
    let pool : Pool := ⟨#[some (.fresh ⟨7⟩), some (.fresh ⟨8⟩)]⟩
    let first : Update := ⟨1, [⟨0, 0⟩], []⟩
    let second : Update := ⟨2, [⟨1, 0⟩], []⟩
    let o := (first.run (start ⟨0⟩ true false pool).1).attach
      (start ⟨0⟩ true false pool).2 .none ⟨0, 0⟩ ⟨1⟩ ⟨0⟩ .conditional
    let t := second.run o.tree
    let tracked := second.track ((first.track .empty).fork ⟨0, 0⟩ ⟨2, 0⟩)
    t.Tracks tracked ∧ t.nodes.slots.size ≤ UInt32.size ∧
      ∀ mask ∈ Mask.all, ∀ e, t.HasEdge e →
        (e.isMarked mask = true ↔ ∃ key, tracked mask key = true ∧ t.IsLeaf key ∧ t.IsBehind e key) := by
  intro pool first second o t tracked
  have hfirst : first.Admits (start ⟨0⟩ true false pool).1 := by decide
  have hcall : (first.run (start ⟨0⟩ true false pool).1).attach (start ⟨0⟩ true false pool).2 .none
      ⟨0, 0⟩ ⟨1⟩ ⟨0⟩ .conditional = ⟨.ok (⟨1, 0⟩, ⟨2, 0⟩), o.tree, o.pool⟩ := by
    have hresult : o.result = .ok (⟨1, 0⟩, ⟨2, 0⟩) := by decide +kernel
    rw [← hresult]
  have hsecond : second.Admits o.tree := by decide +kernel
  have htracks : t.Tracks tracked :=
    .update (.attach (.update (.start ⟨0⟩ true false pool) hfirst) hcall) hsecond
  have hsmall : t.nodes.slots.size ≤ UInt32.size := by decide +kernel
  exact ⟨htracks, hsmall, (htracks.marks_exact hsmall).1⟩

end Orders

end Tree

end ForkTree
