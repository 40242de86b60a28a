import ForkTree.Proofs.SessionPortrait
import ForkTree.Proofs.ShapeMarks
import ForkTree.Tree.RandomPath

/-!
What the searchers do to the cells of a tree. A searcher's bit is on the edges to the cells at or below
which a path stands that it tracks (`Shape.Marks`). Marking and unmarking climb from a leaf and change
nothing but bits (`Spans.markUp`, `Spans.unmarkUp`), so they keep the invariant of the calls, and they
make the bits right for what is tracked from then on (`Shows.retrack`). Forks and ends leave them right
(`Marks.growAt`, `Marks.removed`). A walk down a tree whose bits are right is a walk down its shape
(`Shows.select_eq`).
-/

namespace ForkTree

open Shape

namespace Mask

variable (tag mask : Mask) {other : Mask}

lemma mark_and_self : (tag ||| mask) &&& mask = mask := by
  apply UInt8.eq_of_toBitVec_eq
  ext i hi
  simp only [UInt8.toBitVec_and, UInt8.toBitVec_or, BitVec.getElem_and, BitVec.getElem_or]
  cases tag.toBitVec[i] <;> simp

lemma unmark_and_self : (tag &&& ~~~mask) &&& mask = 0 := by
  rw [UInt8.and_assoc, UInt8.not_and_self, UInt8.and_zero]

variable {mask}

/-- Two searchers' bits do not meet in one place. -/
lemma getElem_of_disjoint (h : mask &&& other = 0) {i : Nat} (hi : i < 8) :
    (mask.toBitVec[i] && other.toBitVec[i]) = false := by
  have hbit := congrArg (fun m : UInt8 => m.toBitVec[i]) h
  simpa using hbit

lemma mark_and_of_disjoint (h : mask &&& other = 0) : (tag ||| mask) &&& other = tag &&& other := by
  apply UInt8.eq_of_toBitVec_eq
  ext i hi
  have hbit := getElem_of_disjoint h hi
  simp only [UInt8.toBitVec_and, UInt8.toBitVec_or, BitVec.getElem_and, BitVec.getElem_or]
  cases hm : mask.toBitVec[i] <;> simp_all

lemma unmark_and_of_disjoint (h : mask &&& other = 0) :
    (tag &&& ~~~mask) &&& other = tag &&& other := by
  apply UInt8.eq_of_toBitVec_eq
  ext i hi
  have hbit := getElem_of_disjoint h hi
  simp only [UInt8.toBitVec_and, UInt8.toBitVec_not, BitVec.getElem_and, BitVec.getElem_not]
  cases hm : mask.toBitVec[i] <;> simp_all

end Mask

/-- The edge to the cell carries one of the bits. -/
def Cell.isMarked (mask : Mask) (c : Cell) : Bool := c.tag &&& mask != 0

/-- The cell bookmarks one of the paths. -/
def Cell.isTracked (tracked : PathRef → Bool) (c : Cell) : Bool := c.bookmark.any tracked

def Cell.retag (change : Mask → Mask) (c : Cell) : Cell := { c with tag := change c.tag }

/-- A cell apart from the bits. -/
def Cell.untagged (c : Cell) : Cell := { c with tag := 0 }

def Shape.untagged (s : Shape Cell) : Shape Cell := s.map Cell.untagged

/-- The bits are on the edges to the cells at or below which a tracked path stands. -/
def Shape.Marks (mask : Mask) (tracked : PathRef → Bool) (s : Shape Cell) : Prop :=
  s.IsMarked (Cell.isMarked mask) (Cell.isTracked tracked)

namespace Cell

variable (c : Cell) {mask other : Mask}

lemma isMarked_mark (h : mask ≠ 0) : (c.retag (· ||| mask)).isMarked mask = true := by
  simp [isMarked, retag, Mask.mark_and_self, h]

lemma isMarked_unmark : (c.retag (· &&& ~~~mask)).isMarked mask = false := by
  simp [isMarked, retag, Mask.unmark_and_self]

lemma isMarked_mark_of_disjoint (h : mask &&& other = 0) :
    (c.retag (· ||| mask)).isMarked other = c.isMarked other := by
  simp [isMarked, retag, Mask.mark_and_of_disjoint _ h]

lemma isMarked_unmark_of_disjoint (h : mask &&& other = 0) :
    (c.retag (· &&& ~~~mask)).isMarked other = c.isMarked other := by
  simp [isMarked, retag, Mask.unmark_and_of_disjoint _ h]

end Cell

namespace Shape

variable {s s' : Shape Cell}

/-- What does not look at the bits is the same for shapes that only differ in these. -/
lemma map_eq_of_untagged {β : Type} (h : s'.untagged = s.untagged) {f : Cell → β}
    (hf : ∀ c, f c.untagged = f c) : s'.map f = s.map f := by
  have hmap := congrArg (Shape.map f) h
  simpa only [untagged, map_map, hf] using hmap

lemma keys_eq_of_untagged (h : s'.untagged = s.untagged) : s'.keys = s.keys := by
  have hmap := congrArg preorder (map_eq_of_untagged h (f := Cell.key) fun _ => rfl)
  rwa [preorder_map, preorder_map] at hmap

lemma size_eq_of_untagged (h : s'.untagged = s.untagged) : s'.size = s.size := by
  have hsize := congrArg Shape.size h
  rwa [untagged, untagged, size_map, size_map] at hsize

lemma isFull_of_untagged (h : s'.untagged = s.untagged) (hs : s.IsFull) : s'.IsFull := by
  have hfull := congrArg IsFull h
  rw [untagged, untagged, eq_iff_iff, isFull_map, isFull_map] at hfull
  exact hfull.2 hs

lemma isBookmarked_untagged : s.untagged.IsBookmarked ↔ s.IsBookmarked := by
  induction s with
  | empty => rfl
  | node a left right hleft hright =>
    simp only [untagged, map, IsBookmarked, isEmpty_map] at *
    rw [hleft, hright]
    rfl

lemma isBookmarked_of_untagged (h : s'.untagged = s.untagged) (hs : s.IsBookmarked) :
    s'.IsBookmarked := by
  rwa [← isBookmarked_untagged, h, isBookmarked_untagged]

lemma leaves_eq_of_untagged (h : s'.untagged = s.untagged) :
    s'.leaves.map Cell.untagged = s.leaves.map Cell.untagged := by
  rw [← leaves_map, ← leaves_map]
  exact congrArg leaves h

/-- A leaf is still there, maybe with other bits. -/
lemma exists_leaf_of_untagged (h : s'.untagged = s.untagged) {c : Cell} (hc : c ∈ s'.leaves) :
    ∃ d ∈ s.leaves, d.key = c.key ∧ d.bookmark = c.bookmark := by
  have hmem := List.mem_map_of_mem (f := Cell.untagged) hc
  rw [leaves_eq_of_untagged h, List.mem_map] at hmem
  obtain ⟨d, hd, e⟩ := hmem
  simp only [Cell.untagged, Cell.mk.injEq] at e
  exact ⟨d, hd, e.1, e.2.2.1⟩

lemma IsHoused.of_untagged {pool : Pool} (hs : s.IsHoused pool) (h : s'.untagged = s.untagged) :
    s'.IsHoused pool := by
  intro c hc
  obtain ⟨d, hd, hkey, hbookmark⟩ := exists_leaf_of_untagged h hc
  rw [← hkey, ← hbookmark]
  exact hs d hd

lemma untagged_climb (stops : Frame Cell → Bool) (change : Mask → Mask) (above : List (Frame Cell))
    (s : Shape Cell) :
    (plug (climb stops (Cell.retag change) above) s).untagged = (plug above s).untagged := by
  rw [untagged, untagged, map_plug_map, map_plug_map, map_climb]
  exact fun _ => rfl

end Shape

namespace Tree

lemma Reads.isMarked_eq {t : Tree} {parent : Option NodeKey} {e : Edge} {s : Shape Cell}
    (h : t.Reads parent e s) (mask : Mask) : e.isMarked mask = s.topMarked (Cell.isMarked mask) := by
  cases h with
  | nowhere null => simp [Edge.isMarked, null, topMarked]
  | node target => simp [Edge.isMarked, target, topMarked, Cell.isMarked, Cell.ofNode]

lemma Spans.of_untagged {t u : Tree} {s s' : Shape Cell} (h : t.Spans s)
    (hsame : s'.untagged = s.untagged) (hvalid : u.nodes.IsValid) (hreads : u.Reads none u.root s')
    (hlive : ∀ key, (u.node? key).isSome = (t.node? key).isSome) (hsize : u.size = t.size) :
    u.Spans s' where
  valid := hvalid
  reads := hreads
  nodup := by
    rw [keys_eq_of_untagged hsame]
    exact h.nodup
  live := by
    intro key hkey
    rw [keys_eq_of_untagged hsame]
    exact h.live key (hlive key ▸ hkey)
  size_eq := by rw [hsize, h.size_eq, size_eq_of_untagged hsame]

section Climb

variable {t : Tree} {f : Frame Cell} {above : List (Frame Cell)} {s : Shape Cell}

lemma Spans.exists_incoming (h : t.Spans (plug (f :: above) s)) :
    ∃ n e, t.node? f.item.key = some n ∧ t.incoming? f.item.key = some e ∧
      e.target = some f.item.key ∧ f.item = .ofNode f.item.key e.tag n ∧
      n.parent = above.head?.map (fun g => g.item.key) ∧
      t.Reads (some f.item.key) (n.edgeAt f.side) s ∧
      t.Reads (some f.item.key) (n.edgeAt f.side.other) f.beside := by
  have hreads : t.Reads none t.root (plug above (f.close s)) := h.reads
  obtain ⟨parent, e, hspine, hclose⟩ := hreads.spine
  obtain ⟨n, target, live, linked, hitem, hs, hbeside⟩ := hclose.close_inv
  have hfar := (nodup_keys_plug.1 h.nodup).2.1
  rw [keysAround_cons, List.cons_append, List.nodup_cons, List.mem_append, not_or] at hfar
  refine ⟨n, e, live, hspine.incoming? target live linked hfar.1.2, target, hitem, ?_, hs, hbeside⟩
  rw [linked]
  cases hspine with
  | root => rfl
  | step => rfl

lemma Spans.retag (h : t.Spans (plug (f :: above) s)) (change : Mask → Mask) :
    (t.modifyIncoming f.item.key fun e => e.setTag (change e.tag)).Spans
      (plug ({ f with item := f.item.retag change } :: above) s) := by
  have hsame : (plug ({ f with item := f.item.retag change } :: above) s).untagged =
      (plug (f :: above) s).untagged := by
    rw [untagged, untagged, map_plug_map, map_plug_map]
    rfl
  have hreads : t.Reads none t.root (plug above (f.close s)) := h.reads
  obtain ⟨parent, e, hspine, hclose⟩ := hreads.spine
  obtain ⟨n, target, live, linked, hitem, hs, hbeside⟩ := hclose.close_inv
  obtain ⟨_, hnodup, hdisjoint⟩ := nodup_keys_plug.1 h.nodup
  rw [keysAround_cons, List.cons_append, List.nodup_cons, List.mem_append, not_or,
    List.nodup_append] at hnodup
  obtain ⟨⟨_, hfar⟩, _, habove, hapart⟩ := hnodup
  have hcell : f.item.retag change = .ofNode f.item.key (e.setTag (change e.tag)).tag n := by
    rw [hitem]
    rfl
  cases above with
  | nil =>
    cases hspine
    have hroot : (t.modifyIncoming f.item.key fun e => e.setTag (change e.tag)) =
        { t with root := t.root.setTag (change t.root.tag) } := by
      simp [modifyIncoming, live, linked, Edge.pointsTo, target]
    rw [hroot]
    refine h.of_untagged hsame h.valid ?_ (fun _ => rfl) rfl
    rw [plug, plug, hcell]
    exact Reads.close (e := t.root.setTag (change t.root.tag)) target live linked
      (hs.congr fun _ _ => rfl) (hbeside.congr fun _ _ => rfl)
  | cons g above =>
    obtain ⟨m, _, _, hparent, _, _⟩ := hspine.cons_inv
    have hmodify : (t.modifyIncoming f.item.key fun e => e.setTag (change e.tag)) =
        t.modify g.item.key fun p => p.modifyEdgeTo f.item.key fun e => e.setTag (change e.tag) := by
      rw [hparent] at linked
      simp only [modifyIncoming, live, linked]
    have hg : g.item.key ∈ keysAround (g :: above) := by
      rw [keysAround_cons]
      exact List.mem_cons_self
    have hfree : f.item.key ∉ g.beside.keys := fun hk => by
      rw [keysAround_cons] at hfar
      exact hfar (List.mem_cons_of_mem _ (List.mem_append_left _ hk))
    have hspine' := hspine.redirect habove target hfree fun e => e.setTag (change e.tag)
    have hne : ∀ key, key ≠ g.item.key → (t.modifyIncoming f.item.key fun e =>
        e.setTag (change e.tag)).node? key = t.node? key := by
      intro key hkey
      rw [hmodify, node?_modify_of_ne t _ hkey]
    have hlive : (t.modifyIncoming f.item.key fun e => e.setTag (change e.tag)).node? f.item.key =
        some n := by
      rw [hne f.item.key fun e => hfar (e ▸ hg), live]
    have hs' := hs.congr (u := t.modifyIncoming f.item.key fun e => e.setTag (change e.tag))
      fun key hkey => hne key fun e => hdisjoint key hkey (by
        rw [keysAround_cons]
        exact List.mem_append_right _ (e ▸ hg))
    have hbeside' := hbeside.congr (u := t.modifyIncoming f.item.key fun e => e.setTag (change e.tag))
      fun key hkey => hne key fun e => hapart key hkey _ hg e
    have hread := Reads.close (e := e.setTag (change e.tag)) target hlive linked hs' hbeside'
    rw [← hmodify] at hspine'
    rw [← hcell] at hread
    refine h.of_untagged hsame ?_ (hspine'.plug hread) (fun key => ?_) ?_
    · rw [hmodify]
      exact h.valid.modify _ _
    · rw [hmodify, isSome_node?_modify]
    · rw [hmodify, size_modify]

@[simp]
lemma settings_modifyIncoming (t : Tree) (key : NodeKey) (change : Edge → Edge) :
    (t.modifyIncoming key change).settings = t.settings := by
  unfold modifyIncoming
  split
  · rfl
  · split
    · exact settings_modify _ _ _
    · split <;> rfl

@[simp]
lemma settings_mark (mask : Mask) (t : Tree) (key : NodeKey) :
    (t.mark mask key).settings = t.settings := by
  have hup : ∀ fuel (t : Tree) key, (markUp mask fuel t key).settings = t.settings := by
    intro fuel
    induction fuel with
    | zero => intros; rfl
    | succ fuel ih =>
      intro t key
      unfold markUp
      split
      · rfl
      · split
        · rfl
        · simp only
          split
          · rw [ih, settings_modifyIncoming]
          · exact settings_modifyIncoming _ _ _
  exact hup _ t key

@[simp]
lemma settings_unmark (mask : Mask) (t : Tree) (key : NodeKey) :
    (t.unmark mask key).settings = t.settings := by
  have hup : ∀ fuel (t : Tree) key, (unmarkUp mask fuel t key).settings = t.settings := by
    intro fuel
    induction fuel with
    | zero => intros; rfl
    | succ fuel ih =>
      intro t key
      unfold unmarkUp
      split
      · rfl
      · split
        · rfl
        · simp only
          split
          · rw [ih, settings_modifyIncoming]
          · exact settings_modifyIncoming _ _ _
  exact hup _ t key

lemma settings_retrack (mask : Mask) (t : Tree) (added removed : List NodeKey) :
    (t.retrack mask added removed).settings = t.settings := by
  have hfold : ∀ (f : Tree → NodeKey → Tree) (keys : List NodeKey) (t : Tree),
      (∀ t key, (f t key).settings = t.settings) → (keys.foldl f t).settings = t.settings := by
    intro f keys t hf
    induction keys generalizing t with
    | nil => rfl
    | cons key keys ih => rw [List.foldl_cons, ih, hf]
  rw [retrack, hfold _ _ _ fun t key => settings_unmark mask t key,
    hfold _ _ _ fun t key => settings_mark mask t key]

lemma Spans.markUp_succ (h : t.Spans (plug (f :: above) s)) (mask : Mask) (fuel : Nat) :
    Tree.markUp mask (fuel + 1) t f.item.key =
      if f.item.isMarked mask then t
      else
        let marked := t.modifyIncoming f.item.key (Edge.mark · mask)
        above.head?.elim marked fun g => Tree.markUp mask fuel marked g.item.key := by
  obtain ⟨n, e, live, hincoming, target, hitem, hparent, _⟩ := h.exists_incoming
  have hmarked : e.isMarked mask = f.item.isMarked mask := by
    rw [hitem]
    simp [Edge.isMarked, target, Cell.isMarked, Cell.ofNode]
  simp only [Tree.markUp, hincoming, hmarked, live, Option.bind_some, hparent]
  cases above <;> rfl

/-- Marking goes up to the first cell that is marked. -/
lemma Spans.markUp (h : t.Spans (plug (f :: above) s)) (mask : Mask) {fuel : Nat}
    (hfuel : above.length < fuel) :
    (Tree.markUp mask fuel t f.item.key).Spans
      (plug (climb (fun f => f.item.isMarked mask) (Cell.retag (· ||| mask)) (f :: above)) s) := by
  induction above generalizing t f s fuel with
  | nil =>
    obtain ⟨fuel, rfl⟩ : ∃ n, fuel = n + 1 := ⟨fuel - 1, by omega⟩
    rw [h.markUp_succ, climb]
    split
    · exact h
    · exact h.retag (· ||| mask)
  | cons g above ih =>
    obtain ⟨fuel, rfl⟩ : ∃ n, fuel = n + 1 := ⟨fuel - 1, by omega⟩
    rw [h.markUp_succ, climb]
    split
    · exact h
    · exact ih (h.retag (· ||| mask)) (Nat.lt_of_succ_lt_succ hfuel)

/-- One turn of unmarking, when nothing in the hole is marked. -/
lemma Spans.unmarkUp_succ (h : t.Spans (plug (f :: above) s)) {mask : Mask}
    (hs : s.topMarked (Cell.isMarked mask) = false) (fuel : Nat) :
    Tree.unmarkUp mask (fuel + 1) t f.item.key =
      if f.beside.topMarked (Cell.isMarked mask) then t
      else
        let cleared := t.modifyIncoming f.item.key (Edge.unmark · mask)
        above.head?.elim cleared fun g => Tree.unmarkUp mask fuel cleared g.item.key := by
  obtain ⟨n, e, live, _, _, _, hparent, hread, hbeside⟩ := h.exists_incoming
  have hmarked : (n.left.isMarked mask || n.right.isMarked mask) =
      f.beside.topMarked (Cell.isMarked mask) := by
    have hl := hread.isMarked_eq mask
    have hr := hbeside.isMarked_eq mask
    rw [hs] at hl
    cases hside : f.side with
    | left =>
      rw [hside] at hl hr
      rw [← hr]
      exact (congrArg (· || _) hl).trans (Bool.false_or _)
    | right =>
      rw [hside] at hl hr
      rw [← hr]
      exact (congrArg (_ || ·) hl).trans (Bool.or_false _)
  simp only [Tree.unmarkUp, live, hmarked, hparent]
  cases above <;> rfl

/-- Unmarking goes up to the first cell with another marked child. -/
lemma Spans.unmarkUp (h : t.Spans (plug (f :: above) s)) (mask : Mask) {fuel : Nat}
    (hs : s.topMarked (Cell.isMarked mask) = false) (hfuel : above.length < fuel) :
    (Tree.unmarkUp mask fuel t f.item.key).Spans
      (plug (climb (fun f => f.beside.topMarked (Cell.isMarked mask)) (Cell.retag (· &&& ~~~mask))
        (f :: above)) s) := by
  induction above generalizing t f s fuel with
  | nil =>
    obtain ⟨fuel, rfl⟩ : ∃ n, fuel = n + 1 := ⟨fuel - 1, by omega⟩
    rw [h.unmarkUp_succ hs, climb]
    split
    · exact h
    · exact h.retag (· &&& ~~~mask)
  | cons g above ih =>
    obtain ⟨fuel, rfl⟩ : ∃ n, fuel = n + 1 := ⟨fuel - 1, by omega⟩
    rw [h.unmarkUp_succ hs, climb]
    split
    · exact h
    · have hclose : ({ f with item := f.item.retag (· &&& ~~~mask) }.close s).topMarked
          (Cell.isMarked mask) = false := by
        have hitem : (f.item.retag (· &&& ~~~mask)).isMarked mask = false := f.item.isMarked_unmark
        obtain ⟨side, c, beside⟩ := f
        cases side <;> exact hitem
      exact ih (h.retag (· &&& ~~~mask)) hclose (Nat.lt_of_succ_lt_succ hfuel)

end Climb

/-! ### Tracking -/

/-- Nothing but bits differs, a searcher's bits are right for what it tracks by now, and the bits of the
others are as right as they were. -/
structure Retracked (mask : Mask) (u : Tree) (s s' : Shape Cell)
    (update : (PathRef → Bool) → PathRef → Bool) : Prop where
  shows : u.Shows s'
  untagged_eq : s'.untagged = s.untagged
  marks : ∀ tracked, s.Marks mask tracked → s'.Marks mask (update tracked)
  others : ∀ other tracked, mask &&& other = 0 → s.Marks other tracked → s'.Marks other tracked

section Track

variable {mask : Mask} {t u v : Tree} {s s' s'' : Shape Cell} {pool : Pool}
  {update update' : (PathRef → Bool) → PathRef → Bool}

lemma Shows.retracked (h : t.Shows s) (mask : Mask) : Retracked mask t s s id :=
  ⟨h, rfl, fun _ hm => hm, fun _ _ _ hm => hm⟩

lemma Retracked.trans (h : Retracked mask u s s' update) (h' : Retracked mask v s' s'' update') :
    Retracked mask v s s'' fun tracked => update' (update tracked) where
  shows := h'.shows
  untagged_eq := h'.untagged_eq.trans h.untagged_eq
  marks tracked hm := h'.marks _ (h.marks tracked hm)
  others other tracked hne hm := h'.others other tracked hne (h.others other tracked hne hm)

lemma Shows.of_untagged (h : t.Shows s) (hu : u.Spans s') (hsame : s'.untagged = s.untagged)
    (hsettings : u.settings = t.settings) : u.Shows s' where
  toSpans := hu
  bookmarked := isBookmarked_of_untagged hsame h.bookmarked
  full hfull := isFull_of_untagged hsame (h.full ((congrArg (·.1) hsettings).symm.trans hfull))

/-- A path that is at a leaf is bookmarked nowhere else. -/
lemma Shows.isTracked_around {above : List (Frame Cell)} {c : Cell}
    (h : t.Shows (plug above (leaf c))) (hhoused : (plug above (leaf c)).IsHoused pool)
    {path : PathRef} (hpath : c.bookmark = some path) {tracked tracked' : PathRef → Bool}
    (hsame : ∀ r, r ≠ path → tracked' r = tracked r) :
    ∀ b ∈ around above, b.isTracked tracked' = b.isTracked tracked := by
  intro b hb
  have hperm := preorder_plug above (leaf c)
  have hmem : b ∈ (plug above (leaf c)).preorder := hperm.mem_iff.2 (List.mem_append_right _ hb)
  have hc : c ∈ (plug above (leaf c)).leaves :=
    h.bookmarked.mem_leaves (hperm.mem_iff.2 (List.mem_append_left _ List.mem_cons_self))
      (by rw [hpath]; rfl)
  cases hq : b.bookmark with
  | none => simp [Cell.isTracked, hq]
  | some q =>
    have hne : q ≠ path := by
      rintro rfl
      have hleaf := h.bookmarked.mem_leaves hmem (by rw [hq]; rfl)
      have hkey := (hhoused.key_eq_iff h.nodup hc hleaf hpath).2 hq
      refine (nodup_keys_plug.1 h.nodup).2.2 c.key (by simp) ?_
      rw [← hkey]
      exact List.mem_map_of_mem hb
    simp [Cell.isTracked, hq, hsame q hne]

theorem Shows.mark (h : t.Shows s) (hhoused : s.IsHoused pool) {c : Cell} (hc : c ∈ s.leaves)
    {path : PathRef} (hpath : c.bookmark = some path) (hmask : mask ≠ 0) :
    ∃ s', Retracked mask (t.mark mask c.key) s s' fun tracked r => tracked r || decide (r = path) := by
  obtain ⟨above, rfl⟩ := exists_plug_of_mem_leaves hc
  have hleaf : t.Spans (plug (.ofLeaf c :: above) .empty) := h.toSpans
  have hlength : above.length < t.size := h.toSpans.length_lt_size
  have hspans : (t.mark mask c.key).Spans _ := hleaf.markUp mask hlength
  have hsame := untagged_climb (fun f => f.item.isMarked mask) (· ||| mask) (.ofLeaf c :: above) .empty
  refine ⟨_, h.of_untagged hspans hsame (settings_mark _ _ _), hsame, fun tracked hm => ?_,
    fun other tracked hdisjoint hm => ?_⟩
  · have haround : ∀ b ∈ around above,
        b.isTracked (fun r => tracked r || decide (r = path)) = b.isTracked tracked :=
      h.isTracked_around hhoused hpath fun r hr => by simp [hr]
    exact hm.markLeaf (fun b => b.isMarked_mark hmask) haround (by simp [Cell.isTracked, hpath])
      (by simp [Cell.isTracked, Cell.retag, hpath])
  · exact hm.climbLeaf (fun b => b.isMarked_mark_of_disjoint hdisjoint) rfl _

theorem Shows.unmark (h : t.Shows s) (hhoused : s.IsHoused pool) {c : Cell} (hc : c ∈ s.leaves)
    {path : PathRef} (hpath : c.bookmark = some path) (mask : Mask) :
    ∃ s', Retracked mask (t.unmark mask c.key) s s' fun tracked r => tracked r && decide (r ≠ path) := by
  obtain ⟨above, rfl⟩ := exists_plug_of_mem_leaves hc
  have hleaf : t.Spans (plug (.ofLeaf c :: above) .empty) := h.toSpans
  have hlength : above.length < t.size := h.toSpans.length_lt_size
  have hspans : (t.unmark mask c.key).Spans _ := hleaf.unmarkUp mask rfl hlength
  have hsame := untagged_climb (fun f => f.beside.topMarked (Cell.isMarked mask)) (· &&& ~~~mask)
    (.ofLeaf c :: above) .empty
  refine ⟨_, h.of_untagged hspans hsame (settings_unmark _ _ _), hsame, fun tracked hm => ?_,
    fun other tracked hdisjoint hm => ?_⟩
  · have haround : ∀ b ∈ around above,
        b.isTracked (fun r => tracked r && decide (r ≠ path)) = b.isTracked tracked :=
      h.isTracked_around hhoused hpath fun r hr => by simp [hr]
    exact hm.unmarkLeaf (fun b => b.isMarked_unmark) haround
      (by simp [Cell.isTracked, Cell.retag, hpath])
  · exact hm.climbLeaf (fun b => b.isMarked_unmark_of_disjoint hdisjoint) rfl _

/-- What one leaf after the other is done to. -/
lemma Shows.retrackAll {f : Tree → NodeKey → Tree}
    {update : (PathRef → Bool) → PathRef → PathRef → Bool}
    (hstep : ∀ {t : Tree} {s : Shape Cell}, t.Shows s → s.IsHoused pool → ∀ c ∈ s.leaves, ∀ path,
      c.bookmark = some path →
        ∃ s', Retracked mask (f t c.key) s s' fun tracked => update tracked path)
    (pathAt : NodeKey → Option PathRef) (keys : List NodeKey) (h : t.Shows s)
    (hhoused : s.IsHoused pool) (hpaths : ∀ c ∈ s.leaves, pathAt c.key = c.bookmark)
    (hkeys : ∀ key ∈ keys, ∃ c ∈ s.leaves, c.key = key) :
    ∃ s', Retracked mask (keys.foldl f t) s s' fun tracked =>
      (keys.filterMap pathAt).foldl update tracked := by
  induction keys generalizing t s with
  | nil => exact ⟨s, h.retracked mask⟩
  | cons key keys ih =>
    obtain ⟨c, hc, rfl⟩ := hkeys key List.mem_cons_self
    obtain ⟨path, hpath, _⟩ := hhoused c hc
    obtain ⟨u, hu⟩ := hstep h hhoused c hc path hpath
    have hpaths' : ∀ d ∈ u.leaves, pathAt d.key = d.bookmark := by
      intro d hd
      obtain ⟨e, he, hkey, hbookmark⟩ := exists_leaf_of_untagged hu.untagged_eq hd
      rw [← hkey, ← hbookmark]
      exact hpaths e he
    have hkeys' : ∀ key ∈ keys, ∃ d ∈ u.leaves, d.key = key := by
      intro key hkey
      obtain ⟨e, he, rfl⟩ := hkeys key (List.mem_cons_of_mem _ hkey)
      obtain ⟨d, hd, hkey, _⟩ := exists_leaf_of_untagged hu.untagged_eq.symm he
      exact ⟨d, hd, hkey⟩
    obtain ⟨v, hv⟩ := ih hu.shows (hhoused.of_untagged hu.untagged_eq) hpaths' hkeys'
    refine ⟨v, ?_⟩
    rw [List.filterMap_cons, hpaths c hc, hpath]
    exact hu.trans hv

lemma foldl_or_eq (paths : List PathRef) (tracked : PathRef → Bool) :
    paths.foldl (fun tracked path r => tracked r || decide (r = path)) tracked =
      fun r => tracked r || decide (r ∈ paths) := by
  induction paths generalizing tracked with
  | nil => simp
  | cons path paths ih =>
    rw [List.foldl_cons, ih]
    funext r
    simp [Bool.or_assoc]

lemma foldl_and_eq (paths : List PathRef) (tracked : PathRef → Bool) :
    paths.foldl (fun tracked path r => tracked r && decide (r ≠ path)) tracked =
      fun r => tracked r && decide (r ∉ paths) := by
  induction paths generalizing tracked with
  | nil => simp
  | cons path paths ih =>
    rw [List.foldl_cons, ih]
    funext r
    simp [Bool.and_assoc]

/-- After an update a searcher tracks what it tracked before and the paths at the leaves `added`, but
for the paths at the leaves `removed`. -/
theorem Shows.retrack (h : t.Shows s) (hhoused : s.IsHoused pool) (hmask : mask ≠ 0)
    {pathAt : NodeKey → Option PathRef} (hpaths : ∀ c ∈ s.leaves, pathAt c.key = c.bookmark)
    {added removed : List NodeKey} (hadded : ∀ key ∈ added, ∃ c ∈ s.leaves, c.key = key)
    (hremoved : ∀ key ∈ removed, ∃ c ∈ s.leaves, c.key = key) :
    ∃ s', Retracked mask (t.retrack mask added removed) s s' fun tracked r =>
      (tracked r || decide (r ∈ added.filterMap pathAt)) && decide (r ∉ removed.filterMap pathAt) := by
  obtain ⟨u, hu⟩ := Shows.retrackAll (f := Tree.mark mask)
    (fun h hhoused c hc path hpath => h.mark hhoused hc hpath hmask) pathAt added h hhoused hpaths hadded
  have hpaths' : ∀ d ∈ u.leaves, pathAt d.key = d.bookmark := by
    intro d hd
    obtain ⟨e, he, hkey, hbookmark⟩ := exists_leaf_of_untagged hu.untagged_eq hd
    rw [← hkey, ← hbookmark]
    exact hpaths e he
  have hremoved' : ∀ key ∈ removed, ∃ d ∈ u.leaves, d.key = key := by
    intro key hkey
    obtain ⟨e, he, rfl⟩ := hremoved key hkey
    obtain ⟨d, hd, hkey, _⟩ := exists_leaf_of_untagged hu.untagged_eq.symm he
    exact ⟨d, hd, hkey⟩
  obtain ⟨v, hv⟩ := Shows.retrackAll (f := Tree.unmark mask)
    (fun h hhoused c hc path hpath => h.unmark hhoused hc hpath mask) pathAt removed hu.shows
    (hhoused.of_untagged hu.untagged_eq) hpaths' hremoved'
  have htrans := hu.trans hv
  simp only [foldl_or_eq, foldl_and_eq] at htrans
  exact ⟨v, htrans⟩

end Track

end Tree

namespace Shape

variable {mask : Mask} {tracked tracked' : PathRef → Bool} {s : Shape Cell} {c : Cell}

/-- The path of a leaf goes on with the bits of the leaf, and a new path has none. -/
lemma Marks.growAt (h : s.Marks mask tracked) (hnodup : s.keys.Nodup) (hc : c ∈ s.leaves)
    {left right : PathRef} (hright : c.bookmark = some right) (hleft : tracked' left = false)
    (hsame : ∀ d ∈ s.leaves, d.isTracked tracked' = d.isTracked tracked) (reason : BranchReason)
    (line : UInt64) (l r : NodeKey) (noteL noteR : Option Note) :
    (s.growAt c.key (c.fork reason line ⟨l, 0, some left, noteL⟩ ⟨r, 0, some right, noteR⟩)).Marks mask
      tracked' := by
  have hstays : tracked' right = c.isTracked tracked := by
    rw [← hsame c hc, Cell.isTracked, hright]
    rfl
  have hany : (c.fork reason line ⟨l, 0, some left, noteL⟩ ⟨r, 0, some right, noteR⟩).leaves.any
      (Cell.isTracked tracked') = c.isTracked tracked := by
    have hleaves : (c.fork reason line ⟨l, 0, some left, noteL⟩ ⟨r, 0, some right, noteR⟩).leaves =
        [⟨l, 0, some left, noteL⟩, ⟨r, c.tag, some right, noteR⟩] := rfl
    simp [hleaves, Cell.isTracked, hleft, hstays]
  have hkey : ∀ d ∈ s.leaves, d.key = c.key → d = c := fun d hd =>
    eq_of_key_eq hnodup (leaves_subset_preorder s hd) (leaves_subset_preorder s hc)
  refine IsMarked.grow h (fun d hd hmark => ?_) (fun d hd => ?_) fun d _ => by split <;> rfl
  · split
    · next e =>
      rw [hkey d hd e] at hmark
      refine ⟨hmark.trans hany.symm, ⟨?_, trivial, trivial⟩, ?_, trivial, trivial⟩
      · simp [Cell.isMarked, any_leaves_node, Cell.isTracked, hleft]
      · refine Eq.trans hmark ?_
        simp [any_leaves_node, Cell.isTracked, hstays]
    · refine ⟨?_, trivial, trivial⟩
      rw [hmark, ← hsame d hd, any_leaves_node]
      rfl
  · split
    · next e => rw [hany, hkey d hd e]
    · rw [leaves_leaf, List.any_cons, List.any_nil, Bool.or_false, hsame d hd]

/-- A leaf whose path is not tracked can go. -/
lemma Marks.removed (h : s.Marks mask tracked) (hnodup : s.keys.Nodup) (hc : c ∈ s.leaves)
    (huntracked : c.isTracked tracked = false) (compress : Bool) :
    (s.removed compress c.key).Marks mask tracked := by
  have hcut : (s.cutAt c.key).IsMarked (Cell.isMarked mask) (Cell.isTracked tracked) := by
    refine IsMarked.prune h fun d hd htracked => ?_
    rw [decide_eq_true_eq]
    intro e
    rw [eq_of_key_eq hnodup (leaves_subset_preorder s hd) (leaves_subset_preorder s hc) e,
      huntracked] at htracked
    cases htracked
  rw [Shape.removed]
  split
  · exact hcut.contract
  · exact hcut

lemma Marks.editAt (h : s.Marks mask tracked) (key : NodeKey) (kind : TerminationKind) :
    (s.editAt key (·.withKind kind)).Marks mask tracked := by
  refine (isMarked_map (fun c => ?_) fun c => ?_).2 h
  · split <;> rfl
  · split <;> rfl

end Shape

namespace Tree

variable {t : Tree} {s : Shape Cell} {pool : Pool} {mask : Mask} {tracked : PathRef → Bool}

lemma Reads.descend_eq {parent : Option NodeKey} {e : Edge} (h : t.Reads parent e s)
    (hmarks : s.Marks mask tracked) (hbookmarked : s.IsBookmarked) (hhoused : s.IsHoused pool)
    (coin : Nat → Bool) {fuel : Nat} (hfuel : s.height ≤ fuel) (asked : Nat) {key : NodeKey}
    (hkey : e.target = some key) :
    t.descend pool mask coin fuel key asked =
      ((s.draw (Cell.isTracked tracked) coin asked).1.bind Cell.bookmark,
        (s.draw (Cell.isTracked tracked) coin asked).2) := by
  induction h generalizing fuel asked key with
  | nowhere null =>
    rw [null] at hkey
    cases hkey
  | @node _ _ key n left right target live linked hleft hright ihl ihr =>
    rw [target] at hkey
    cases hkey
    rw [height] at hfuel
    obtain ⟨fuel, rfl⟩ : ∃ m, fuel = m + 1 := ⟨fuel - 1, by omega⟩
    obtain ⟨_, hml, hmr⟩ := hmarks
    obtain ⟨hself, hbl, hbr⟩ := hbookmarked
    rw [draw]
    by_cases hinner : (left.isEmpty && right.isEmpty) = true
    · obtain ⟨path, hpath, hleaf⟩ := hhoused _ (mem_leaves_node hinner)
      have hpath' : n.path? pool = some path := by
        have hbookmark : n.bookmark = some path := hpath
        simp [Node.path?, hbookmark, Option.filter, Pool.isAlive_of_leafOf? hleaf]
      simp only [descend, live, hpath', hinner, if_true]
      exact Prod.ext hpath.symm rfl
    · obtain ⟨hhl, hhr⟩ := forall_leaves_node hhoused hinner
      have hnone : n.path? pool = none := by
        rw [Bool.not_eq_true] at hinner
        rw [hinner] at hself
        have hbookmark : n.bookmark = none := by simpa [Cell.ofNode] using hself
        rw [Node.path?, hbookmark]
        rfl
      have hl := (hleft.isMarked_eq mask).trans hml.topMarked_eq
      have hr := (hright.isMarked_eq mask).trans hmr.topMarked_eq
      have hto : ∀ {e : Edge}, e.isMarked mask = true → ∃ key, e.target = some key := by
        intro e hmarked
        rw [Edge.isMarked, Bool.and_eq_true] at hmarked
        exact Option.isSome_iff_exists.1 hmarked.1
      have hfl : left.height ≤ fuel := by omega
      have hfr : right.height ≤ fuel := by omega
      rw [if_neg hinner, ← hl, ← hr]
      simp only [descend, live, hnone]
      cases hml' : n.left.isMarked mask <;> cases hmr' : n.right.isMarked mask
      · rfl
      · obtain ⟨child, hchild⟩ := hto hmr'
        simp only [hchild]
        exact ihr hmr hbr hhr hfr asked hchild
      · obtain ⟨child, hchild⟩ := hto hml'
        simp only [hchild]
        exact ihl hml hbl hhl hfl asked hchild
      · obtain ⟨child, hchild⟩ := hto hml'
        obtain ⟨child', hchild'⟩ := hto hmr'
        cases hcoin : coin asked with
        | true =>
          simp only [if_true, hchild]
          exact ihl hml hbl hhl hfl (asked + 1) hchild
        | false =>
          simp only [Bool.false_eq_true, if_false, hchild']
          exact ihr hmr hbr hhr hfr (asked + 1) hchild'

theorem Shows.select_eq (h : t.Shows s) (hhoused : s.IsHoused pool) (hmarks : s.Marks mask tracked)
    (coin : Nat → Bool) :
    t.select pool mask coin =
      if s.leaves.any (Cell.isTracked tracked) then
        ((s.draw (Cell.isTracked tracked) coin 0).1.bind Cell.bookmark,
          (s.draw (Cell.isTracked tracked) coin 0).2)
      else (none, 0) := by
  have hroot := (h.reads.isMarked_eq mask).trans hmarks.topMarked_eq
  rw [select, hroot]
  split
  · next hany =>
    rw [hany] at hroot
    rw [Edge.isMarked, Bool.and_eq_true, Option.isSome_iff_exists] at hroot
    obtain ⟨⟨key, hkey⟩, _⟩ := hroot
    have hfuel : s.height ≤ t.size := by
      rw [h.size_eq]
      exact height_le_size s
    simp only [hkey]
    exact h.reads.descend_eq hmarks h.bookmarked hhoused coin hfuel 0 hkey
  · rfl

end Tree

end ForkTree
