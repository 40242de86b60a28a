import ForkTree.Proofs.LiveMarks
import ForkTree.Proofs.PathLinks

/-!
Sessions with searchers. A `Search` is a session together with what each searcher tracks: what was added
and not taken away since. A call keeps the bits of all searchers right for what they track
(`Search.Shows.step`), so after any run a searcher finds exactly the paths that it tracks
(`Search.select_after`).
-/

namespace ForkTree

open Shape

/-- All searchers' bits, in the order in which they are claimed. -/
def Mask.all : List Mask := (List.range Masks.width).map fun i => 1 <<< UInt8.ofNat i

/-- Only the bits themselves are tried, not all sets of bits. -/
instance Mask.decidableForallAll (p : Mask → Prop) [DecidablePred p] :
    Decidable (∀ mask ∈ Mask.all, p mask) :=
  List.decidableBAll p Mask.all

lemma Mask.ne_zero : ∀ mask ∈ all, mask ≠ 0 := by decide

lemma Mask.disjoint : ∀ mask ∈ all, ∀ other ∈ all, other ≠ mask → mask &&& other = 0 := by decide

namespace Session

variable {σ : Type}

def pathAt? (x : Session σ) (key : NodeKey) : Option PathRef :=
  x.tracker.tree?.bind fun t => (t.node? key).bind Node.bookmark

def isLeaf (x : Session σ) (key : NodeKey) : Bool :=
  x.tracker.tree?.any fun t => (t.node? key).any Node.isLeaf

end Session

/-- A session with the paths that each searcher tracks. -/
structure Search (σ : Type) where
  session : Session σ
  tracked : Mask → PathRef → Bool

namespace Search

inductive Call where
  | call (call : Session.Call)
  /-- A searcher goes on to track the paths at the leaves `added`, but not those at the leaves
  `removed`. -/
  | retrack (mask : Mask) (added removed : List NodeKey)

variable {σ : Type}

/-- What is tracked after a call. A new path is not tracked. -/
def trackedAfter (x : Search σ) : Call → Mask → PathRef → Bool
  | .call (.attach _ left _ _) => fun mask r => x.tracked mask r && decide (r ≠ left)
  | .call _ => x.tracked
  | .retrack mask added removed => Function.update x.tracked mask fun r =>
    (x.tracked mask r || decide (r ∈ added.filterMap x.session.pathAt?)) &&
      decide (r ∉ removed.filterMap x.session.pathAt?)

def step (hash : Digest.Hash) (storage : Storage σ) (x : Search σ) (call : Call) : Search σ where
  session :=
    match call with
    | .call call => (x.session.step hash storage .none call).2
    | .retrack mask added removed =>
      { x.session with tracker := x.session.tracker.modifyTree (Tree.retrack mask · added removed) }
  tracked := x.trackedAfter call

def after (hash : Digest.Hash) (storage : Storage σ) (x : Search σ) (calls : List Call) : Search σ :=
  calls.foldl (step hash storage) x

/-- No searcher tracks anything in a new session. -/
def create (hash : Digest.Hash) (storage : Storage σ) (config : Config) (inMemory : Bool)
    (run : RunId) (path : PathRef) (pool : Pool) (s : σ) : Search σ :=
  ⟨Session.create hash storage config inMemory run path pool s, fun _ _ => false⟩

/-- What an engine keeps to besides: a path is not tracked any more when it ends, and no path on the
frontier is let go. -/
def Spares (x : Search σ) : Session.Call → Prop
  | .remove key => ∀ mask ∈ Mask.all, (x.session.pathAt? key).any (x.tracked mask) = false
  | .engine pool => ∀ path ∈ x.session.frontier, pool.isAlive path = true
  | _ => True

instance (x : Search σ) (call : Session.Call) : Decidable (x.Spares call) :=
  match call with
  | .remove _ => inferInstanceAs (Decidable (∀ _ ∈ _, _))
  | .engine _ => inferInstanceAs (Decidable (∀ _ ∈ _, _))
  | .attach _ _ _ _ => .isTrue trivial
  | .setKind _ _ => .isTrue trivial
  | .claimMask => .isTrue trivial
  | .commit => .isTrue trivial
  | .dump _ => .isTrue trivial

/-- A searcher is told of leaves, and any other call is made as an engine keeps to. -/
def Call.Admits (x : Search σ) : Call → Prop
  | call c => c.Admits x.session ∧ x.Spares c
  | retrack mask added removed =>
    mask ∈ Mask.all ∧ ∀ key ∈ added ++ removed, x.session.isLeaf key = true

/-- Each call is admissible when it is made. -/
def Admits (hash : Digest.Hash) (storage : Storage σ) : Search σ → List Call → Prop
  | _, [] => True
  | x, call :: rest => call.Admits x ∧ Admits hash storage (x.step hash storage call) rest

/-- The bits are right for what is tracked, and that is at the leaves. -/
structure Shows (x : Search σ) (t : Tree) (s : Shape Cell) : Prop extends x.session.Links t s where
  alive : ∀ c ∈ s.leaves, ∀ path, c.bookmark = some path → x.session.pool.isAlive path = true
  marks : ∀ mask ∈ Mask.all, s.Marks mask (x.tracked mask)
  known : ∀ mask path, x.tracked mask path = true → mask ∈ Mask.all
  placed : ∀ mask path, x.tracked mask path = true → ∃ c ∈ s.leaves, c.bookmark = some path

end Search

namespace Session

variable {σ : Type} {x : Session σ} {t : Tree} {s : Shape Cell}

lemma Links.pathAt?_eq (h : x.Links t s) {c : Cell} (hc : c ∈ s.leaves) :
    x.pathAt? c.key = c.bookmark := by
  obtain ⟨n, live, _, hbookmark, _⟩ := h.shows.reads.node?_of_mem_leaves hc
  simp [pathAt?, h.tree_eq, live, hbookmark]

lemma Links.exists_leaf_of_pathAt? (h : x.Links t s) {key : NodeKey} {path : PathRef}
    (hpath : x.pathAt? key = some path) : ∃ c ∈ s.leaves, c.key = key ∧ c.bookmark = some path := by
  rw [pathAt?, h.tree_eq, Option.bind_some, Option.bind_eq_some_iff] at hpath
  obtain ⟨n, live, hn⟩ := hpath
  obtain ⟨c, hc, hkey, hbookmark, _⟩ := h.exists_leaf_of_bookmark live hn
  exact ⟨c, hc, hkey, hbookmark⟩

lemma Links.exists_leaf_of_isLeaf (h : x.Links t s) {key : NodeKey} (hleaf : x.isLeaf key = true) :
    ∃ c ∈ s.leaves, c.key = key := by
  simp only [isLeaf, h.tree_eq, Option.any_some, Option.any_eq_true] at hleaf
  obtain ⟨n, live, hn⟩ := hleaf
  exact h.shows.exists_leaf live hn

end Session

lemma Tracker.tree?_modifyTree (t : Tracker) (change : Tree → Tree) :
    (t.modifyTree change).tree? = t.tree?.map change := by
  cases t <;> rfl

namespace Search

variable {σ : Type} {hash : Digest.Hash} {storage : Storage σ} {x : Search σ} {t u : Tree}
  {s s' : Shape Cell} {c : Cell}

lemma Shows.housed (h : x.Shows t s) : s.IsHoused x.session.pool := by
  intro c hc
  obtain ⟨path, hpath⟩ := Option.isSome_iff_exists.1 (h.shows.bookmarked.of_mem_leaves hc)
  exact ⟨path, hpath, h.linked.told c hc path hpath (h.alive c hc path hpath)⟩

lemma Shows.session_shows (h : x.Shows t s) : x.session.Shows t s := ⟨h.tree_eq, h.shows, h.housed⟩

/-- A path that is at no leaf is not tracked. -/
lemma Shows.not_tracked (h : x.Shows t s) {path : PathRef} (hpath : x.session.pool.leafOf? path = none)
    (mask : Mask) : x.tracked mask path = false := by
  rw [Bool.eq_false_iff]
  intro hr
  obtain ⟨c, hc, hcr⟩ := h.placed mask path hr
  rw [h.housed.leafOf?_eq hc hcr] at hpath
  cases hpath

/-- A path that joins the tree was not tracked before, so only searchers change what is tracked. -/
lemma Shows.trackedAfter_eq (h : x.Shows t s) {call : Session.Call} (hadmits : call.Admits x.session) :
    x.trackedAfter (.call call) = x.tracked := by
  cases call with
  | attach key left right reason =>
    funext mask path
    by_cases hne : path = left
    · subst hne
      simp [trackedAfter, h.not_tracked hadmits.2 mask]
    · simp [trackedAfter, hne]
  | remove | setKind | claimMask | commit | dump | engine => rfl

/-- A call that leaves the paths at the leaves alone. -/
lemma Shows.of_links (h : x.Shows t s) {call : Session.Call} (hadmits : call.Admits x.session)
    (hlinks : (x.session.step hash storage .none call).2.Links u s')
    (halive : ∀ c ∈ s.leaves, ∀ path, c.bookmark = some path →
      (x.session.step hash storage .none call).2.pool.isAlive path = true)
    (hmarks : ∀ mask tracked, s.Marks mask tracked → s'.Marks mask tracked)
    (hleaves : s'.leaves.map Cell.bookmark = s.leaves.map Cell.bookmark) :
    (x.step hash storage (.call call)).Shows u s' := by
  have htracked := h.trackedAfter_eq hadmits
  have hiff : ∀ path, (∃ c ∈ s'.leaves, c.bookmark = some path) ↔ ∃ c ∈ s.leaves, c.bookmark = some path := by
    intro path
    rw [← List.mem_map, hleaves, List.mem_map]
  refine ⟨hlinks, fun c hc path hpath => ?_, fun mask hmask => ?_, fun mask path hr => ?_, fun mask path hr => ?_⟩
  · obtain ⟨d, hd, hdpath⟩ := (hiff path).1 ⟨c, hc, hpath⟩
    exact halive d hd path hdpath
  · rw [step, htracked]
    exact hmarks mask _ (h.marks mask hmask)
  · rw [step, htracked] at hr
    exact h.known mask path hr
  · rw [step, htracked] at hr
    exact (hiff path).2 (h.placed mask path hr)

/-- A fork: the path of the leaf goes on to the right and stays tracked. -/
lemma Shows.attach (h : x.Shows t s) (hc : c ∈ s.leaves) {left right : PathRef}
    (hright : x.session.pool.leafOf? right = some c.key) (reason : BranchReason)
    (hadmits : (Session.Call.attach c.key left right reason).Admits x.session)
    (hsmall : (x.step hash storage (.call (.attach c.key left right reason))).session.slots ≤
      UInt32.size) :
    ∃ u s', (x.step hash storage (.call (.attach c.key left right reason))).Shows u s' := by
  have htracked := h.trackedAfter_eq hadmits
  obtain ⟨hleft, hnone⟩ := hadmits
  obtain ⟨l, r, u, hpool, hlinks⟩ := h.toLinks.attach hc hright hleft hnone reason hsmall
  have hpath := h.linked.bookmark_eq h.shows.nodup hc hright
  refine ⟨u, _, hlinks, fun d hd path hdpath => ?_, fun mask hmask => ?_, fun mask path hr => ?_,
    fun mask path hr => ?_⟩
  · change (x.session.step hash storage .none (.attach c.key left right reason)).2.pool.isAlive path = true
    rw [hpool, Pool.isAlive_setNode, Pool.isAlive_setNode]
    rw [mem_leaves_growAt hc] at hd
    rcases hd with rfl | rfl | ⟨hd, _⟩
    · cases hdpath
      exact hleft
    · cases hdpath
      exact Pool.isAlive_of_leafOf? hright
    · exact h.alive d hd path hdpath
  · rw [step, htracked]
    exact (h.marks mask hmask).growAt h.shows.nodup hc hpath (h.not_tracked hnone mask) (fun _ _ => rfl)
      _ _ _ _ _ _
  · rw [step, htracked] at hr
    exact h.known mask path hr
  · rw [step, htracked] at hr
    simp only [mem_leaves_growAt hc]
    obtain ⟨d, hd, hdpath⟩ := h.placed mask path hr
    by_cases hkey : d.key = c.key
    · refine ⟨_, .inr (.inl rfl), ?_⟩
      rw [← hdpath, eq_of_key_eq h.shows.nodup (leaves_subset_preorder s hd)
        (leaves_subset_preorder s hc) hkey, hpath]
    · exact ⟨d, .inr (.inr ⟨hd, hkey⟩), hdpath⟩

/-- The end of a path that no searcher tracks. -/
lemma Shows.remove (h : x.Shows t s) (hc : c ∈ s.leaves) (hspares : x.Spares (.remove c.key)) :
    ∃ u s', (x.step hash storage (.call (.remove c.key))).Shows u s' := by
  obtain ⟨path, hpath⟩ := Option.isSome_iff_exists.1 (h.shows.bookmarked.of_mem_leaves hc)
  obtain ⟨u, _, hpool, hlinks⟩ := h.toLinks.remove hc hpath hash storage
  have huntracked : ∀ mask, x.tracked mask path = false := by
    intro mask
    rw [Bool.eq_false_iff]
    intro hr
    have hfalse := hspares mask (h.known mask path hr)
    rw [h.pathAt?_eq hc, hpath, Option.any_some, hr] at hfalse
    cases hfalse
  have hmem : ∀ d, d ∈ (s.removed t.compress c.key).leaves ↔ d ∈ s.leaves ∧ d.key ≠ c.key := by
    intro d
    rw [leaves_removed, List.mem_filter, decide_eq_true_eq]
  refine ⟨u, _, hlinks, fun d hd q hdq => ?_, fun mask hmask => ?_, fun mask q hr => ?_,
    fun mask q hr => ?_⟩
  · change (x.session.step hash storage .none (.remove c.key)).2.pool.isAlive q = true
    rw [hpool, Tree.isAlive_release]
    exact h.alive d ((hmem d).1 hd).1 q hdq
  · exact (h.marks mask hmask).removed h.shows.nodup hc
      (by rw [Cell.isTracked, hpath, Option.any_some, huntracked]) t.compress
  · exact h.known mask q hr
  · obtain ⟨d, hd, hdq⟩ := h.placed mask q hr
    refine ⟨d, (hmem d).2 ⟨hd, fun hkey => ?_⟩, hdq⟩
    rw [eq_of_key_eq h.shows.nodup (leaves_subset_preorder s hd) (leaves_subset_preorder s hc) hkey,
      hpath] at hdq
    cases hdq
    change x.tracked mask path = true at hr
    rw [huntracked] at hr
    cases hr

/-- What is tracked was tracked before or is at one of the added leaves. -/
lemma tracked_of_retrack {mask other : Mask} {added removed : List NodeKey} {path : PathRef}
    (h : x.trackedAfter (.retrack mask added removed) other path = true) :
    x.tracked other path = true ∨ other = mask ∧ path ∈ added.filterMap x.session.pathAt? := by
  rw [trackedAfter] at h
  by_cases hne : other = mask
  · subst hne
    rw [Function.update_self, Bool.and_eq_true, Bool.or_eq_true, decide_eq_true_eq] at h
    exact h.1.imp_right fun hpath => ⟨rfl, hpath⟩
  · rw [Function.update_of_ne hne] at h
    exact .inl h

lemma Shows.retrack (h : x.Shows t s) {mask : Mask} {added removed : List NodeKey}
    (hadmits : (Call.retrack mask added removed).Admits x) (hash : Digest.Hash) (storage : Storage σ) :
    ∃ s', s'.untagged = s.untagged ∧
      (x.step hash storage (.retrack mask added removed)).Shows (t.retrack mask added removed) s' := by
  obtain ⟨hall, hleaves⟩ := hadmits
  have hleaf : ∀ key ∈ added ++ removed, ∃ c ∈ s.leaves, c.key = key := fun key hkey =>
    h.exists_leaf_of_isLeaf (hleaves key hkey)
  obtain ⟨s', hs'⟩ := h.shows.retrack h.housed (Mask.ne_zero mask hall) (fun c hc => h.pathAt?_eq hc)
    (fun key hkey => hleaf key (List.mem_append_left _ hkey))
    (fun key hkey => hleaf key (List.mem_append_right _ hkey))
  have hnew := fun (d : Cell) (hd : d ∈ s'.leaves) => exists_leaf_of_untagged hs'.untagged_eq hd
  have hold := fun (c : Cell) (hc : c ∈ s.leaves) => exists_leaf_of_untagged hs'.untagged_eq.symm hc
  refine ⟨s', hs'.untagged_eq, ⟨?_, hs'.shows, h.linked.congr hnew hold⟩, fun d hd path hdpath => ?_,
    fun other hother => ?_, fun other path hr => ?_, fun other path hr => ?_⟩
  · change (x.session.tracker.modifyTree _).tree? = _
    rw [Tracker.tree?_modifyTree, h.tree_eq]
    rfl
  · obtain ⟨c, hc, _, hbookmark⟩ := hnew d hd
    exact h.alive c hc path (hbookmark.trans hdpath)
  · change s'.Marks other (Function.update x.tracked mask _ other)
    by_cases hne : other = mask
    · subst hne
      rw [Function.update_self]
      exact hs'.marks _ (h.marks other hother)
    · rw [Function.update_of_ne hne]
      exact hs'.others other _ (Mask.disjoint mask hall other hother hne) (h.marks other hother)
  · rcases tracked_of_retrack hr with hr | ⟨rfl, _⟩
    · exact h.known other path hr
    · exact hall
  · suffices hplaced : ∃ c ∈ s.leaves, c.bookmark = some path by
      obtain ⟨c, hc, hpath⟩ := hplaced
      obtain ⟨d, hd, _, hbookmark⟩ := hold c hc
      exact ⟨d, hd, hbookmark.trans hpath⟩
    rcases tracked_of_retrack hr with hr | ⟨_, hr⟩
    · exact h.placed other path hr
    · obtain ⟨key, hkey, hpath⟩ := List.mem_filterMap.1 hr
      obtain ⟨c, hc, rfl⟩ := hleaf key (List.mem_append_left _ hkey)
      exact ⟨c, hc, (h.pathAt?_eq hc).symm.trans hpath⟩

lemma Shows.setKind (h : x.Shows t s) (path : PathState) (kind : TerminationKind) :
    ∃ u s', (x.step hash storage (.call (.setKind path kind))).Shows u s' := by
  refine ⟨_, _, h.of_links trivial (h.toLinks.setKind path kind) h.alive (fun mask tracked hm => ?_) ?_⟩
  · cases path.node with
    | none => exact hm
    | some key => exact hm.editAt key kind
  · cases path.node with
    | none => rfl
    | some key =>
      rw [Option.elim_some, editAt, leaves_map, List.map_map]
      refine List.map_congr_left fun c _ => ?_
      rw [Function.comp_apply]
      split <;> rfl

/-- Any call that is admissible keeps the bits right, also if it is refused. -/
theorem Shows.step (h : x.Shows t s) {call : Call} (hadmits : call.Admits x)
    (hsmall : (x.step hash storage call).session.slots ≤ UInt32.size) :
    ∃ u s', (x.step hash storage call).Shows u s' := by
  cases call with
  | retrack mask added removed =>
    obtain ⟨s', _, hshows⟩ := h.retrack hadmits hash storage
    exact ⟨_, s', hshows⟩
  | call call =>
    obtain ⟨hadmits, hspares⟩ := hadmits
    -- A call that leaves the cells and the paths alone.
    have hsame : ∀ {result : Except Tree.Fault Unit} {u : Tree},
        call.onTree .none t x.session.pool = ⟨result, u, x.session.pool⟩ → u.Shows s →
        (x.step hash storage (.call call)).Shows u s := by
      intro result u houtcome hu
      obtain ⟨_, hpool, hlinks⟩ := h.toLinks.of_onTree call houtcome hu h.linked
      exact h.of_links hadmits hlinks
        (fun c hc path hpath => by rw [hpool]; exact h.alive c hc path hpath) (fun _ _ hm => hm) rfl
    cases hrefused : call.refusal? t x.session.pool with
    | some fault =>
      exact ⟨t, s, hsame (Tree.onTree_refused hrefused) h.shows⟩
    | none =>
      cases call with
      | attach key left right reason =>
        obtain ⟨n, live, hleaf, hright⟩ := Tree.attachRefusal?_eq_none hrefused
        obtain ⟨c, hc, rfl⟩ := h.shows.exists_leaf live hleaf
        exact h.attach hc hright reason hadmits hsmall
      | remove key =>
        obtain ⟨n, live, hleaf⟩ := Tree.removeRefusal?_eq_none hrefused
        obtain ⟨c, hc, rfl⟩ := h.shows.exists_leaf live hleaf
        exact h.remove hc hspares
      | setKind path kind => exact h.setKind path kind
      | engine pool =>
        refine ⟨t, s, h.of_links hadmits (h.toLinks.engine hadmits) ?_ (fun _ _ hm => hm) rfl⟩
        intro c hc path hpath
        refine hspares path ?_
        rw [h.session_shows.frontier_eq]
        exact List.mem_filterMap.2 ⟨c, hc, hpath⟩
      | claimMask => exact ⟨_, s, hsame rfl (h.shows.congr rfl rfl rfl)⟩
      | commit | dump => exact ⟨t, s, hsame rfl h.shows⟩

/-! ### Runs -/

lemma step_tree? (h : x.session.tracker.tree? = some t) (hash : Digest.Hash) (storage : Storage σ)
    (call : Call) :
    ∃ u, (x.step hash storage call).session.tracker.tree? = some u ∧
      t.nodes.slots.size ≤ u.nodes.slots.size := by
  cases call with
  | call call =>
    obtain ⟨_, htree, _⟩ := Session.step_onTree hash storage .none h call
    exact ⟨_, htree, Tree.slots_size_onTree t x.session.pool call⟩
  | retrack mask added removed =>
    refine ⟨t.retrack mask added removed, ?_, ?_⟩
    · change (x.session.tracker.modifyTree _).tree? = _
      rw [Tracker.tree?_modifyTree, h]
      rfl
    · exact Nat.le_of_eq (congrArg (·.2.2.2.2) (Tree.settings_retrack mask t added removed)).symm

lemma exists_tree_after (h : x.session.tracker.tree? = some t) (calls : List Call) :
    ∃ u, (x.after hash storage calls).session.tracker.tree? = some u ∧
      t.nodes.slots.size ≤ u.nodes.slots.size := by
  induction calls generalizing x t with
  | nil => exact ⟨t, h, Nat.le_refl _⟩
  | cons call calls ih =>
    obtain ⟨w, hw, hle⟩ := step_tree? h hash storage call
    obtain ⟨u, hu, hle'⟩ := ih hw
    exact ⟨u, hu, Nat.le_trans hle hle'⟩

lemma slots_le_after (h : x.session.tracker.tree? = some t) (calls : List Call) :
    x.session.slots ≤ (x.after hash storage calls).session.slots := by
  obtain ⟨u, hu, hle⟩ := exists_tree_after h calls
  rwa [Session.slots_eq h, Session.slots_eq hu]

theorem Shows.after (h : x.Shows t s) (calls : List Call) (hcalls : x.Admits hash storage calls)
    (hsmall : (x.after hash storage calls).session.slots ≤ UInt32.size) :
    ∃ u s', (x.after hash storage calls).Shows u s' := by
  induction calls generalizing x t s with
  | nil => exact ⟨t, s, h⟩
  | cons call calls ih =>
    obtain ⟨hcall, hrest⟩ := hcalls
    obtain ⟨w, hw, _⟩ := step_tree? h.tree_eq hash storage call
    obtain ⟨u, s', hshows⟩ := h.step hcall (Nat.le_trans (slots_le_after hw calls) hsmall)
    exact ih hshows hrest hsmall

/-- At the start no edge is marked and nothing is tracked. -/
lemma exists_shows_create (hash : Digest.Hash) (storage : Storage σ) (config : Config) {inMemory : Bool}
    (hkept : config.persist = true ∨ inMemory = true) (run : RunId) {path : PathRef} {pool : Pool}
    (hpath : pool.isAlive path = true) (hothers : ∀ r, r ≠ path → pool.leafOf? r = none) (s : σ) :
    ∃ t v, (create hash storage config inMemory run path pool s).Shows t v := by
  obtain ⟨t, key, note, hlinks, hpool⟩ :=
    Session.exists_links_create hash storage config hkept run hpath hothers s
  refine ⟨t, _, hlinks, fun c hc r hr => ?_, fun mask _ => ?_, fun _ _ hr => ?_, fun _ _ hr => ?_⟩
  · rw [leaves_leaf, List.mem_singleton] at hc
    subst hc
    cases hr
    change (Session.create hash storage config inMemory run path pool s).pool.isAlive path = true
    rw [hpool, Pool.isAlive_setNode, hpath]
  · refine ⟨?_, trivial, trivial⟩
    change ((0 : Mask) &&& mask != 0) = ([_].any (Cell.isTracked fun _ => false))
    simp [Cell.isTracked]
  · cases hr
  · cases hr

end Search

namespace Tree

/-- A searcher finds what it tracks, and nothing else: it finds nothing only if it tracks nothing, all it
finds is tracked, and some coins lead to each path that it tracks. -/
structure Finds (t : Tree) (pool : Pool) (mask : Mask) (tracked : PathRef → Bool) : Prop where
  none_iff : ∀ coin, (t.select pool mask coin).1 = none ↔ ∀ path, tracked path = false
  sound : ∀ coin path, (t.select pool mask coin).1 = some path → tracked path = true
  complete : ∀ path, tracked path = true → ∃ coin, (t.select pool mask coin).1 = some path

end Tree

namespace Search

variable {σ : Type}

lemma Shows.finds {x : Search σ} {t : Tree} {s : Shape Cell} (h : x.Shows t s) {mask : Mask}
    (hmask : mask ∈ Mask.all) : t.Finds x.session.pool mask (x.tracked mask) := by
  have hselect := h.shows.select_eq h.housed (h.marks mask hmask)
  have hany : s.leaves.any (Cell.isTracked (x.tracked mask)) = true ↔ ∃ path, x.tracked mask path = true := by
    rw [List.any_eq_true]
    constructor
    · rintro ⟨c, _, hc⟩
      obtain ⟨path, _, hpath⟩ := (Option.any_eq_true _ _).1 hc
      exact ⟨path, hpath⟩
    · rintro ⟨path, hpath⟩
      obtain ⟨c, hc, hbookmark⟩ := h.placed mask path hpath
      exact ⟨c, hc, by rw [Cell.isTracked, hbookmark, Option.any_some, hpath]⟩
  -- A walk ends at the path of a leaf that is tracked.
  have hfound : s.leaves.any (Cell.isTracked (x.tracked mask)) = true → ∀ coin, ∃ path,
      (t.select x.session.pool mask coin).1 = some path ∧ x.tracked mask path = true := by
    intro hsome coin
    obtain ⟨c, _, htracked, hdraw⟩ : ∃ c ∈ s.leaves, c.isTracked (x.tracked mask) = true ∧
        (s.draw (Cell.isTracked (x.tracked mask)) coin 0).1 = some c := exists_draw_eq hsome
    obtain ⟨path, hpath, hr⟩ := (Option.any_eq_true _ _).1 htracked
    refine ⟨path, ?_, hr⟩
    rw [hselect, if_pos hsome, hdraw, Option.bind_some, hpath]
  refine ⟨fun coin => ⟨fun hnone path => ?_, fun hnone => ?_⟩, fun coin path hpath => ?_, fun path hpath => ?_⟩
  · rw [Bool.eq_false_iff]
    intro hpath
    obtain ⟨q, hq, _⟩ := hfound (hany.2 ⟨path, hpath⟩) coin
    rw [hnone] at hq
    cases hq
  · have hnot : ¬ s.leaves.any (Cell.isTracked (x.tracked mask)) = true := fun hsome => by
      obtain ⟨path, hpath⟩ := hany.1 hsome
      rw [hnone] at hpath
      cases hpath
    rw [hselect, if_neg hnot]
  · by_cases hsome : s.leaves.any (Cell.isTracked (x.tracked mask)) = true
    · obtain ⟨q, hq, htracked⟩ := hfound hsome coin
      rw [hpath] at hq
      cases hq
      exact htracked
    · rw [hselect, if_neg hsome] at hpath
      cases hpath
  · obtain ⟨c, hc, hbookmark⟩ := h.placed mask path hpath
    have htracked : c.isTracked (x.tracked mask) = true := by
      rw [Cell.isTracked, hbookmark, Option.any_some, hpath]
    obtain ⟨coin, hcoin⟩ := exists_coin_draw_eq hc htracked 0
    exact ⟨coin, by rw [hselect, if_pos (hany.2 ⟨path, hpath⟩), hcoin, Option.bind_some, hbookmark]⟩

/-- After any run, every searcher finds exactly the paths that it tracks. The run may be of any calls in
which paths join the tree from nowhere else in it and stay with the engine while they are at leaves,
searchers are told of leaves only, and are told to let a path go before it ends. The bound is the number
of slot numbers. -/
theorem select_after (hash : Digest.Hash) (storage : Storage σ) (config : Config) (inMemory : Bool)
    (run : RunId) (path : PathRef) (pool : Pool) (s : σ) (calls : List Call)
    (hkept : config.persist = true ∨ inMemory = true) (hpath : pool.isAlive path = true)
    (hothers : ∀ r, r ≠ path → pool.leafOf? r = none) :
    let x := create hash storage config inMemory run path pool s
    let y := x.after hash storage calls
    x.Admits hash storage calls → y.session.slots ≤ UInt32.size →
      ∃ t, y.session.tracker.tree? = some t ∧
        ∀ mask ∈ Mask.all, t.Finds y.session.pool mask (y.tracked mask) := by
  intro x y hcalls hsmall
  obtain ⟨t, v, hstart⟩ := exists_shows_create hash storage config hkept run hpath hothers s
  obtain ⟨u, w, hshows⟩ := hstart.after calls hcalls hsmall
  exact ⟨u, hshows.tree_eq, fun mask hmask => hshows.finds hmask⟩

/-- Two searchers: one is told of the path that forks and of the new one, which it lets go before that
ends; the other one tracks nothing. -/
theorem select_after_fork_and_end :
    let hash : Digest.Hash := fun _ => ⟨List.replicate 32 0, rfl⟩
    let pool : Pool := ⟨#[some (.fresh ⟨1⟩), some (.fresh ⟨2⟩)]⟩
    let x := create hash Storage.memory Config.default true default ⟨0⟩ pool .empty
    let calls :=
      [.call .claimMask, .call .claimMask, .retrack 1 [⟨0, 0⟩] [],
        .call (.attach ⟨0, 0⟩ ⟨1⟩ ⟨0⟩ .conditional), .retrack 1 [⟨1, 0⟩] [], .retrack 1 [] [⟨1, 0⟩],
        .call (.remove ⟨1, 0⟩)]
    let y := x.after hash Storage.memory calls
    pool.isAlive ⟨0⟩ = true ∧ (∀ r, r ≠ ⟨0⟩ → pool.leafOf? r = none) ∧
      x.Admits hash Storage.memory calls ∧ y.session.slots ≤ UInt32.size ∧
      ∃ t, y.session.tracker.tree? = some t ∧
        ∀ mask ∈ Mask.all, t.Finds y.session.pool mask (y.tracked mask) := by
  intro hash pool x calls y
  have hothers : ∀ r, r ≠ ⟨0⟩ → pool.leafOf? r = none := fun r _ =>
    Pool.leafOf?_of_all (by decide) r
  have hcalls : x.Admits hash Storage.memory calls :=
    ⟨⟨trivial, trivial⟩, ⟨trivial, trivial⟩, ⟨by decide, by decide⟩, ⟨⟨by decide, by decide⟩, trivial⟩,
      ⟨by decide, by decide⟩, ⟨by decide, by decide⟩, ⟨trivial, by decide⟩, trivial⟩
  have hsmall : y.session.slots ≤ UInt32.size := by decide
  exact ⟨rfl, hothers, hcalls, hsmall, select_after hash Storage.memory Config.default true default ⟨0⟩
    pool .empty calls (.inr rfl) rfl hothers hcalls hsmall⟩

end Search

end ForkTree
