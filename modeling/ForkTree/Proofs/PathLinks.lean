import ForkTree.Proofs.Compression

/-!
The two ends of a link. A leaf bookmarks its path, and the path knows the leaf that it is at; both are
written at different places, and keys come up again. `Shape.IsLinked` says that the two agree: a path at
a leaf that is still kept knows this leaf, no two leaves share a path, and a path that knows a leaf is at
it. Forks, ends and what an engine does with its paths by itself keep that (`IsLinked.growAt`,
`IsLinked.removed`, `IsLinked.evolves`), so the frontier of a session and its paths stay linked
(`Session.linked_after`).
-/

namespace ForkTree

open Shape

namespace Pool

/-- What an engine does with its paths by itself: it lets some of them go, for good, and keeps the
others where they are, while new ones are at no leaf. -/
structure Evolves (p q : Pool) : Prop where
  size_le : p.places.size ≤ q.places.size
  isAlive_of_lt : ∀ r, q.isAlive r = true → r.index < p.places.size → p.isAlive r = true
  leafOf?_eq : ∀ r, q.isAlive r = true → q.leafOf? r = p.leafOf? r

lemma index_lt_of_isAlive {p : Pool} {r : PathRef} (h : p.isAlive r = true) : r.index < p.places.size := by
  rw [isAlive, get?] at h
  by_contra hge
  rw [Array.getElem?_eq_none (Nat.le_of_not_lt hge)] at h
  cases h

/-- Paths that are at no leaf, whichever is asked for. -/
lemma leafOf?_of_all {p : Pool} (h : ∀ place ∈ p.places.toList, place.all (·.node.isNone) = true) (r : PathRef) :
    p.leafOf? r = none := by
  rw [leafOf?, get?]
  cases hplace : p.places[r.index]? with
  | none => rfl
  | some place =>
    have hnone := h place (Array.mem_toList_iff.2 (Array.mem_of_getElem? hplace))
    cases place with
    | none => rfl
    | some s => simpa using hnone

lemma leafOf?_setNode (p : Pool) (r q : PathRef) (node : Option NodeKey) :
    (p.setNode r node).leafOf? q = if q = r ∧ p.isAlive r = true then node else p.leafOf? q := by
  by_cases hq : q = r
  · subst hq
    cases halive : p.isAlive q with
    | true => rw [leafOf?_setNode_self halive, if_pos ⟨rfl, rfl⟩]
    | false =>
      have hnone : p.get? q = none := by simpa [isAlive] using halive
      rw [leafOf?, setNode, get?_modify, if_pos rfl, hnone, leafOf?, hnone]
      simp
  · rw [leafOf?_setNode_of_ne hq, if_neg fun h => hq h.1]

@[simp]
lemma size_setNode (p : Pool) (r : PathRef) (node : Option NodeKey) :
    (p.setNode r node).places.size = p.places.size := by
  simp [setNode, modify]

lemma evolves_drop (p : Pool) (r : PathRef) : p.Evolves (p.drop r) := by
  have hkept : ∀ q, (p.drop r).isAlive q = true → (p.drop r).get? q = p.get? q := by
    intro q hq
    rw [get?_drop]
    split
    · next e =>
      rw [isAlive, get?_drop, if_pos e] at hq
      cases hq
    · rfl
  refine ⟨by simp [drop], fun q hq _ => ?_, fun q hq => ?_⟩
  · rwa [isAlive, hkept q hq] at hq
  · rw [leafOf?, hkept q hq, leafOf?]

lemma evolves_add (p : Pool) {s : PathState} (h : s.node = none) : p.Evolves (p.add s).2 := by
  refine ⟨by simp [add], fun q hq hlt => ?_, fun q _ => ?_⟩
  · have hne : q ≠ (p.add s).1 := fun e => Nat.lt_irrefl _ (by rwa [e] at hlt)
    rwa [isAlive, get?_add, if_neg hne] at hq
  · rw [leafOf?, get?_add]
    split
    · next e => rw [leafOf?, e, get?_add_fst, Option.bind_some, h, Option.bind_none]
    · rfl

lemma evolves_modify (p : Pool) (r : PathRef) (s : PathState) :
    p.Evolves (p.modify r fun q => { s with node := q.node }) := by
  refine ⟨by simp [modify], fun q hq _ => ?_, fun q _ => leafOf?_modify p r q s⟩
  rwa [isAlive_modify] at hq

end Pool

namespace Tree

lemma leafOf?_release (pool : Pool) (key : NodeKey) (path q : PathRef) :
    (release pool .none key path).leafOf? q =
      if q = path ∧ pool.leafOf? path = some key then none else pool.leafOf? q := by
  unfold release
  cases hs : pool.get? path with
  | none => simp [Pool.leafOf?, hs]
  | some s =>
    have halive : pool.isAlive path = true := by rw [Pool.isAlive, hs]; rfl
    have hleaf : pool.leafOf? path = s.node := by rw [Pool.leafOf?, hs]; rfl
    by_cases hnode : s.node = some key
    · simp [Uses.none, hnode, Pool.leafOf?_setNode, halive, hleaf]
    · simp [hnode, hleaf]

lemma isAlive_release (pool : Pool) (key : NodeKey) (path q : PathRef) :
    (release pool .none key path).isAlive q = pool.isAlive q := by
  unfold release
  split
  · split
    · exact Pool.isAlive_setNode _ _ _ _
    · rfl
  · rfl

lemma size_release (pool : Pool) (key : NodeKey) (path : PathRef) :
    (release pool .none key path).places.size = pool.places.size := by
  unfold release
  split
  · split
    · exact Pool.size_setNode _ _ _
    · rfl
  · rfl

end Tree

/-- The leaves and the paths at them know each other. -/
structure Shape.IsLinked (s : Shape Cell) (pool : Pool) : Prop where
  told : ∀ c ∈ s.leaves, ∀ path, c.bookmark = some path → pool.isAlive path = true →
    pool.leafOf? path = some c.key
  distinct : ∀ c ∈ s.leaves, ∀ d ∈ s.leaves, ∀ path, c.bookmark = some path → d.bookmark = some path →
    c.key = d.key
  held : ∀ path key, pool.leafOf? path = some key → ∃ c ∈ s.leaves, c.key = key ∧ c.bookmark = some path
  /-- New paths are none of those at the leaves, even if these were let go. -/
  known : ∀ c ∈ s.leaves, ∀ path, c.bookmark = some path → path.index < pool.places.size

namespace Shape.IsLinked

variable {s s' : Shape Cell} {pool pool' : Pool} {c : Cell} {path : PathRef}

lemma bookmark_eq (h : s.IsLinked pool) (hnodup : s.keys.Nodup) (hc : c ∈ s.leaves)
    (hpath : pool.leafOf? path = some c.key) : c.bookmark = some path := by
  obtain ⟨d, hd, hkey, hbookmark⟩ := h.held path c.key hpath
  rwa [← eq_of_key_eq hnodup (leaves_subset_preorder s hd) (leaves_subset_preorder s hc) hkey]

/-- A path that is kept and at no leaf is not bookmarked. -/
lemma bookmark_ne (h : s.IsLinked pool) (hc : c ∈ s.leaves) (halive : pool.isAlive path = true)
    (hnone : pool.leafOf? path = none) : c.bookmark ≠ some path := by
  intro hbookmark
  rw [h.told c hc path hbookmark halive] at hnone
  cases hnone

lemma congr (h : s.IsLinked pool)
    (hnew : ∀ d ∈ s'.leaves, ∃ c ∈ s.leaves, c.key = d.key ∧ c.bookmark = d.bookmark)
    (hold : ∀ c ∈ s.leaves, ∃ d ∈ s'.leaves, d.key = c.key ∧ d.bookmark = c.bookmark) :
    s'.IsLinked pool where
  told d hd path hpath := by
    obtain ⟨c, hc, hkey, hbookmark⟩ := hnew d hd
    rw [← hkey]
    exact h.told c hc path (hbookmark.trans hpath)
  distinct d hd d' hd' path hpath hpath' := by
    obtain ⟨c, hc, hkey, hbookmark⟩ := hnew d hd
    obtain ⟨c', hc', hkey', hbookmark'⟩ := hnew d' hd'
    rw [← hkey, ← hkey']
    exact h.distinct c hc c' hc' path (hbookmark.trans hpath) (hbookmark'.trans hpath')
  held path key hpath := by
    obtain ⟨c, hc, hkey, hbookmark⟩ := h.held path key hpath
    obtain ⟨d, hd, hkey', hbookmark'⟩ := hold c hc
    exact ⟨d, hd, hkey'.trans hkey, hbookmark'.trans hbookmark⟩
  known d hd path hpath := by
    obtain ⟨c, hc, _, hbookmark⟩ := hnew d hd
    exact h.known c hc path (hbookmark.trans hpath)

lemma editAt (h : s.IsLinked pool) (key : NodeKey) (kind : TerminationKind) :
    (s.editAt key (·.withKind kind)).IsLinked pool := by
  have hsame : ∀ c : Cell, (if c.key = key then c.withKind kind else c).key = c.key ∧
      (if c.key = key then c.withKind kind else c).bookmark = c.bookmark := fun c => by
    split <;> exact ⟨rfl, rfl⟩
  refine h.congr (fun d hd => ?_) fun c hc => ?_
  · rw [Shape.editAt, leaves_map, List.mem_map] at hd
    obtain ⟨c, hc, rfl⟩ := hd
    exact ⟨c, hc, (hsame c).1.symm, (hsame c).2.symm⟩
  · rw [Shape.editAt, leaves_map]
    exact ⟨_, List.mem_map_of_mem hc, hsame c⟩

lemma evolves (h : s.IsLinked pool) (hpool : pool.Evolves pool') : s.IsLinked pool' where
  told c hc path hpath halive := by
    rw [hpool.leafOf?_eq path halive]
    exact h.told c hc path hpath (hpool.isAlive_of_lt path halive (h.known c hc path hpath))
  distinct := h.distinct
  held path key hpath := by
    rw [hpool.leafOf?_eq path (Pool.isAlive_of_leafOf? hpath)] at hpath
    exact h.held path key hpath
  known c hc path hpath := Nat.lt_of_lt_of_le (h.known c hc path hpath) hpool.size_le

/-- A leaf forks. Its path goes on to the right and a path that is at no leaf goes left. -/
lemma growAt (h : s.IsLinked pool) (hnodup : s.keys.Nodup) (hc : c ∈ s.leaves) {left right : PathRef}
    (hright : pool.leafOf? right = some c.key) (hleft : pool.isAlive left = true)
    (hnone : pool.leafOf? left = none) (reason : BranchReason) (line : UInt64) (l r : NodeKey)
    (noteL noteR : Option Note) :
    (s.growAt c.key (c.fork reason line ⟨l, 0, some left, noteL⟩ ⟨r, 0, some right, noteR⟩)).IsLinked
      ((pool.setNode left (some l)).setNode right (some r)) := by
  have hne : left ≠ right := by
    rintro rfl
    rw [hnone] at hright
    cases hright
  have halive : (pool.setNode left (some l)).isAlive right = true := by
    rw [Pool.isAlive_setNode]
    exact Pool.isAlive_of_leafOf? hright
  have hpath := h.bookmark_eq hnodup hc hright
  have hleaf : ∀ q, ((pool.setNode left (some l)).setNode right (some r)).leafOf? q =
      if q = right then some r else if q = left then some l else pool.leafOf? q := by
    intro q
    rw [Pool.leafOf?_setNode, Pool.leafOf?_setNode, halive, hleft]
    simp
  -- Which leaf a path is at after the fork.
  have hwhere : ∀ d ∈ (s.growAt c.key (c.fork reason line ⟨l, 0, some left, noteL⟩
      ⟨r, 0, some right, noteR⟩)).leaves, ∀ q, d.bookmark = some q →
        q = left ∧ d.key = l ∨ q = right ∧ d.key = r ∨ (q ≠ left ∧ q ≠ right) ∧ d ∈ s.leaves := by
    intro d hd q hq
    rw [mem_leaves_growAt hc] at hd
    rcases hd with rfl | rfl | ⟨hd, hkey⟩
    · exact .inl ⟨(Option.some.inj hq).symm, rfl⟩
    · exact .inr (.inl ⟨(Option.some.inj hq).symm, rfl⟩)
    · refine .inr (.inr ⟨⟨?_, ?_⟩, hd⟩)
      · rintro rfl
        exact h.bookmark_ne hd hleft hnone hq
      · rintro rfl
        exact hkey (h.distinct d hd c hc q hq hpath)
  refine ⟨fun d hd q hq hkept => ?_, fun d hd d' hd' q hq hq' => ?_, fun q key hq => ?_, fun d hd q hq => ?_⟩
  · rw [hleaf]
    rcases hwhere d hd q hq with ⟨rfl, rfl⟩ | ⟨rfl, rfl⟩ | ⟨⟨hql, hqr⟩, hd⟩
    · rw [if_neg hne, if_pos rfl]
    · rw [if_pos rfl]
    · rw [if_neg hqr, if_neg hql]
      exact h.told d hd q hq (by simpa only [Pool.isAlive_setNode] using hkept)
  · rcases hwhere d hd q hq with ⟨rfl, rfl⟩ | ⟨rfl, rfl⟩ | ⟨⟨hql, hqr⟩, hd⟩ <;>
      rcases hwhere d' hd' q hq' with ⟨e, hkey⟩ | ⟨e, hkey⟩ | ⟨⟨hql', hqr'⟩, hd'⟩
    · exact hkey.symm
    · exact absurd e hne
    · exact absurd rfl hql'
    · exact absurd e.symm hne
    · exact hkey.symm
    · exact absurd rfl hqr'
    · exact absurd e hql
    · exact absurd e hqr
    · exact h.distinct d hd d' hd' q hq hq'
  · simp only [mem_leaves_growAt hc]
    rw [hleaf] at hq
    split at hq
    · next e => exact ⟨_, .inr (.inl rfl), Option.some.inj hq, by rw [e]⟩
    · next hqr =>
      split at hq
      · next e => exact ⟨_, .inl rfl, Option.some.inj hq, by rw [e]⟩
      · obtain ⟨d, hd, hkey, hbookmark⟩ := h.held q key hq
        refine ⟨d, .inr (.inr ⟨hd, fun e => hqr ?_⟩), hkey, hbookmark⟩
        rw [← hkey, e] at hq
        exact Option.some.inj ((h.bookmark_eq hnodup hc hq).symm.trans hpath)
  · rw [Pool.size_setNode, Pool.size_setNode]
    rcases hwhere d hd q hq with ⟨rfl, _⟩ | ⟨rfl, _⟩ | ⟨_, hd⟩
    · exact Pool.index_lt_of_isAlive hleft
    · exact Pool.index_lt_of_isAlive (Pool.isAlive_of_leafOf? hright)
    · exact h.known d hd q hq

lemma removed (h : s.IsLinked pool) (hnodup : s.keys.Nodup) (hc : c ∈ s.leaves)
    (hpath : c.bookmark = some path) (compress : Bool) :
    (s.removed compress c.key).IsLinked (Tree.release pool .none c.key path) := by
  have hmem : ∀ d, d ∈ (s.removed compress c.key).leaves ↔ d ∈ s.leaves ∧ d.key ≠ c.key := by
    intro d
    rw [leaves_removed, List.mem_filter, decide_eq_true_eq]
  have hne : ∀ d ∈ s.leaves, d.key ≠ c.key → ∀ q, d.bookmark = some q → q ≠ path := by
    rintro d hd hkey q hq rfl
    exact hkey (h.distinct d hd c hc q hq hpath)
  refine ⟨fun d hd q hq hkept => ?_, fun d hd d' hd' q hq hq' => ?_, fun q key hq => ?_, fun d hd q hq => ?_⟩
  · obtain ⟨hd, hkey⟩ := (hmem d).1 hd
    rw [Tree.leafOf?_release, if_neg fun e => hne d hd hkey q hq e.1]
    exact h.told d hd q hq (by rwa [Tree.isAlive_release] at hkept)
  · exact h.distinct d ((hmem d).1 hd).1 d' ((hmem d').1 hd').1 q hq hq'
  · rw [Tree.leafOf?_release] at hq
    split at hq
    · cases hq
    · next hnot =>
      obtain ⟨d, hd, hkey, hbookmark⟩ := h.held q key hq
      refine ⟨d, (hmem d).2 ⟨hd, fun e => hnot ?_⟩, hkey, hbookmark⟩
      rw [← hkey, e] at hq
      have hsame := (h.bookmark_eq hnodup hc hq).symm.trans hpath
      rw [← Option.some.inj hsame]
      exact ⟨rfl, hq⟩
  · rw [Tree.size_release]
    exact h.known d ((hmem d).1 hd).1 q hq

end Shape.IsLinked

/-! ### Sessions -/

/-- The nodes of a tree and the paths are linked: only leaves bookmark paths, and they and their paths
know each other. -/
structure Tree.IsLinked (t : Tree) (pool : Pool) : Prop where
  bookmarked : ∀ key n, t.node? key = some n → n.bookmark.isSome = n.isLeaf
  told : ∀ key n path, t.node? key = some n → n.bookmark = some path → pool.isAlive path = true →
    pool.leafOf? path = some key
  distinct : ∀ key key' n n' path, t.node? key = some n → t.node? key' = some n' →
    n.bookmark = some path → n'.bookmark = some path → key = key'
  held : ∀ path key, pool.leafOf? path = some key → ∃ n, t.node? key = some n ∧ n.bookmark = some path

namespace Session

variable {σ : Type} {hash : Digest.Hash} {storage : Storage σ}

/-- What an engine keeps to: a path that joins the tree is kept and at no leaf, and only the tree moves
paths to leaves. -/
def Call.Admits (x : Session σ) : Call → Prop
  | attach _ left _ _ => x.pool.isAlive left = true ∧ x.pool.leafOf? left = none
  | engine pool => x.pool.Evolves pool
  | _ => True

/-- Each call is admissible when it is made. -/
def Admits (hash : Digest.Hash) (storage : Storage σ) : Session σ → List Call → Prop
  | _, [] => True
  | x, call :: rest => call.Admits x ∧ Admits hash storage (x.step hash storage .none call).2 rest

lemma admits_append {x : Session σ} {before rest : List Call} :
    x.Admits hash storage (before ++ rest) ↔
      x.Admits hash storage before ∧ (x.after hash storage before).Admits hash storage rest := by
  induction before generalizing x with
  | nil => exact ⟨fun h => ⟨trivial, h⟩, fun h => h.2⟩
  | cons call before ih =>
    simp only [List.cons_append, Admits, ih, and_assoc]
    rfl

/-- A session keeps a tree with the given cells, which are linked to its paths. -/
structure Links (x : Session σ) (t : Tree) (s : Shape Cell) : Prop where
  tree_eq : x.tracker.tree? = some t
  shows : t.Shows s
  linked : s.IsLinked x.pool

section

variable {x : Session σ} {t : Tree} {s : Shape Cell} {c : Cell}

/-- Only leaves bookmark paths. -/
lemma Links.exists_leaf_of_bookmark (h : x.Links t s) {key : NodeKey} {n : Node} {path : PathRef}
    (live : t.node? key = some n) (hpath : n.bookmark = some path) :
    ∃ c ∈ s.leaves, c.key = key ∧ c.bookmark = some path ∧ c.note = n.note := by
  obtain ⟨nodes, _, hnodes⟩ := h.shows.holds
  have hn := hnodes.bookmarked _ (hnodes.complete key n live)
  simp only [hpath, Option.isSome_some] at hn
  obtain ⟨c, hc, rfl⟩ := h.shows.exists_leaf live hn.symm
  obtain ⟨m, hlive, _, hbookmark, hnote⟩ := h.shows.reads.node?_of_mem_leaves hc
  rw [live] at hlive
  cases hlive
  exact ⟨c, hc, rfl, hbookmark.symm.trans hpath, hnote.symm⟩

theorem Links.isLinked (h : x.Links t s) : t.IsLinked x.pool := by
  obtain ⟨nodes, _, hnodes⟩ := h.shows.holds
  refine ⟨fun key n live => hnodes.bookmarked _ (hnodes.complete key n live),
    fun key n path live hpath => ?_, fun key key' n n' path live live' hpath hpath' => ?_,
    fun path key hpath => ?_⟩
  · obtain ⟨c, hc, rfl, hbookmark, _⟩ := h.exists_leaf_of_bookmark live hpath
    exact h.linked.told c hc path hbookmark
  · obtain ⟨c, hc, rfl, hbookmark, _⟩ := h.exists_leaf_of_bookmark live hpath
    obtain ⟨d, hd, rfl, hbookmark', _⟩ := h.exists_leaf_of_bookmark live' hpath'
    exact h.linked.distinct c hc d hd path hbookmark hbookmark'
  · obtain ⟨c, hc, rfl, hbookmark⟩ := h.linked.held path key hpath
    obtain ⟨n, live, _, hn, _⟩ := h.shows.reads.node?_of_mem_leaves hc
    exact ⟨n, live, hn.trans hbookmark⟩

/-- After a call the session keeps what the call makes of the live tree. -/
lemma Links.of_onTree (h : x.Links t s) (call : Call) {result : Except Tree.Fault Unit} {u : Tree}
    {pool : Pool} {s' : Shape Cell} (houtcome : call.onTree .none t x.pool = ⟨result, u, pool⟩)
    (hu : u.Shows s') (hlinked : s'.IsLinked pool) :
    (x.step hash storage .none call).1 = result ∧ (x.step hash storage .none call).2.pool = pool ∧
      (x.step hash storage .none call).2.Links u s' := by
  obtain ⟨hresult, htree, hpool⟩ := step_onTree hash storage .none h.tree_eq call
  rw [houtcome] at hresult htree hpool
  exact ⟨hresult, hpool, htree, hu, hpool ▸ hlinked⟩

lemma Links.eq_onTree (h : x.Links t s) {call : Call} {u : Tree} {s' : Shape Cell}
    (hu : (x.step hash storage .none call).2.Links u s') : u = (call.onTree .none t x.pool).tree := by
  obtain ⟨_, hstep, _⟩ := step_onTree hash storage .none h.tree_eq call
  exact Option.some.inj (hu.tree_eq.symm.trans hstep)

lemma Links.attach (h : x.Links t s) (hc : c ∈ s.leaves) {left right : PathRef}
    (hright : x.pool.leafOf? right = some c.key) (hleft : x.pool.isAlive left = true)
    (hnone : x.pool.leafOf? left = none) (reason : BranchReason)
    (hsmall : (x.step hash storage .none (.attach c.key left right reason)).2.slots ≤ UInt32.size) :
    ∃ l r u, (x.step hash storage .none (.attach c.key left right reason)).2.pool =
        (x.pool.setNode left (some l)).setNode right (some r) ∧
      (x.step hash storage .none (.attach c.key left right reason)).2.Links u
        (s.growAt c.key (c.fork reason (x.pool.lineOf right) ⟨l, 0, some left, t.noteAfter 0⟩
          ⟨r, 0, some right, t.noteAfter 1⟩)) := by
  obtain ⟨_, hstep, _⟩ := step_onTree hash storage .none h.tree_eq (.attach c.key left right reason)
  rw [slots_eq hstep] at hsmall
  obtain ⟨l, r, u, heq, hu⟩ := h.shows.attach hc hright left reason hsmall
  have houtcome : (Call.attach c.key left right reason).onTree .none t x.pool =
      ⟨.ok (), u, (x.pool.setNode left (some l)).setNode right (some r)⟩ := by
    rw [Call.onTree, heq]
    rfl
  exact ⟨l, r, u, (h.of_onTree _ houtcome hu.shows
    (h.linked.growAt h.shows.nodup hc hright hleft hnone _ _ _ _ _ _)).2⟩

lemma Links.remove (h : x.Links t s) (hc : c ∈ s.leaves) {path : PathRef}
    (hpath : c.bookmark = some path) (hash : Digest.Hash) (storage : Storage σ) :
    ∃ u, (x.step hash storage .none (.remove c.key)).1 = .ok () ∧
      (x.step hash storage .none (.remove c.key)).2.pool = Tree.release x.pool .none c.key path ∧
      (x.step hash storage .none (.remove c.key)).2.Links u (s.removed t.compress c.key) := by
  obtain ⟨u, heq, hu, _⟩ := h.shows.remove hc hpath x.pool
  have houtcome : (Call.remove c.key).onTree .none t x.pool =
      ⟨.ok (), u, Tree.release x.pool .none c.key path⟩ := by
    rw [Call.onTree, heq]
    rfl
  exact ⟨u, h.of_onTree _ houtcome hu (h.linked.removed h.shows.nodup hc hpath t.compress)⟩

lemma Links.setKind (h : x.Links t s) (path : PathState) (kind : TerminationKind) :
    (x.step hash storage .none (.setKind path kind)).2.Links (t.setKind path kind)
      (path.node.elim s fun key => s.editAt key (·.withKind kind)) := by
  obtain ⟨hu, _⟩ := h.shows.setKind path kind
  refine (h.of_onTree (.setKind path kind) rfl hu ?_).2.2
  cases path.node with
  | none => exact h.linked
  | some key => exact h.linked.editAt key kind

lemma Links.engine (h : x.Links t s) {pool : Pool} (hpool : x.pool.Evolves pool) :
    (x.step hash storage .none (.engine pool)).2.Links t s :=
  (h.of_onTree (.engine pool) rfl h.shows (h.linked.evolves hpool)).2.2

/-- Any call that is admissible keeps the links, also if it is refused. -/
theorem Links.step (h : x.Links t s) {call : Call} (hcall : call.Admits x)
    (hsmall : (x.step hash storage .none call).2.slots ≤ UInt32.size) :
    ∃ u s', (x.step hash storage .none call).2.Links u s' := by
  cases hrefused : call.refusal? t x.pool with
  | some fault => exact ⟨t, s, (h.of_onTree call (Tree.onTree_refused hrefused) h.shows h.linked).2.2⟩
  | none =>
    cases call with
    | attach key left right reason =>
      obtain ⟨n, live, hleaf, hright⟩ := Tree.attachRefusal?_eq_none hrefused
      obtain ⟨c, hc, rfl⟩ := h.shows.exists_leaf live hleaf
      obtain ⟨l, r, u, _, hlinks⟩ := h.attach hc hright hcall.1 hcall.2 reason hsmall
      exact ⟨u, _, hlinks⟩
    | remove key =>
      obtain ⟨n, live, hleaf⟩ := Tree.removeRefusal?_eq_none hrefused
      obtain ⟨c, hc, rfl⟩ := h.shows.exists_leaf live hleaf
      obtain ⟨path, hpath⟩ := Option.isSome_iff_exists.1 (h.shows.bookmarked.of_mem_leaves hc)
      obtain ⟨u, _, _, hlinks⟩ := h.remove hc hpath hash storage
      exact ⟨u, _, hlinks⟩
    | setKind path kind => exact ⟨_, _, h.setKind path kind⟩
    | engine pool => exact ⟨t, s, h.engine hcall⟩
    | claimMask => exact ⟨_, s, (h.of_onTree .claimMask rfl (h.shows.congr rfl rfl rfl) h.linked).2.2⟩
    | commit => exact ⟨t, s, (h.of_onTree .commit rfl h.shows h.linked).2.2⟩
    | dump exporter => exact ⟨t, s, (h.of_onTree (.dump exporter) rfl h.shows h.linked).2.2⟩

theorem Links.after (h : x.Links t s) (calls : List Call) (hcalls : x.Admits hash storage calls)
    (hsmall : (x.after hash storage calls).slots ≤ UInt32.size) :
    ∃ u s', (x.after hash storage calls).Links u s' := by
  induction calls generalizing x t s with
  | nil => exact ⟨t, s, h⟩
  | cons call calls ih =>
    obtain ⟨hcall, hrest⟩ := hcalls
    obtain ⟨_, htree, _⟩ := step_onTree hash storage .none h.tree_eq call
    obtain ⟨u, s', hlinks⟩ := h.step hcall (Nat.le_trans (slots_le_after hash storage htree calls) hsmall)
    exact ih hlinks hrest hsmall

end

/-- At the start the path at the only leaf is the only one that is at a leaf. -/
lemma exists_links_create (hash : Digest.Hash) (storage : Storage σ) (config : Config) {inMemory : Bool}
    (hkept : config.persist = true ∨ inMemory = true) (run : RunId) {path : PathRef} {pool : Pool}
    (hpath : pool.isAlive path = true) (hothers : ∀ r, r ≠ path → pool.leafOf? r = none) (s : σ) :
    ∃ t key note, (create hash storage config inMemory run path pool s).Links t
        (leaf ⟨key, 0, some path, note⟩) ∧
      (create hash storage config inMemory run path pool s).pool = pool.setNode path (some key) := by
  obtain ⟨htree, hpool⟩ := create_start hash storage config hkept run path pool s
  obtain ⟨key, hset, hshows⟩ := Tree.shows_start path config.compress config.persist pool
  rw [hset] at hpool
  refine ⟨_, key, _, ⟨htree, hshows, ?_⟩, hpool⟩
  rw [hpool]
  refine ⟨fun c hc r hr _ => ?_, fun c hc d hd r _ _ => ?_, fun r k hr => ?_, fun c hc r hr => ?_⟩
  · rw [leaves_leaf, List.mem_singleton] at hc
    subst hc
    cases hr
    exact Pool.leafOf?_setNode_self hpath _
  · rw [leaves_leaf, List.mem_singleton] at hc hd
    rw [hc, hd]
  · rw [leaves_leaf]
    refine ⟨_, List.mem_singleton.2 rfl, ?_⟩
    rw [Pool.leafOf?_setNode] at hr
    split at hr
    · next e => exact ⟨Option.some.inj hr, by rw [e.1]⟩
    · next hne =>
      rw [hothers r fun e => hne ⟨e, hpath⟩] at hr
      cases hr
  · rw [leaves_leaf, List.mem_singleton] at hc
    subst hc
    cases hr
    rw [Pool.size_setNode]
    exact Pool.index_lt_of_isAlive hpath

/-- The paths on the frontier and the leaves are linked after any calls in which paths join the tree from
nowhere else in it; the engine may let any of them go between two calls. So a fork or an end at the leaf
that a path knows is never refused, and a path that ended is at no leaf. The bound is the number of slot
numbers. -/
theorem linked_after (hash : Digest.Hash) (storage : Storage σ) (config : Config) (inMemory : Bool)
    (run : RunId) (path : PathRef) (pool : Pool) (s : σ) (calls : List Call)
    (hkept : config.persist = true ∨ inMemory = true) (hpath : pool.isAlive path = true)
    (hothers : ∀ r, r ≠ path → pool.leafOf? r = none) :
    let x := create hash storage config inMemory run path pool s
    let y := x.after hash storage calls
    x.Admits hash storage calls → y.slots ≤ UInt32.size →
      (∃ t, y.tracker.tree? = some t ∧ t.IsLinked y.pool) ∧
      ∀ r key, y.pool.leafOf? r = some key →
        (∀ left reason, (y.step hash storage .none (.attach key left r reason)).1 = .ok ()) ∧
        (y.step hash storage .none (.remove key)).1 = .ok () ∧
        (y.step hash storage .none (.remove key)).2.pool.isAlive r = true ∧
        (y.step hash storage .none (.remove key)).2.pool.leafOf? r = none := by
  intro x y hcalls hsmall
  obtain ⟨t, key, note, hstart, _⟩ := exists_links_create hash storage config hkept run hpath hothers s
  obtain ⟨u, v, hlinks⟩ := hstart.after calls hcalls hsmall
  refine ⟨⟨u, hlinks.tree_eq, hlinks.isLinked⟩, fun r key hr => ?_⟩
  obtain ⟨d, hd, rfl, hbookmark⟩ := hlinks.linked.held r key hr
  refine ⟨fun left reason => ?_, ?_⟩
  · obtain ⟨hresult, _⟩ := step_onTree hash storage .none hlinks.tree_eq (.attach d.key left r reason)
    rw [hresult, Call.onTree, Tree.attach_eq (hlinks.shows.attachRefusal?_eq hd hr)]
    rfl
  · obtain ⟨_, hok, hpool, _⟩ := hlinks.remove hd hbookmark hash storage
    rw [hpool, Tree.isAlive_release, Tree.leafOf?_release, if_pos ⟨rfl, hr⟩]
    exact ⟨hok, Pool.isAlive_of_leafOf? hr, rfl⟩

/-- The engine lets the path go that a fork brought in, which then ends, and forks again. -/
theorem linked_after_drop :
    let hash : Digest.Hash := fun _ => ⟨List.replicate 32 0, rfl⟩
    let pool : Pool := ⟨#[some (.fresh ⟨1⟩), some (.fresh ⟨2⟩), some (.fresh ⟨3⟩)]⟩
    let x := create hash Storage.memory Config.default true default ⟨0⟩ pool .empty
    let fork := Call.attach ⟨0, 0⟩ ⟨1⟩ ⟨0⟩ .conditional
    let forked := (x.step hash Storage.memory .none fork).2.pool
    let calls :=
      [fork, .engine (forked.drop ⟨1⟩), .remove ⟨1, 0⟩, .attach ⟨2, 0⟩ ⟨2⟩ ⟨0⟩ .switch]
    let y := x.after hash Storage.memory calls
    pool.isAlive ⟨0⟩ = true ∧ (∀ r, r ≠ ⟨0⟩ → pool.leafOf? r = none) ∧
      x.Admits hash Storage.memory calls ∧ y.slots ≤ UInt32.size ∧
      ∃ t, y.tracker.tree? = some t ∧ t.IsLinked y.pool := by
  intro hash pool x fork forked calls y
  have hothers : ∀ r, r ≠ ⟨0⟩ → pool.leafOf? r = none := fun r _ =>
    Pool.leafOf?_of_all (by decide) r
  have hcalls : x.Admits hash Storage.memory calls :=
    ⟨⟨by decide, by decide⟩, Pool.evolves_drop _ _, trivial, ⟨by decide, by decide⟩, trivial⟩
  have hsmall : y.slots ≤ UInt32.size := by decide
  exact ⟨rfl, hothers, hcalls, hsmall, (linked_after hash Storage.memory Config.default true default ⟨0⟩
    pool .empty calls (.inr rfl) rfl hothers hcalls hsmall).1⟩

end Session

end ForkTree
