import ForkTree.Proofs.SessionLog

/-!
Sessions without keys. An engine that keeps its paths addresses the tree by them: it forks a path,
ends it, notes why it is about to end, or goes on with it. A portrait is what a session looks like when
keys and marks are forgotten, and it moves by itself. `Session.Shows` says that a session keeps a tree
in which every leaf is where its path is; then the session does what its portrait does
(`Shows.move`), which makes sessions with different keys comparable.
-/

namespace ForkTree

open Shape

namespace Pool

def leafOf? (p : Pool) (r : PathRef) : Option NodeKey := (p.get? r).bind PathState.node

/-- The same paths, at no leaf. -/
def unplaced (p : Pool) : Pool := ⟨p.places.map (Option.map ({ · with node := none }))⟩

lemma get?_unplaced (p : Pool) (r : PathRef) :
    p.unplaced.get? r = (p.get? r).map ({ · with node := none }) := by
  simp only [get?, unplaced, Array.getElem?_map]
  cases p.places[r.index]? <;> rfl

lemma get?_add (p : Pool) (s : PathState) (r : PathRef) :
    (p.add s).2.get? r = if r = (p.add s).1 then some s else p.get? r := by
  obtain ⟨r⟩ := r
  simp only [get?, add, PathRef.mk.injEq, Array.getElem?_push]
  split <;> rfl

/-- A new reference was dead before. -/
lemma get?_add_fst (p : Pool) (s : PathState) : p.get? (p.add s).1 = none := by
  simp [get?, add]

lemma unplaced_setNode (p : Pool) (r : PathRef) (node : Option NodeKey) :
    (p.setNode r node).unplaced = p.unplaced := by
  simp only [unplaced, setNode, modify, mk.injEq]
  apply Array.ext_getElem?
  intro i
  simp only [Array.getElem?_map, Array.getElem?_modify]
  split
  · cases p.places[i]? with
    | none => rfl
    | some place => cases place <;> rfl
  · rfl

lemma unplaced_add (p : Pool) (s : PathState) :
    (p.add s).2.unplaced = (p.unplaced.add { s with node := none }).2 := by
  simp [unplaced, add]

lemma lineOf_unplaced (p : Pool) (r : PathRef) : p.unplaced.lineOf r = p.lineOf r := by
  rw [lineOf, get?_unplaced, lineOf]
  cases p.get? r <;> rfl

lemma leafOf?_setNode_self {p : Pool} {r : PathRef} (h : p.isAlive r = true) (node : Option NodeKey) :
    (p.setNode r node).leafOf? r = node := by
  obtain ⟨s, hs⟩ := Option.isSome_iff_exists.1 h
  rw [leafOf?, setNode, get?_modify, if_pos rfl, hs]
  rfl

lemma leafOf?_setNode_of_ne {p : Pool} {r q : PathRef} (h : q ≠ r) (node : Option NodeKey) :
    (p.setNode r node).leafOf? q = p.leafOf? q := by
  rw [leafOf?, setNode, get?_modify, if_neg h, leafOf?]

lemma isAlive_modify (p : Pool) (r q : PathRef) (change : PathState → PathState) :
    (p.modify r change).isAlive q = p.isAlive q := by
  rw [isAlive, get?_modify]
  split
  · rw [Option.isSome_map, isAlive]
  · rfl

lemma isAlive_setNode (p : Pool) (r q : PathRef) (node : Option NodeKey) :
    (p.setNode r node).isAlive q = p.isAlive q :=
  isAlive_modify p r q _

lemma leafOf?_add {p : Pool} (s : PathState) {r : PathRef} {key : NodeKey}
    (h : p.leafOf? r = some key) : (p.add s).2.leafOf? r = some key := by
  have hne : r ≠ (p.add s).1 := by
    intro e
    rw [leafOf?, e, get?_add_fst] at h
    cases h
  rw [leafOf?, get?_add, if_neg hne]
  exact h

lemma unplaced_modify (p : Pool) (r : PathRef) (s : PathState) :
    (p.modify r fun q => { s with node := q.node }).unplaced =
      p.unplaced.modify r fun _ => { s with node := none } := by
  simp only [unplaced, modify, mk.injEq]
  apply Array.ext_getElem?
  intro i
  simp only [Array.getElem?_map, Array.getElem?_modify]
  split
  · cases p.places[i]? with
    | none => rfl
    | some place => cases place <;> rfl
  · rfl

lemma leafOf?_modify (p : Pool) (r q : PathRef) (s : PathState) :
    (p.modify r fun q => { s with node := q.node }).leafOf? q = p.leafOf? q := by
  rw [leafOf?, get?_modify, leafOf?]
  split
  · cases p.get? q <;> rfl
  · rfl

lemma isAlive_of_leafOf? {p : Pool} {r : PathRef} {key : NodeKey} (h : p.leafOf? r = some key) :
    p.isAlive r = true := by
  rw [leafOf?] at h
  cases hs : p.get? r with
  | none =>
    rw [hs] at h
    cases h
  | some s => simp [isAlive, hs]

end Pool

/-- What is seen of a cell without its key and the marks. -/
structure Face where
  path : Option PathRef
  note : Option Note
  deriving DecidableEq

def Cell.face (c : Cell) : Face := ⟨c.bookmark, c.note⟩

namespace Face

/-- What a fork of a path puts in the place of its leaf. -/
def fork (path new : PathRef) (reason : BranchReason) (line : UInt64) (left right : Option Note)
    (a : Face) : Shape Face :=
  if a.path = some path then
    .node ⟨none, a.note.map ({ · with reason, line })⟩ (leaf ⟨some new, left⟩)
      (leaf ⟨some path, right⟩)
  else leaf a

def withKind (path : PathRef) (kind : TerminationKind) (a : Face) : Face :=
  if a.path = some path then { a with note := a.note.map ({ · with kind }) } else a

end Face

/-- What an engine does that addresses the tree by its paths. -/
inductive Move where
  /-- The path forks; the new one goes left. -/
  | fork (path : PathRef) (left : PathState) (reason : BranchReason)
  | terminate (path : PathRef)
  | setKind (path : PathRef) (kind : TerminationKind)
  /-- The path goes on, wherever it is. -/
  | update (path : PathRef) (state : PathState)

structure Portrait where
  shape : Shape Face
  recorded : Bool
  nextId : UInt64
  paths : Pool

namespace Portrait

/-- The note of the next leaf after `i` more of them. -/
def noteAfter (p : Portrait) (i : UInt64) : Option Note :=
  if p.recorded then some (.fresh ⟨p.nextId + i⟩) else none

def noteOf? (p : Portrait) (path : PathRef) : Option Note :=
  (p.shape.leaves.find? fun a => a.path = some path).bind Face.note

def move (compress : Bool) (p : Portrait) : Move → Portrait
  | .fork path left reason =>
    { p with
      shape := p.shape.grow (Face.fork path (p.paths.add { left with node := none }).1 reason
        (p.paths.lineOf path) (p.noteAfter 0) (p.noteAfter 1))
      nextId := if p.recorded then p.nextId + 2 else p.nextId
      paths := (p.paths.add { left with node := none }).2 }
  | .terminate path =>
    let cut := p.shape.prune fun a => a.path ≠ some path
    { p with shape := if compress then cut.contract else cut }
  | .setKind path kind => { p with shape := p.shape.map (Face.withKind path kind) }
  | .update path state => { p with paths := p.paths.modify path fun _ => { state with node := none } }

def record? (p : Portrait) : Move → Option Log.Record
  | .fork path _ reason =>
    Session.forkRecord? (p.noteOf? path) (p.noteAfter 0) (p.noteAfter 1) (p.paths.lineOf path) reason
  | .terminate path =>
    (Tree.finalNote (p.noteOf? path) (p.paths.get? path)).map Recorded.endRecord
  | _ => none

end Portrait

namespace Session

variable {σ : Type}

/-- The paths at the leaves, from left to right, as far as the engine keeps them. -/
def frontier (x : Session σ) : List PathRef :=
  (x.tracker.tree?.map fun t => (t.frontier x.pool).filterMap fun key =>
    (t.node? key).bind fun n => n.path? x.pool).getD []

end Session

namespace Move

variable {σ : Type}

def calls (x : Session σ) : Move → List Session.Call
  | fork path left reason =>
    match x.pool.leafOf? path with
    | some key =>
      let (new, pool) := x.pool.add { left with node := none }
      [.engine pool, .attach key new path reason]
    | none => []
  | terminate path =>
    match x.pool.leafOf? path with
    | some key => [.remove key]
    | none => []
  | setKind path kind =>
    match x.pool.get? path with
    | some state => [.setKind state kind]
    | none => []
  | update path state => [.engine (x.pool.modify path fun p => { state with node := p.node })]

/-- Only a path on the frontier forks or ends. -/
def Fits (x : Session σ) : Move → Prop
  | fork path _ _ => path ∈ x.frontier
  | terminate path => path ∈ x.frontier
  | setKind path _ => path ∈ x.frontier
  | update _ _ => True

instance (x : Session σ) (m : Move) : Decidable (m.Fits x) :=
  match m with
  | fork path _ _ => inferInstanceAs (Decidable (path ∈ x.frontier))
  | terminate path => inferInstanceAs (Decidable (path ∈ x.frontier))
  | setKind path _ => inferInstanceAs (Decidable (path ∈ x.frontier))
  | update _ _ => .isTrue trivial

end Move

namespace Session

variable {σ : Type}

def callsOf (hash : Digest.Hash) (storage : Storage σ) : Session σ → List Move → List Call
  | _, [] => []
  | x, m :: rest => m.calls x ++ callsOf hash storage (x.after hash storage (m.calls x)) rest

/-- Each move fits when it is made. -/
def Follows (hash : Digest.Hash) (storage : Storage σ) : Session σ → List Move → Prop
  | _, [] => True
  | x, m :: rest => m.Fits x ∧ Follows hash storage (x.after hash storage (m.calls x)) rest

instance decidableFollows (hash : Digest.Hash) (storage : Storage σ) :
    (x : Session σ) → (moves : List Move) → Decidable (x.Follows hash storage moves)
  | _, [] => .isTrue trivial
  | x, m :: rest =>
    have := decidableFollows hash storage (x.after hash storage (m.calls x)) rest
    inferInstanceAs (Decidable (m.Fits x ∧ _))

/-- No call is refused. -/
def Succeeds (hash : Digest.Hash) (storage : Storage σ) : Session σ → List Call → Prop
  | _, [] => True
  | x, call :: rest =>
    (x.step hash storage .none call).1 = .ok () ∧
      Succeeds hash storage (x.step hash storage .none call).2 rest

instance decidableSucceeds (hash : Digest.Hash) (storage : Storage σ) :
    (x : Session σ) → (calls : List Call) → Decidable (x.Succeeds hash storage calls)
  | _, [] => .isTrue trivial
  | x, call :: rest =>
    have := decidableSucceeds hash storage (x.step hash storage .none call).2 rest
    inferInstanceAs (Decidable (_ ∧ _))

end Session

/-- Each leaf bookmarks a path that is at this leaf. -/
def Shape.IsHoused (s : Shape Cell) (pool : Pool) : Prop :=
  ∀ c ∈ s.leaves, ∃ r, c.bookmark = some r ∧ pool.leafOf? r = some c.key

namespace Session

variable {σ : Type}

structure Shows (x : Session σ) (t : Tree) (s : Shape Cell) : Prop where
  tree_eq : x.tracker.tree? = some t
  shows : t.Shows s
  housed : s.IsHoused x.pool

/-- What a session looks like that keeps a tree with the given cells. -/
def portrait (x : Session σ) (t : Tree) (s : Shape Cell) : Portrait :=
  ⟨s.map Cell.face, t.recorded, t.nextId, x.pool.unplaced⟩

end Session

lemma Shape.IsHoused.leafOf?_eq {s : Shape Cell} {pool : Pool} (h : s.IsHoused pool) {c : Cell}
    (hc : c ∈ s.leaves) {path : PathRef} (hpath : c.bookmark = some path) :
    pool.leafOf? path = some c.key := by
  obtain ⟨r, hr, hleaf⟩ := h c hc
  rw [hpath] at hr
  cases hr
  exact hleaf

/-- A path is at one leaf. -/
lemma Shape.IsHoused.key_eq_iff {s : Shape Cell} {pool : Pool} (h : s.IsHoused pool)
    (hnodup : s.keys.Nodup) {c d : Cell} (hc : c ∈ s.leaves) (hd : d ∈ s.leaves) {path : PathRef}
    (hpath : c.bookmark = some path) : d.key = c.key ↔ d.bookmark = some path := by
  constructor
  · intro e
    rw [eq_of_key_eq hnodup (leaves_subset_preorder s hd) (leaves_subset_preorder s hc) e, hpath]
  · intro e
    have hd' := h.leafOf?_eq hd e
    rw [h.leafOf?_eq hc hpath] at hd'
    exact (Option.some.inj hd').symm

lemma Shape.IsHoused.find?_face {s : Shape Cell} {pool : Pool} (h : s.IsHoused pool)
    (hnodup : s.keys.Nodup) {c : Cell} (hc : c ∈ s.leaves) {path : PathRef}
    (hpath : c.bookmark = some path) :
    (s.map Cell.face).leaves.find? (fun a => a.path = some path) = some c.face := by
  rw [leaves_map, List.find?_map]
  have hfind : s.leaves.find? ((fun a : Face => decide (a.path = some path)) ∘ Cell.face) = some c := by
    cases hd : s.leaves.find? ((fun a : Face => decide (a.path = some path)) ∘ Cell.face) with
    | none =>
      have := List.find?_eq_none.1 hd c hc
      simp [Cell.face, hpath] at this
    | some d =>
      have hmem := List.mem_of_find?_eq_some hd
      have hfound := List.find?_some hd
      have hface : d.bookmark = some path := of_decide_eq_true hfound
      have hkey := (h.key_eq_iff hnodup hc hmem hpath).2 hface
      rw [eq_of_key_eq hnodup (leaves_subset_preorder s hmem) (leaves_subset_preorder s hc) hkey]
  rw [hfind]
  rfl

lemma Shape.IsBookmarked.mem_leaves {s : Shape Cell} (h : s.IsBookmarked) {c : Cell}
    (hc : c ∈ s.preorder) (hbookmark : c.bookmark.isSome = true) : c ∈ s.leaves := by
  induction s with
  | empty => cases hc
  | node a left right hleft hright =>
    obtain ⟨hself, hl, hr⟩ := h
    rw [Shape.preorder, List.mem_cons, List.mem_append] at hc
    rw [leaves]
    split
    · next hempty =>
      rw [Bool.and_eq_true, Shape.isEmpty_iff, Shape.isEmpty_iff] at hempty
      simp only [hempty, Shape.preorder, List.not_mem_nil, or_false] at hc
      exact List.mem_singleton.2 hc
    · next hne =>
      rw [Bool.not_eq_true] at hne
      rcases hc with rfl | hc | hc
      · rw [hself, hne] at hbookmark
        cases hbookmark
      · exact List.mem_append_left _ (hleft hl hc)
      · exact List.mem_append_right _ (hright hr hc)

section

variable {s : Shape Cell} {pool : Pool} {c : Cell} {path : PathRef}

lemma Shape.IsHoused.map_growAt (h : s.IsHoused pool) (hnodup : s.keys.Nodup) (hc : c ∈ s.leaves)
    (hpath : c.bookmark = some path) (reason : BranchReason) (line : UInt64) (l r : NodeKey)
    (new : PathRef) (left right : Option Note) :
    (s.growAt c.key (c.fork reason line ⟨l, 0, some new, left⟩ ⟨r, 0, some path, right⟩)).map
        Cell.face =
      (s.map Cell.face).grow (Face.fork path new reason line left right) := by
  refine map_grow fun a ha => ?_
  have hiff := h.key_eq_iff hnodup hc ha hpath
  have hface : a.face.path = some path ↔ a.key = c.key := hiff.symm
  simp only [Face.fork, hface]
  split
  · next e =>
    have hsame := eq_of_key_eq hnodup (leaves_subset_preorder s ha) (leaves_subset_preorder s hc) e
    rw [hsame]
    rfl
  · rfl

lemma Shape.IsHoused.map_removed (h : s.IsHoused pool) (hnodup : s.keys.Nodup) (hc : c ∈ s.leaves)
    (hpath : c.bookmark = some path) (compress : Bool) :
    (s.removed compress c.key).map Cell.face =
      let cut := (s.map Cell.face).prune fun a => a.path ≠ some path
      if compress then cut.contract else cut := by
  have hcut : (s.cutAt c.key).map Cell.face =
      (s.map Cell.face).prune fun a => a.path ≠ some path := by
    refine map_prune fun a ha => ?_
    rw [decide_eq_decide]
    exact not_congr (h.key_eq_iff hnodup hc ha hpath)
  rw [removed]
  cases compress with
  | false => exact hcut
  | true => simp only [if_true, map_contract, hcut]

lemma Shape.IsHoused.map_editAt (h : s.IsHoused pool) (hbookmarked : s.IsBookmarked)
    (hnodup : s.keys.Nodup) (hc : c ∈ s.leaves) (hpath : c.bookmark = some path)
    (kind : TerminationKind) :
    (s.editAt c.key (·.withKind kind)).map Cell.face = (s.map Cell.face).map (Face.withKind path kind) := by
  rw [editAt, map_map, map_map]
  refine map_congr fun a ha => ?_
  have hiff : a.key = c.key ↔ a.face.path = some path := by
    constructor
    · intro e
      rw [eq_of_key_eq hnodup ha (leaves_subset_preorder s hc) e]
      exact hpath
    · intro e
      have hleaf := hbookmarked.mem_leaves ha (by rw [show a.bookmark = some path from e]; rfl)
      exact (h.key_eq_iff hnodup hc hleaf hpath).2 e
  simp only [Face.withKind, ← hiff]
  split <;> rfl

lemma Shape.IsHoused.growAt (h : s.IsHoused pool) (hnodup : s.keys.Nodup) (hc : c ∈ s.leaves)
    (hpath : c.bookmark = some path) {new : PathRef} (hnew : pool.isAlive new = true)
    (hnone : pool.leafOf? new = none) (reason : BranchReason) (line : UInt64) (l r : NodeKey)
    (left right : Option Note) :
    (s.growAt c.key (c.fork reason line ⟨l, 0, some new, left⟩ ⟨r, 0, some path, right⟩)).IsHoused
      ((pool.setNode new (some l)).setNode path (some r)) := by
  have hne : new ≠ path := by
    intro e
    rw [e, h.leafOf?_eq hc hpath] at hnone
    cases hnone
  have halive : (pool.setNode new (some l)).isAlive path = true := by
    rw [Pool.isAlive_setNode]
    exact Pool.isAlive_of_leafOf? (h.leafOf?_eq hc hpath)
  intro d hd
  rw [mem_leaves_growAt hc] at hd
  rcases hd with rfl | rfl | ⟨hd, hkey⟩
  · exact ⟨new, rfl, by rw [Pool.leafOf?_setNode_of_ne hne, Pool.leafOf?_setNode_self hnew]⟩
  · exact ⟨path, rfl, Pool.leafOf?_setNode_self halive _⟩
  · obtain ⟨q, hq, hleaf⟩ := h d hd
    have hqpath : q ≠ path := by
      rintro rfl
      exact hkey ((h.key_eq_iff hnodup hc hd hpath).2 hq)
    have hqnew : q ≠ new := by
      rintro rfl
      rw [hnone] at hleaf
      cases hleaf
    exact ⟨q, hq, by rw [Pool.leafOf?_setNode_of_ne hqpath, Pool.leafOf?_setNode_of_ne hqnew, hleaf]⟩

lemma Shape.IsHoused.removed (h : s.IsHoused pool) (hnodup : s.keys.Nodup) (hc : c ∈ s.leaves)
    (hpath : c.bookmark = some path) (compress : Bool) :
    (s.removed compress c.key).IsHoused (Tree.release pool .none c.key path) := by
  intro d hd
  rw [leaves_removed, List.mem_filter] at hd
  obtain ⟨hd, hkey⟩ := hd
  obtain ⟨q, hq, hleaf⟩ := h d hd
  refine ⟨q, hq, ?_⟩
  have hne : q ≠ path := by
    rintro rfl
    exact of_decide_eq_true hkey ((h.key_eq_iff hnodup hc hd hpath).2 hq)
  unfold Tree.release
  split
  · split
    · rw [Pool.leafOf?_setNode_of_ne hne, hleaf]
    · exact hleaf
  · exact hleaf

lemma Shape.IsHoused.editAt (h : s.IsHoused pool) (key : NodeKey) (kind : TerminationKind) :
    (s.editAt key (·.withKind kind)).IsHoused pool := by
  intro d hd
  rw [Shape.editAt, leaves_map, List.mem_map] at hd
  obtain ⟨a, ha, rfl⟩ := hd
  obtain ⟨q, hq, hleaf⟩ := h a ha
  refine ⟨q, ?_, ?_⟩
  · split
    · exact hq
    · exact hq
  · split
    · exact hleaf
    · exact hleaf

lemma unplaced_release (pool : Pool) (key : NodeKey) (path : PathRef) :
    (Tree.release pool .none key path).unplaced = pool.unplaced := by
  unfold Tree.release
  split
  · split
    · exact Pool.unplaced_setNode _ _ _
    · rfl
  · rfl

end

namespace Session

variable {σ : Type} {hash : Digest.Hash} {storage : Storage σ}

lemma Shows.frontier_eq {x : Session σ} {t : Tree} {s : Shape Cell} (h : x.Shows t s) :
    x.frontier = s.leaves.filterMap Cell.bookmark := by
  rw [frontier, h.tree_eq, Option.map_some, Option.getD_some, h.shows.frontier_eq]
  have halive : ∀ c ∈ s.leaves, c.bookmark.any x.pool.isAlive = true := by
    intro c hc
    obtain ⟨r, hr, hleaf⟩ := h.housed c hc
    rw [hr]
    exact Pool.isAlive_of_leafOf? hleaf
  rw [List.filter_eq_self.2 halive, List.filterMap_map]
  refine List.filterMap_congr fun c hc => ?_
  obtain ⟨n, live, _, hbookmark, _⟩ := h.shows.reads.node?_of_mem_leaves hc
  obtain ⟨r, hr, hleaf⟩ := h.housed c hc
  have hr' := Pool.isAlive_of_leafOf? hleaf
  simp [live, Node.path?, hbookmark, hr, Option.filter, hr']

lemma Shows.exists_leaf {x : Session σ} {t : Tree} {s : Shape Cell} (h : x.Shows t s)
    {path : PathRef} (hpath : path ∈ x.frontier) : ∃ c ∈ s.leaves, c.bookmark = some path := by
  rw [h.frontier_eq, List.mem_filterMap] at hpath
  exact hpath

/-- The frontier is seen in the portrait. -/
lemma Shows.frontier_portrait {x : Session σ} {t : Tree} {s : Shape Cell} (h : x.Shows t s) :
    x.frontier = (x.portrait t s).shape.leaves.filterMap Face.path := by
  rw [h.frontier_eq, portrait, leaves_map, List.filterMap_map]
  rfl

lemma Shows.noteOf?_eq {x : Session σ} {t : Tree} {s : Shape Cell} (h : x.Shows t s) {c : Cell}
    (hc : c ∈ s.leaves) {path : PathRef} (hpath : c.bookmark = some path) :
    (x.portrait t s).noteOf? path = c.note := by
  rw [Portrait.noteOf?, portrait, h.housed.find?_face h.shows.nodup hc hpath]
  rfl

/-! ### Moving -/

/-- What a session and its portrait have in common after the calls of a move. -/
structure Moved (hash : Digest.Hash) (storage : Storage σ) (x : Session σ) (calls : List Call)
    (t : Tree) (p : Portrait) (record : Option Log.Record) : Prop where
  succeeds : x.Succeeds hash storage calls
  exists_shows : ∃ u v, (x.after hash storage calls).Shows u v ∧ u.compress = t.compress ∧
    (x.after hash storage calls).portrait u v = p
  records_eq : x.records hash storage calls = record.toList
  requests_eq : x.allRequests hash storage calls = record.toList.map .write

/-- A move of one call. -/
lemma Moved.of_call {x : Session σ} {t u : Tree} {p : Portrait} {record : Option Log.Record}
    {call : Call} {pool : Pool} {v : Shape Cell} (htree : x.tracker.tree? = some t)
    (houtcome : call.onTree .none t x.pool = ⟨.ok (), u, pool⟩) (hcompress : u.compress = t.compress)
    (hv : u.Shows v) (hhoused : v.IsHoused pool)
    (hportrait : (⟨v.map Cell.face, u.recorded, u.nextId, pool.unplaced⟩ : Portrait) = p)
    (hrecord : call.record? t x.pool = record)
    (hrequests : call.requests t x.pool = record.toList.map .write) :
    Moved hash storage x [call] t p record := by
  obtain ⟨hresult, htree', hpool⟩ := step_onTree hash storage .none htree call
  rw [houtcome] at hresult htree' hpool
  refine ⟨⟨hresult, trivial⟩, ⟨u, v, ⟨htree', hv, ?_⟩, hcompress, ?_⟩, ?_, ?_⟩
  · change v.IsHoused (x.step hash storage .none call).2.pool
    rw [hpool]
    exact hhoused
  · change portrait (x.step hash storage .none call).2 u v = p
    rw [portrait, hpool, hportrait]
  · simp [records, record?, htree, hrecord]
  · simp [allRequests, requests, htree, hrequests]

/-- Before a call the engine may have changed its paths. -/
lemma Moved.of_engine {x : Session σ} {pool : Pool} {calls : List Call} {t : Tree} {p : Portrait}
    {record : Option Log.Record} (h : Moved hash storage { x with pool } calls t p record)
    (htree : x.tracker.tree? = some t) :
    Moved hash storage x (.engine pool :: calls) t p record := by
  refine ⟨⟨rfl, h.succeeds⟩, h.exists_shows, ?_, ?_⟩
  · rw [records, record?, htree]
    exact h.records_eq
  · rw [allRequests, requests, htree]
    exact h.requests_eq

lemma Shows.fork {x : Session σ} {t : Tree} {s : Shape Cell} (h : x.Shows t s) {path : PathRef}
    (hfits : path ∈ x.frontier) (left : PathState) (reason : BranchReason)
    (hsmall : (x.after hash storage ((Move.fork path left reason).calls x)).slots ≤ UInt32.size) :
    Moved hash storage x ((Move.fork path left reason).calls x) t
      ((x.portrait t s).move t.compress (.fork path left reason))
      ((x.portrait t s).record? (.fork path left reason)) := by
  obtain ⟨c, hc, hpath⟩ := h.exists_leaf hfits
  have hleaf := h.housed.leafOf?_eq hc hpath
  simp only [Move.calls, hleaf] at hsmall ⊢
  -- The new path has joined the pool, and the leaf of the old one is where it was.
  let fresh : PathState := { left with node := none }
  let pool := (x.pool.add fresh).2
  let new := (x.pool.add fresh).1
  have hhoused : s.IsHoused pool := fun d hd => by
    obtain ⟨q, hq, hq'⟩ := h.housed d hd
    exact ⟨q, hq, Pool.leafOf?_add fresh hq'⟩
  have hright : pool.leafOf? path = some c.key := hhoused.leafOf?_eq hc hpath
  have hget : pool.get? new = some fresh := by rw [Pool.get?_add, if_pos rfl]
  have hnew : pool.isAlive new = true := by rw [Pool.isAlive, hget]; rfl
  have hnone : pool.leafOf? new = none := by rw [Pool.leafOf?, hget]; rfl
  have hne : path ≠ new := by
    intro e
    rw [e, hnone] at hright
    cases hright
  have hline : pool.lineOf path = x.pool.lineOf path := by
    rw [Pool.lineOf, Pool.get?_add, if_neg hne, Pool.lineOf]
  have hunplaced : x.pool.unplaced.places.size = x.pool.places.size := by simp [Pool.unplaced]
  obtain ⟨_, hstep, _⟩ := step_onTree hash storage .none (x := { x with pool }) h.tree_eq
    (.attach c.key new path reason)
  change (({ x with pool } : Session σ).step hash storage .none (.attach c.key new path reason)).2.slots ≤
    UInt32.size at hsmall
  rw [slots_eq hstep] at hsmall
  obtain ⟨l, r, u, heq, hu⟩ := h.shows.attach hc hright new reason hsmall
  have hrecord := h.shows.record?_attach hc hright new reason hsmall
  have hmap := h.housed.map_growAt h.shows.nodup hc hpath reason (pool.lineOf path) l r new
    (t.noteAfter 0) (t.noteAfter 1)
  have hpaths : ((pool.setNode new (some l)).setNode path (some r)).unplaced =
      (x.pool.unplaced.add fresh).2 := by
    rw [Pool.unplaced_setNode, Pool.unplaced_setNode, Pool.unplaced_add]
  have hindex : (x.pool.unplaced.add fresh).1 = new := by simp [Pool.unplaced, Pool.add, new]
  have houtcome : (Call.attach c.key new path reason).onTree .none t pool =
      ⟨.ok (), u, (pool.setNode new (some l)).setNode path (some r)⟩ := by
    rw [Call.onTree, heq]
    rfl
  have hmoved : (x.portrait t s).move t.compress (.fork path left reason) =
      ⟨(s.growAt c.key (c.fork reason (pool.lineOf path) ⟨l, 0, some new, t.noteAfter 0⟩
        ⟨r, 0, some path, t.noteAfter 1⟩)).map Cell.face, u.recorded, u.nextId,
        ((pool.setNode new (some l)).setNode path (some r)).unplaced⟩ := by
    rw [hmap, hpaths, hu.recorded_eq, hu.nextId_eq, hline, ← Pool.lineOf_unplaced, ← hindex]
    rfl
  refine Moved.of_engine (Moved.of_call (x := { x with pool }) h.tree_eq houtcome hu.compress_eq
    hu.shows (hhoused.growAt h.shows.nodup hc hpath hnew hnone _ _ _ _ _ _) hmoved.symm ?_ ?_) h.tree_eq
  · change (Call.attach c.key new path reason).record? t pool = _
    rw [hrecord, Portrait.record?, h.noteOf?_eq hc hpath, hline, ← Pool.lineOf_unplaced]
    rfl
  · change ((Call.attach c.key new path reason).record? t pool).toList.map _ = _
    rw [hrecord, Portrait.record?, h.noteOf?_eq hc hpath, hline, ← Pool.lineOf_unplaced]
    rfl

lemma Shows.terminate {x : Session σ} {t : Tree} {s : Shape Cell} (h : x.Shows t s) {path : PathRef}
    (hfits : path ∈ x.frontier) :
    Moved hash storage x ((Move.terminate path).calls x) t
      ((x.portrait t s).move t.compress (.terminate path))
      ((x.portrait t s).record? (.terminate path)) := by
  obtain ⟨c, hc, hpath⟩ := h.exists_leaf hfits
  simp only [Move.calls, h.housed.leafOf?_eq hc hpath]
  obtain ⟨u, heq, hu, hsettings⟩ := h.shows.remove hc hpath x.pool
  simp only [Tree.settings, Prod.mk.injEq] at hsettings
  obtain ⟨hcompress, hrecorded, hnextId, _⟩ := hsettings
  have houtcome : (Call.remove c.key).onTree .none t x.pool =
      ⟨.ok (), u, Tree.release x.pool .none c.key path⟩ := by
    rw [Call.onTree, heq]
    rfl
  -- A record shows the path's data, which do not depend on its leaf.
  have hrecord : (Call.remove c.key).record? t x.pool =
      (x.portrait t s).record? (.terminate path) := by
    rw [h.shows.record?_remove hc hpath, Portrait.record?, h.noteOf?_eq hc hpath, portrait,
      Pool.get?_unplaced]
    cases c.note <;> cases x.pool.get? path <;> rfl
  refine Moved.of_call h.tree_eq houtcome hcompress hu
    (h.housed.removed h.shows.nodup hc hpath t.compress) ?_ hrecord ?_
  · rw [h.housed.map_removed h.shows.nodup hc hpath, hrecorded, hnextId, unplaced_release]
    rfl
  · rw [← hrecord]
    rfl

lemma Shows.setKind {x : Session σ} {t : Tree} {s : Shape Cell} (h : x.Shows t s) {path : PathRef}
    (kind : TerminationKind) (hfits : path ∈ x.frontier) :
    Moved hash storage x ((Move.setKind path kind).calls x) t
      ((x.portrait t s).move t.compress (.setKind path kind)) none := by
  obtain ⟨c, hc, hpath⟩ := h.exists_leaf hfits
  have hleaf := h.housed.leafOf?_eq hc hpath
  obtain ⟨state, hstate⟩ := Option.isSome_iff_exists.1 (Pool.isAlive_of_leafOf? hleaf)
  rw [Pool.leafOf?, hstate, Option.bind_some] at hleaf
  simp only [Move.calls, hstate]
  obtain ⟨hu, hsettings⟩ := h.shows.setKind state kind
  rw [hleaf, Option.elim_some] at hu
  simp only [Tree.settings, Prod.mk.injEq] at hsettings
  obtain ⟨hcompress, hrecorded, hnextId, _⟩ := hsettings
  refine Moved.of_call h.tree_eq rfl hcompress hu (h.housed.editAt c.key kind) ?_ rfl rfl
  rw [h.housed.map_editAt h.shows.bookmarked h.shows.nodup hc hpath, hrecorded, hnextId]
  rfl

lemma Shows.update {x : Session σ} {t : Tree} {s : Shape Cell} (h : x.Shows t s) (path : PathRef)
    (state : PathState) :
    Moved hash storage x ((Move.update path state).calls x) t
      ((x.portrait t s).move t.compress (.update path state)) none := by
  refine Moved.of_call h.tree_eq rfl rfl h.shows ?_ ?_ rfl rfl
  · intro c hc
    obtain ⟨r, hr, hleaf⟩ := h.housed c hc
    exact ⟨r, hr, by rw [Pool.leafOf?_modify, hleaf]⟩
  · rw [Pool.unplaced_modify]
    rfl

/-- A session moves as its portrait does, and no call of the move is refused. -/
theorem Shows.move {x : Session σ} {t : Tree} {s : Shape Cell} (h : x.Shows t s) {m : Move}
    (hfits : m.Fits x)
    (hsmall : (x.after hash storage (m.calls x)).slots ≤ UInt32.size) :
    Moved hash storage x (m.calls x) t ((x.portrait t s).move t.compress m)
      ((x.portrait t s).record? m) := by
  cases m with
  | fork path left reason => exact h.fork hfits left reason hsmall
  | terminate path => exact h.terminate hfits
  | setKind path kind => exact h.setKind kind hfits
  | update path state => exact h.update path state

end Session

end ForkTree
