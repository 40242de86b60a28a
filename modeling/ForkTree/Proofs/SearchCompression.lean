import ForkTree.Proofs.Search

/-!
Searchers in step, on a plain tree and on a tree that compresses. What a searcher finds is seen in the
portrait of its session and in what it tracks (`Search.Shows.select_eq`), and single children ask for no
coins (`Portrait.select_contracted`). An engine that addresses the tree by its paths makes the same moves
in both sessions, so with the same coins a searcher finds the same paths in both
(`Search.selection_unobservable`).
-/

namespace ForkTree

open Shape

namespace Portrait

/-- What a searcher finds that tracks the given paths, with the number of coins thrown. -/
def select (p : Portrait) (tracked : PathRef → Bool) (coin : Nat → Bool) : Option PathRef × Nat :=
  let tracks := fun a : Face => a.path.any tracked
  if p.shape.leaves.any tracks then
    ((p.shape.draw tracks coin 0).1.bind Face.path, (p.shape.draw tracks coin 0).2)
  else (none, 0)

theorem select_contracted (p : Portrait) (tracked : PathRef → Bool) (coin : Nat → Bool) :
    p.contracted.select tracked coin = p.select tracked coin := by
  simp only [select, contracted, leaves_contract]
  split
  · next h => rw [draw_contract h]
  · rfl

end Portrait

namespace Tree

lemma Reads.unique {t : Tree} {parent : Option NodeKey} {e : Edge} {s v : Shape Cell}
    (hs : t.Reads parent e s) (hv : t.Reads parent e v) : s = v := by
  obtain ⟨nodes, hnodes, rfl⟩ := hs.unfolds
  obtain ⟨nodes', hnodes', rfl⟩ := hv.unfolds
  rw [hnodes.unique hnodes']

end Tree

namespace Search

section

variable {σ : Type} {x : Search σ} {t : Tree} {s : Shape Cell}

theorem Shows.select_eq (h : x.Shows t s) {mask : Mask} (hmask : mask ∈ Mask.all) (coin : Nat → Bool) :
    t.select x.session.pool mask coin = (x.session.portrait t s).select (x.tracked mask) coin := by
  let tracks := fun a : Face => a.path.any (x.tracked mask)
  have hany : (s.map Cell.face).leaves.any tracks = s.leaves.any (Cell.isTracked (x.tracked mask)) := by
    rw [leaves_map, List.any_map]
    rfl
  have hdraw : (s.map Cell.face).draw tracks coin 0 =
      ((s.draw (Cell.isTracked (x.tracked mask)) coin 0).1.map Cell.face,
        (s.draw (Cell.isTracked (x.tracked mask)) coin 0).2) := draw_map fun _ _ => rfl
  have hselect : (x.session.portrait t s).select (x.tracked mask) coin =
      if (s.map Cell.face).leaves.any tracks then
        (((s.map Cell.face).draw tracks coin 0).1.bind Face.path, ((s.map Cell.face).draw tracks coin 0).2)
      else (none, 0) := rfl
  rw [h.shows.select_eq h.housed (h.marks mask hmask), hselect, hany, hdraw, Option.bind_map]
  rfl

end

/-- What an engine does that addresses the tree by its paths, its searchers included. -/
inductive Move where
  | move (m : ForkTree.Move)
  /-- A searcher goes on to track the paths `added`, but not the paths `removed`. -/
  | retrack (mask : Mask) (added removed : List PathRef)

variable {σ : Type}

def Move.calls (x : Search σ) : Move → List Call
  | move m => (m.calls x.session).map .call
  | retrack mask added removed =>
    [.retrack mask (added.filterMap x.session.pool.leafOf?) (removed.filterMap x.session.pool.leafOf?)]

/-- Only paths on the frontier fork or end or are told to searchers, and no path ends that is tracked. -/
def Move.Fits (x : Search σ) : Move → Prop
  | move (.terminate path) => path ∈ x.session.frontier ∧ ∀ mask ∈ Mask.all, x.tracked mask path = false
  | move m => m.Fits x.session
  | retrack mask added removed => mask ∈ Mask.all ∧ ∀ path ∈ added ++ removed, path ∈ x.session.frontier

lemma Move.Fits.session {x : Search σ} {m : ForkTree.Move} (h : (Move.move m).Fits x) :
    m.Fits x.session := by
  cases m with
  | terminate path => exact h.1
  | fork | setKind | update => exact h

instance (x : Search σ) (m : Move) : Decidable (m.Fits x) :=
  match m with
  | .move (.terminate _) => inferInstanceAs (Decidable (_ ∧ _))
  | .move (.fork path left reason) => inferInstanceAs (Decidable ((ForkTree.Move.fork path left reason).Fits _))
  | .move (.setKind path kind) => inferInstanceAs (Decidable ((ForkTree.Move.setKind path kind).Fits _))
  | .move (.update _ _) => .isTrue trivial
  | .retrack _ _ _ => inferInstanceAs (Decidable (_ ∧ _))

def callsOf (hash : Digest.Hash) (storage : Storage σ) : Search σ → List Move → List Call
  | _, [] => []
  | x, m :: rest => m.calls x ++ callsOf hash storage (x.after hash storage (m.calls x)) rest

/-- Each move fits when it is made. -/
def Follows (hash : Digest.Hash) (storage : Storage σ) : Search σ → List Move → Prop
  | _, [] => True
  | x, m :: rest => m.Fits x ∧ Follows hash storage (x.after hash storage (m.calls x)) rest

instance decidableFollows (hash : Digest.Hash) (storage : Storage σ) :
    (x : Search σ) → (moves : List Move) → Decidable (x.Follows hash storage moves)
  | _, [] => .isTrue trivial
  | x, m :: rest =>
    have := decidableFollows hash storage (x.after hash storage (m.calls x)) rest
    inferInstanceAs (Decidable (m.Fits x ∧ _))

/-- With the same coins every searcher finds the same in both sessions, and throws as many of them. -/
def FindAlike (x y : Search σ) : Prop :=
  ∃ t u, x.session.tracker.tree? = some t ∧ y.session.tracker.tree? = some u ∧
    ∀ mask ∈ Mask.all, ∀ coin, t.select x.session.pool mask coin = u.select y.session.pool mask coin

variable {hash : Digest.Hash} {storage : Storage σ} {x : Search σ} {t : Tree} {s : Shape Cell}

lemma after_append (x : Search σ) (before rest : List Call) :
    x.after hash storage (before ++ rest) = (x.after hash storage before).after hash storage rest :=
  List.foldl_append

/-- Calls that searchers have no part in. -/
lemma session_after (x : Search σ) (calls : List Session.Call) :
    (x.after hash storage (calls.map .call)).session = x.session.after hash storage calls := by
  induction calls generalizing x with
  | nil => rfl
  | cons call calls ih => exact ih _

lemma Shows.tracked_after (h : x.Shows t s) (calls : List Session.Call)
    (hcalls : x.Admits hash storage (calls.map .call))
    (hsmall : (x.session.after hash storage calls).slots ≤ UInt32.size) :
    (x.after hash storage (calls.map .call)).tracked = x.tracked := by
  induction calls generalizing x t s with
  | nil => rfl
  | cons call calls ih =>
    obtain ⟨hcall, hrest⟩ := hcalls
    have hslots : (x.step hash storage (.call call)).session.slots ≤ UInt32.size := by
      obtain ⟨w, hw, _⟩ := step_tree? h.tree_eq hash storage (.call call)
      exact Nat.le_trans (Session.slots_le_after hash storage hw calls) hsmall
    obtain ⟨u, v, hshows⟩ := h.step hcall hslots
    exact (ih hshows hrest hsmall).trans (h.trackedAfter_eq hcall.1)

/-- A session has one tree, and a tree has one shape. -/
lemma Shows.of_session {v : Shape Cell} {u : Tree} (h : x.Shows t s) (h' : x.session.Shows u v) :
    x.Shows u v := by
  have htree := h.tree_eq
  rw [h'.tree_eq] at htree
  cases htree
  rwa [h'.shows.reads.unique h.shows.reads]

/-- The calls of a move that fits are admissible. -/
lemma Shows.admits_calls (h : x.Shows t s) {m : ForkTree.Move} (hm : (Move.move m).Fits x)
    (hash : Digest.Hash) (storage : Storage σ) :
    x.Admits hash storage ((m.calls x.session).map .call) := by
  have halive : ∀ path ∈ x.session.frontier, x.session.pool.isAlive path = true := by
    intro path hpath
    obtain ⟨c, hc, hbookmark⟩ := h.session_shows.exists_leaf hpath
    exact h.alive c hc path hbookmark
  cases m with
  | fork path left reason =>
    obtain ⟨c, hc, hpath⟩ := h.session_shows.exists_leaf hm
    simp only [ForkTree.Move.calls, h.housed.leafOf?_eq hc hpath, List.map_cons, List.map_nil]
    let fresh : PathState := { left with node := none }
    have hget : (x.session.pool.add fresh).2.get? (x.session.pool.add fresh).1 = some fresh := by
      rw [Pool.get?_add, if_pos rfl]
    refine ⟨⟨Pool.evolves_add _ rfl, fun q hq => ?_⟩, ⟨⟨?_, ?_⟩, trivial⟩, trivial⟩
    · rw [Pool.isAlive, Pool.get?_add]
      split
      · rfl
      · exact halive q hq
    · exact congrArg Option.isSome hget
    · exact congrArg (Option.bind · PathState.node) hget
  | terminate path =>
    obtain ⟨hfits, huntracked⟩ := hm
    obtain ⟨c, hc, hpath⟩ := h.session_shows.exists_leaf hfits
    simp only [ForkTree.Move.calls, h.housed.leafOf?_eq hc hpath, List.map_cons, List.map_nil]
    refine ⟨⟨trivial, fun mask hmask => ?_⟩, trivial⟩
    rw [h.pathAt?_eq hc, hpath, Option.any_some, huntracked mask hmask]
  | setKind path kind =>
    simp only [ForkTree.Move.calls]
    split
    · exact ⟨⟨trivial, trivial⟩, trivial⟩
    · trivial
  | update path state =>
    refine ⟨⟨Pool.evolves_modify _ _ _, fun q hq => ?_⟩, trivial⟩
    rw [Pool.isAlive_modify]
    exact halive q hq

lemma Shows.admits_retrack (h : x.Shows t s) {mask : Mask} {added removed : List PathRef}
    (hm : (Move.retrack mask added removed).Fits x) :
    (Call.retrack mask (added.filterMap x.session.pool.leafOf?)
      (removed.filterMap x.session.pool.leafOf?)).Admits x := by
  refine ⟨hm.1, fun key hkey => ?_⟩
  rw [← List.filterMap_append] at hkey
  obtain ⟨path, hpath, hleaf⟩ := List.mem_filterMap.1 hkey
  obtain ⟨c, hc, hbookmark⟩ := h.session_shows.exists_leaf (hm.2 path hpath)
  rw [h.housed.leafOf?_eq hc hbookmark] at hleaf
  cases hleaf
  obtain ⟨n, live, hn, _⟩ := h.shows.reads.node?_of_mem_leaves hc
  simp [Session.isLeaf, h.tree_eq, live, hn]

/-- The keys of paths on the frontier lead back to them. -/
lemma Shows.filterMap_pathAt? (h : x.Shows t s) {paths : List PathRef}
    (hpaths : ∀ path ∈ paths, path ∈ x.session.frontier) :
    (paths.filterMap x.session.pool.leafOf?).filterMap x.session.pathAt? = paths := by
  have hback : ∀ path ∈ paths,
      (x.session.pool.leafOf? path).bind x.session.pathAt? = some path := by
    intro path hpath
    obtain ⟨c, hc, hbookmark⟩ := h.session_shows.exists_leaf (hpaths path hpath)
    rw [h.housed.leafOf?_eq hc hbookmark, Option.bind_some, h.pathAt?_eq hc, hbookmark]
  rw [List.filterMap_filterMap, List.filterMap_congr hback, List.filterMap_some]

/-- A searcher is told what to track. The session looks as before. -/
lemma Shows.retrack_move (h : x.Shows t s) {mask : Mask} {added removed : List PathRef}
    (hm : (Move.retrack mask added removed).Fits x) (hash : Digest.Hash) (storage : Storage σ) :
    let y := x.after hash storage ((Move.retrack mask added removed).calls x)
    ∃ u v, y.Shows u v ∧ y.session.portrait u v = x.session.portrait t s ∧ u.compress = t.compress ∧
      y.session.writer? = x.session.writer? ∧ y.session.storage = x.session.storage ∧
      y.tracked = Function.update x.tracked mask fun r =>
        (x.tracked mask r || decide (r ∈ added)) && decide (r ∉ removed) := by
  have hadded : ∀ path ∈ added, path ∈ x.session.frontier := fun path hpath =>
    hm.2 path (List.mem_append_left _ hpath)
  have hremoved : ∀ path ∈ removed, path ∈ x.session.frontier := fun path hpath =>
    hm.2 path (List.mem_append_right _ hpath)
  obtain ⟨v, hv, hshows⟩ := h.retrack (h.admits_retrack hm) hash storage
  have hsettings := Tree.settings_retrack mask t (added.filterMap x.session.pool.leafOf?)
    (removed.filterMap x.session.pool.leafOf?)
  simp only [Tree.settings, Prod.mk.injEq] at hsettings
  obtain ⟨hcompress, hrecorded, hnextId, _⟩ := hsettings
  have hface : v.map Cell.face = s.map Cell.face := map_eq_of_untagged hv fun _ => rfl
  refine ⟨_, v, hshows, ?_, hcompress, ?_, rfl, ?_⟩
  · simp only [Session.portrait, hface, hrecorded, hnextId]
    rfl
  · obtain ⟨⟨tracker, pool, storage⟩, tracked⟩ := x
    cases tracker <;> rfl
  · change x.trackedAfter (.retrack mask (added.filterMap x.session.pool.leafOf?)
      (removed.filterMap x.session.pool.leafOf?)) = _
    rw [trackedAfter, h.filterMap_pathAt? hadded, h.filterMap_pathAt? hremoved]

/-! ### Two sessions -/

/-- A plain and a compressing session whose searchers nothing tells apart. -/
structure Twins (x y : Search σ) (t u : Tree) (s v : Shape Cell) : Prop where
  plain : x.Shows t s
  compressing : y.Shows u v
  sessions : Session.Twins x.session y.session t u s v
  tracked_eq : x.tracked = y.tracked

section

variable {y : Search σ} {u : Tree} {v : Shape Cell}

lemma Twins.findAlike (h : Twins x y t u s v) : FindAlike x y := by
  refine ⟨t, u, h.plain.tree_eq, h.compressing.tree_eq, fun mask hmask coin => ?_⟩
  rw [h.plain.select_eq hmask, h.compressing.select_eq hmask, h.sessions.portrait_eq, ← h.tracked_eq,
    Portrait.select_contracted]

lemma Twins.fits (h : Twins x y t u s v) {m : Move} (hm : m.Fits x) : m.Fits y := by
  cases m with
  | move m =>
    have hm' := h.sessions.fits (hm.session)
    cases m with
    | terminate path => exact ⟨hm', h.tracked_eq ▸ hm.2⟩
    | fork | setKind | update => exact hm'
  | retrack mask added removed => exact ⟨hm.1, fun path hpath => h.sessions.frontier_eq ▸ hm.2 path hpath⟩

/-- A move that searchers have no part in. -/
lemma Twins.session_move (h : Twins x y t u s v) {m : ForkTree.Move} (hm : (Move.move m).Fits x)
    (hx : (x.after hash storage ((Move.move m).calls x)).session.slots ≤ UInt32.size)
    (hy : (y.after hash storage ((Move.move m).calls y)).session.slots ≤ UInt32.size) :
    ∃ t u s v, Twins (x.after hash storage ((Move.move m).calls x))
      (y.after hash storage ((Move.move m).calls y)) t u s v := by
  have hcalls := h.plain.admits_calls hm hash storage
  have hcalls' := h.compressing.admits_calls (h.fits hm) hash storage
  simp only [Move.calls, session_after] at hx hy ⊢
  obtain ⟨⟨t', u', s', v', htwins⟩, _⟩ := h.sessions.move hm.session hx hy
  obtain ⟨_, _, hshows⟩ := h.plain.after _ hcalls (by rwa [session_after])
  obtain ⟨_, _, hshows'⟩ := h.compressing.after _ hcalls' (by rwa [session_after])
  rw [← session_after, ← session_after] at htwins
  refine ⟨t', u', s', v', hshows.of_session htwins.plain, hshows'.of_session htwins.compressing, htwins, ?_⟩
  rw [h.plain.tracked_after _ hcalls hx, h.compressing.tracked_after _ hcalls' hy, h.tracked_eq]

lemma Twins.retrack (h : Twins x y t u s v) {mask : Mask} {added removed : List PathRef}
    (hm : (Move.retrack mask added removed).Fits x) :
    ∃ t u s v, Twins (x.after hash storage ((Move.retrack mask added removed).calls x))
      (y.after hash storage ((Move.retrack mask added removed).calls y)) t u s v := by
  obtain ⟨t', s', hshows, hportrait, hcompress, hwriter, hstorage, htracked⟩ :=
    h.plain.retrack_move hm hash storage
  obtain ⟨u', v', hshows', hportrait', hcompress', hwriter', hstorage', htracked'⟩ :=
    h.compressing.retrack_move (h.fits hm) hash storage
  refine ⟨t', u', s', v', hshows, hshows', ⟨hshows.session_shows, hshows'.session_shows, ?_, ?_, ?_, ?_, ?_⟩, ?_⟩
  · exact hcompress.trans h.sessions.compress_eq_false
  · exact hcompress'.trans h.sessions.compress_eq_true
  · rw [hportrait, hportrait', h.sessions.portrait_eq]
  · rw [hwriter, hwriter', h.sessions.writer_eq]
  · rw [hstorage, hstorage', h.sessions.storage_eq]
  · rw [htracked, htracked', h.tracked_eq]

lemma Twins.move (h : Twins x y t u s v) {m : Move} (hm : m.Fits x)
    (hx : (x.after hash storage (m.calls x)).session.slots ≤ UInt32.size)
    (hy : (y.after hash storage (m.calls y)).session.slots ≤ UInt32.size) :
    ∃ t u s v, Twins (x.after hash storage (m.calls x)) (y.after hash storage (m.calls y)) t u s v := by
  cases m with
  | move m => exact h.session_move hm hx hy
  | retrack mask added removed => exact h.retrack hm

lemma Twins.moves (h : Twins x y t u s v) (moves : List Move) (hfollows : x.Follows hash storage moves)
    (hx : (x.after hash storage (x.callsOf hash storage moves)).session.slots ≤ UInt32.size)
    (hy : (y.after hash storage (y.callsOf hash storage moves)).session.slots ≤ UInt32.size) :
    ∃ t u s v, Twins (x.after hash storage (x.callsOf hash storage moves))
      (y.after hash storage (y.callsOf hash storage moves)) t u s v := by
  induction moves generalizing x y t u s v with
  | nil => exact ⟨t, u, s, v, h⟩
  | cons m moves ih =>
    obtain ⟨hm, hrest⟩ := hfollows
    simp only [callsOf, after_append] at hx hy ⊢
    obtain ⟨w, hw, _⟩ := exists_tree_after h.plain.tree_eq (m.calls x)
    obtain ⟨w', hw', _⟩ := exists_tree_after h.compressing.tree_eq (m.calls y)
    obtain ⟨t', u', s', v', htwins⟩ := h.move hm (Nat.le_trans (slots_le_after hw _) hx)
      (Nat.le_trans (slots_le_after hw' _) hy)
    exact ih htwins hrest hx hy

end

lemma exists_twins (hash : Digest.Hash) (storage : Storage σ) (config : Config) {inMemory : Bool}
    (hkept : config.persist = true ∨ inMemory = true) (run : RunId) {path : PathRef} {pool : Pool}
    (hpath : pool.isAlive path = true) (hothers : ∀ r, r ≠ path → pool.leafOf? r = none) (s : σ) :
    ∃ t u w v, Twins (create hash storage { config with compress := false } inMemory run path pool s)
      (create hash storage { config with compress := true } inMemory run path pool s) t u w v := by
  obtain ⟨_, _, hshows⟩ :=
    exists_shows_create hash storage { config with compress := false } hkept run hpath hothers s
  obtain ⟨_, _, hshows'⟩ :=
    exists_shows_create hash storage { config with compress := true } hkept run hpath hothers s
  obtain ⟨t, u, w, v, htwins⟩ := Session.exists_twins hash storage config hkept run hpath s
  exact ⟨t, u, w, v, hshows.of_session htwins.plain, hshows'.of_session htwins.compressing, htwins, rfl⟩

/-- What a searcher finds does not depend on whether single children are elided. After any moves in which
paths on the frontier fork, end and are told to searchers, and no path ends that a searcher tracks, every
searcher finds the same path on both sides with the same coins, or none, and throws as many of them. The
bounds are the number of slot numbers. -/
theorem selection_unobservable (hash : Digest.Hash) (storage : Storage σ) (config : Config)
    (inMemory : Bool) (run : RunId) (path : PathRef) (pool : Pool) (s : σ) (moves : List Move)
    (hkept : config.persist = true ∨ inMemory = true) (hpath : pool.isAlive path = true)
    (hothers : ∀ r, r ≠ path → pool.leafOf? r = none) :
    let x := create hash storage { config with compress := false } inMemory run path pool s
    let y := create hash storage { config with compress := true } inMemory run path pool s
    let x' := x.after hash storage (x.callsOf hash storage moves)
    let y' := y.after hash storage (y.callsOf hash storage moves)
    x.Follows hash storage moves → x'.session.slots ≤ UInt32.size → y'.session.slots ≤ UInt32.size →
      FindAlike x' y' := by
  intro x y x' y' hfollows hx hy
  obtain ⟨_, _, _, _, hstart⟩ := exists_twins hash storage config hkept run hpath hothers s
  obtain ⟨_, _, _, _, htwins⟩ := hstart.moves moves hfollows hx hy
  exact htwins.findAlike

/-- Two forks and the end of the path in between, which the plain tree keeps a single child for; a searcher
tracks the other two. -/
theorem selection_unobservable_after_end :
    let hash : Digest.Hash := fun _ => ⟨List.replicate 32 0, rfl⟩
    let pool : Pool := ⟨#[some (.fresh ⟨1⟩)]⟩
    let x := create hash Storage.memory { Config.default with compress := false } true default ⟨0⟩ pool .empty
    let y := create hash Storage.memory { Config.default with compress := true } true default ⟨0⟩ pool .empty
    let moves : List Move :=
      [.retrack 1 [⟨0⟩] [], .move (.fork ⟨0⟩ (.fresh ⟨2⟩) .conditional),
        .move (.fork ⟨0⟩ (.fresh ⟨3⟩) .switch), .retrack 1 [⟨1⟩, ⟨2⟩] [], .retrack 1 [] [⟨2⟩],
        .move (.terminate ⟨2⟩)]
    let x' := x.after hash Storage.memory (x.callsOf hash Storage.memory moves)
    let y' := y.after hash Storage.memory (y.callsOf hash Storage.memory moves)
    pool.isAlive ⟨0⟩ = true ∧ (∀ r, r ≠ ⟨0⟩ → pool.leafOf? r = none) ∧
      x.Follows hash Storage.memory moves ∧ x'.session.slots ≤ UInt32.size ∧
      y'.session.slots ≤ UInt32.size ∧ FindAlike x' y' := by
  intro hash pool x y moves x' y'
  have hothers : ∀ r, r ≠ ⟨0⟩ → pool.leafOf? r = none := fun r _ =>
    Pool.leafOf?_of_all (by decide) r
  have hfollows : x.Follows hash Storage.memory moves := by decide
  have hplain : x'.session.slots ≤ UInt32.size := by decide
  have hsmall : y'.session.slots ≤ UInt32.size := by decide
  exact ⟨rfl, hothers, hfollows, hplain, hsmall, selection_unobservable hash Storage.memory
    Config.default true default ⟨0⟩ pool .empty moves (.inr rfl) rfl hothers hfollows hplain hsmall⟩

end Search

end ForkTree
