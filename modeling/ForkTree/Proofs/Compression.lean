import ForkTree.Proofs.SessionPortrait
import ForkTree.Storage.Memory

/-!
Two sessions in step, one on a plain tree and one on a tree that compresses. The portrait of the second
is that of the first with single children elided (`Portrait.contracted`). A move keeps that and makes
the same record on both sides (`move_contracted`, `record?_contracted`), so nothing that an engine sees
of the two tells them apart (`compression_unobservable`).
-/

namespace ForkTree

open Shape

namespace Portrait

/-- The same portrait with single children elided. -/
def contracted (p : Portrait) : Portrait := { p with shape := p.shape.contract }

lemma contract_fork (path new : PathRef) (reason : BranchReason) (line : UInt64)
    (left right : Option Note) (a : Face) :
    (Face.fork path new reason line left right a).contract =
      Face.fork path new reason line left right a := by
  unfold Face.fork
  split <;> rfl

lemma isEmpty_fork (path new : PathRef) (reason : BranchReason) (line : UInt64)
    (left right : Option Note) (a : Face) :
    (Face.fork path new reason line left right a).isEmpty = false := by
  unfold Face.fork
  split <;> rfl

theorem move_contracted (p : Portrait) (m : Move) :
    p.contracted.move true m = (p.move false m).contracted := by
  cases m with
  | fork path left reason =>
    have hgrow : ∀ (new : PathRef) (line : UInt64) (l r : Option Note),
        p.shape.contract.grow (Face.fork path new reason line l r) =
          (p.shape.grow (Face.fork path new reason line l r)).contract := by
      intro new line l r
      rw [contract_grow fun a _ => isEmpty_fork _ _ _ _ _ _ a]
      exact grow_congr fun a _ => (contract_fork _ _ _ _ _ _ a).symm
    simp only [move, contracted, ← hgrow]
    rfl
  | terminate path =>
    simp [move, contracted, contract_prune_contract]
  | setKind path kind =>
    simp only [move, contracted, map_contract]
  | update path state => rfl

theorem record?_contracted (p : Portrait) (m : Move) : p.contracted.record? m = p.record? m := by
  have hnote : ∀ path, p.contracted.noteOf? path = p.noteOf? path := by
    intro path
    rw [noteOf?, contracted, leaves_contract, noteOf?]
  cases m with
  | fork path left reason =>
    simp only [record?, hnote]
    rfl
  | terminate path =>
    simp only [record?, hnote]
    rfl
  | setKind | update => rfl

end Portrait

namespace Session

variable {σ : Type} {hash : Digest.Hash} {storage : Storage σ}

lemma succeeds_append {x : Session σ} {before rest : List Call} :
    x.Succeeds hash storage (before ++ rest) ↔
      x.Succeeds hash storage before ∧ (x.after hash storage before).Succeeds hash storage rest := by
  induction before generalizing x with
  | nil => exact ⟨fun h => ⟨trivial, h⟩, fun h => h.2⟩
  | cons call before ih =>
    simp only [List.cons_append, Succeeds, ih, and_assoc]
    rfl

/-- A plain and a compressing session that nothing tells apart. -/
structure Twins (x y : Session σ) (t u : Tree) (s v : Shape Cell) : Prop where
  plain : x.Shows t s
  compressing : y.Shows u v
  compress_eq_false : t.compress = false
  compress_eq_true : u.compress = true
  portrait_eq : y.portrait u v = (x.portrait t s).contracted
  writer_eq : x.writer? = y.writer?
  storage_eq : x.storage = y.storage

section

variable {x y : Session σ} {t u : Tree} {s v : Shape Cell}

lemma Twins.frontier_eq (h : Twins x y t u s v) : x.frontier = y.frontier := by
  rw [h.plain.frontier_portrait, h.compressing.frontier_portrait, h.portrait_eq, Portrait.contracted,
    leaves_contract]

lemma Twins.fits (h : Twins x y t u s v) {m : Move} (hm : m.Fits x) : m.Fits y := by
  cases m with
  | fork | terminate | setKind =>
    simp only [Move.Fits] at hm ⊢
    rwa [← h.frontier_eq]
  | update => trivial

/-- A compressing tree has one node fewer than twice its leaves. -/
lemma Twins.size_eq (h : Twins x y t u s v) : u.size = 2 * x.frontier.length - 1 := by
  have hleaves : y.frontier.length = v.leaves.length := by
    rw [h.compressing.frontier_eq, List.length_filterMap_eq_countP, List.countP_eq_length]
    exact fun c hc => h.compressing.shows.bookmarked.of_mem_leaves hc
  have hfull := h.compressing.shows.full h.compress_eq_true
  rw [h.frontier_eq, hleaves, h.compressing.shows.size_eq]
  cases hv : v.isEmpty with
  | true =>
    rw [Shape.isEmpty_iff.1 hv]
    rfl
  | false =>
    have := hfull.size_eq hv
    omega

lemma Twins.move (h : Twins x y t u s v) {m : Move} (hm : m.Fits x)
    (hx : (x.after hash storage (m.calls x)).slots ≤ UInt32.size)
    (hy : (y.after hash storage (m.calls y)).slots ≤ UInt32.size) :
    (∃ t u s v, Twins (x.after hash storage (m.calls x)) (y.after hash storage (m.calls y)) t u s v) ∧
      x.Succeeds hash storage (m.calls x) ∧ y.Succeeds hash storage (m.calls y) ∧
      x.records hash storage (m.calls x) = y.records hash storage (m.calls y) := by
  have hmoved := h.plain.move hm hx
  have hmoved' := h.compressing.move (h.fits hm) hy
  rw [h.compress_eq_false] at hmoved
  rw [h.compress_eq_true, h.portrait_eq, Portrait.move_contracted, Portrait.record?_contracted] at hmoved'
  obtain ⟨t', s', hshows, hcompress, hportrait⟩ := hmoved.exists_shows
  obtain ⟨u', v', hshows', hcompress', hportrait'⟩ := hmoved'.exists_shows
  have hlog := after_log hash storage x (m.calls x)
  have hlog' := after_log hash storage y (m.calls y)
  rw [hmoved.requests_eq] at hlog
  rw [hmoved'.requests_eq, ← h.writer_eq, ← h.storage_eq, ← hlog, Prod.mk.injEq] at hlog'
  refine ⟨⟨t', u', s', v', hshows, hshows', ?_, ?_, ?_, hlog'.1.symm, hlog'.2.symm⟩,
    hmoved.succeeds, hmoved'.succeeds, ?_⟩
  · exact hcompress.trans h.compress_eq_false
  · exact hcompress'.trans h.compress_eq_true
  · rw [hportrait', hportrait]
  · rw [hmoved.records_eq, hmoved'.records_eq]

lemma Twins.moves (h : Twins x y t u s v) (moves : List Move)
    (hfollows : x.Follows hash storage moves)
    (hx : (x.after hash storage (x.callsOf hash storage moves)).slots ≤ UInt32.size)
    (hy : (y.after hash storage (y.callsOf hash storage moves)).slots ≤ UInt32.size) :
    (∃ t u s v, Twins (x.after hash storage (x.callsOf hash storage moves))
        (y.after hash storage (y.callsOf hash storage moves)) t u s v) ∧
      x.Succeeds hash storage (x.callsOf hash storage moves) ∧
      y.Succeeds hash storage (y.callsOf hash storage moves) ∧
      x.records hash storage (x.callsOf hash storage moves) =
        y.records hash storage (y.callsOf hash storage moves) := by
  induction moves generalizing x y t u s v with
  | nil => exact ⟨⟨t, u, s, v, h⟩, trivial, trivial, rfl⟩
  | cons m moves ih =>
    obtain ⟨hm, hrest⟩ := hfollows
    simp only [callsOf, after_append, succeeds_append, records_append] at hx hy ⊢
    obtain ⟨w, hw, _⟩ := exists_tree_after hash storage h.plain.tree_eq (m.calls x)
    obtain ⟨w', hw', _⟩ := exists_tree_after hash storage h.compressing.tree_eq (m.calls y)
    obtain ⟨⟨t', u', s', v', htwins⟩, hok, hok', hrecords⟩ := h.move hm
      (Nat.le_trans (slots_le_after hash storage hw _) hx)
      (Nat.le_trans (slots_le_after hash storage hw' _) hy)
    obtain ⟨hlater, hoks, hoks', hmore⟩ := ih htwins hrest hx hy
    exact ⟨hlater, ⟨hok, hoks⟩, ⟨hok', hoks'⟩, by rw [hrecords, hmore]⟩

end

/-! ### Sessions that start alike -/

lemma create_start (hash : Digest.Hash) (storage : Storage σ) (config : Config) {inMemory : Bool}
    (hkept : config.persist = true ∨ inMemory = true) (run : RunId) (path : PathRef) (pool : Pool)
    (s : σ) :
    (create hash storage config inMemory run path pool s).tracker.tree? =
        some (Tree.start path config.compress config.persist pool).1 ∧
      (create hash storage config inMemory run path pool s).pool =
        (Tree.start path config.compress config.persist pool).2 := by
  cases hp : config.persist with
  | true =>
    rw [create_of_persist hash storage config hp]
    exact ⟨rfl, rfl⟩
  | false =>
    have hmemory : inMemory = true := by simpa [hp] using hkept
    rw [hmemory, create_of_inMemory hash storage config hp]
    exact ⟨rfl, rfl⟩

lemma exists_shows_create (hash : Digest.Hash) (storage : Storage σ) (config : Config) {inMemory : Bool}
    (hkept : config.persist = true ∨ inMemory = true) (run : RunId) {path : PathRef} {pool : Pool}
    (hpath : pool.isAlive path = true) (s : σ) :
    ∃ t c, (create hash storage config inMemory run path pool s).Shows t (leaf c) ∧
      t.compress = config.compress ∧
      (create hash storage config inMemory run path pool s).portrait t (leaf c) =
        ⟨leaf ⟨some path, (Tree.bare config.compress config.persist).noteAfter 0⟩, config.persist,
          if config.persist then 2 else 1, pool.unplaced⟩ := by
  obtain ⟨htree, hpool⟩ := create_start hash storage config hkept run path pool s
  obtain ⟨key, hset, hshows⟩ := Tree.shows_start path config.compress config.persist pool
  refine ⟨_, _, ⟨htree, hshows, ?_⟩, rfl, ?_⟩
  · intro d hd
    rw [leaves_leaf, List.mem_singleton] at hd
    rw [hd, hpool, hset]
    exact ⟨path, rfl, Pool.leafOf?_setNode_self hpath _⟩
  · rw [portrait, hpool, hset, Pool.unplaced_setNode]
    cases config.persist <;> rfl

/-- How a log is opened and started does not depend on whether single children are elided. -/
lemma create_log_eq (hash : Digest.Hash) (storage : Storage σ) (config : Config) {inMemory : Bool}
    (hkept : config.persist = true ∨ inMemory = true) (run : RunId) (path : PathRef) (pool : Pool)
    (s : σ) (compress : Bool) :
    let x := create hash storage { config with compress } inMemory run path pool s
    let y := create hash storage config inMemory run path pool s
    x.writer? = y.writer? ∧ x.storage = y.storage ∧
      x.tracker.tree?.bind Recorded.rootRecord? = y.tracker.tree?.bind Recorded.rootRecord? := by
  rcases Bool.eq_false_or_eq_true config.persist with hp | hp
  · rw [create_of_persist hash storage config hp,
      create_of_persist hash storage { config with compress } hp]
    exact ⟨rfl, rfl, rfl⟩
  · have hmemory : inMemory = true := by simpa [hp] using hkept
    rw [hmemory, create_of_inMemory hash storage config hp,
      create_of_inMemory hash storage { config with compress } hp]
    exact ⟨rfl, rfl, rfl⟩

lemma exists_twins (hash : Digest.Hash) (storage : Storage σ) (config : Config) {inMemory : Bool}
    (hkept : config.persist = true ∨ inMemory = true) (run : RunId) {path : PathRef} {pool : Pool}
    (hpath : pool.isAlive path = true) (s : σ) :
    ∃ t u w v, Twins (create hash storage { config with compress := false } inMemory run path pool s)
      (create hash storage { config with compress := true } inMemory run path pool s) t u w v := by
  obtain ⟨t, c, ht, hcompress, hportrait⟩ :=
    exists_shows_create hash storage { config with compress := false } hkept run hpath s
  obtain ⟨u, d, hu, hcompress', hportrait'⟩ :=
    exists_shows_create hash storage { config with compress := true } hkept run hpath s
  obtain ⟨hwriter, hstorage, _⟩ := create_log_eq hash storage config hkept run path pool s false
  obtain ⟨hwriter', hstorage', _⟩ := create_log_eq hash storage config hkept run path pool s true
  refine ⟨t, u, leaf c, leaf d, ht, hu, hcompress, hcompress', ?_, hwriter.trans hwriter'.symm,
    hstorage.trans hstorage'.symm⟩
  rw [hportrait, hportrait']
  rfl

/-- The engine cannot tell whether single children are elided. Moves that fork or end paths on the
frontier of the plain session succeed on both sides, lead to the same frontier, make the same records,
and leave the log and its storage the same. The compressing tree has one node fewer than twice its
leaves, and none without leaves. The bounds are the number of slot numbers. -/
theorem compression_unobservable (hash : Digest.Hash) (storage : Storage σ) (config : Config)
    (inMemory : Bool) (run : RunId) (path : PathRef) (pool : Pool) (s : σ) (moves : List Move)
    (hkept : config.persist = true ∨ inMemory = true) (hpath : pool.isAlive path = true) :
    let x := create hash storage { config with compress := false } inMemory run path pool s
    let y := create hash storage { config with compress := true } inMemory run path pool s
    let calls := x.callsOf hash storage moves
    let calls' := y.callsOf hash storage moves
    x.Follows hash storage moves →
    (x.after hash storage calls).slots ≤ UInt32.size →
    (y.after hash storage calls').slots ≤ UInt32.size →
      x.Succeeds hash storage calls ∧ y.Succeeds hash storage calls' ∧
      (x.after hash storage calls).frontier = (y.after hash storage calls').frontier ∧
      x.emitted hash storage calls = y.emitted hash storage calls' ∧
      (x.after hash storage calls).writer? = (y.after hash storage calls').writer? ∧
      (x.after hash storage calls).storage = (y.after hash storage calls').storage ∧
      ∃ u, (y.after hash storage calls').tracker.tree? = some u ∧
        u.size = 2 * (y.after hash storage calls').frontier.length - 1 := by
  intro x y calls calls' hfollows hx hy
  obtain ⟨t, u, w, v, htwins⟩ := exists_twins hash storage config hkept run hpath s
  obtain ⟨⟨t', u', w', v', hlater⟩, hok, hok', hrecords⟩ := htwins.moves moves hfollows hx hy
  refine ⟨hok, hok', hlater.frontier_eq, ?_, hlater.writer_eq, hlater.storage_eq, u',
    hlater.compressing.tree_eq, ?_⟩
  · rw [emitted, emitted, hrecords]
    obtain ⟨_, _, hroot⟩ := create_log_eq hash storage config hkept run path pool s false
    obtain ⟨_, _, hroot'⟩ := create_log_eq hash storage config hkept run path pool s true
    rw [hroot, hroot']
  · rw [hlater.size_eq, hlater.frontier_eq]

/-- Two forks and the end of the path in between, which the plain tree keeps a single child for. -/
theorem compression_unobservable_after_end :
    let hash : Digest.Hash := fun _ => ⟨List.replicate 32 0, rfl⟩
    let create := fun compress => create hash Storage.memory { Config.default with compress } true
      default ⟨0⟩ ⟨#[some (.fresh ⟨1⟩)]⟩ .empty
    let moves : List Move :=
      [.fork ⟨0⟩ (.fresh ⟨2⟩) .conditional, .fork ⟨0⟩ (.fresh ⟨3⟩) .switch, .terminate ⟨2⟩]
    let calls := (create false).callsOf hash Storage.memory moves
    let calls' := (create true).callsOf hash Storage.memory moves
    (create false).Follows hash Storage.memory moves ∧
      ((create false).after hash Storage.memory calls).slots ≤ UInt32.size ∧
      ((create true).after hash Storage.memory calls').slots ≤ UInt32.size ∧
      ((create false).after hash Storage.memory calls).frontier =
        ((create true).after hash Storage.memory calls').frontier := by
  intro hash create moves calls calls'
  have hfollows : (create false).Follows hash Storage.memory moves := by decide
  have hplain : ((create false).after hash Storage.memory calls).slots ≤ UInt32.size := by decide
  have hsmall : ((create true).after hash Storage.memory calls').slots ≤ UInt32.size := by decide
  exact ⟨hfollows, hplain, hsmall, (compression_unobservable hash Storage.memory Config.default true
    default ⟨0⟩ ⟨#[some (.fresh ⟨1⟩)]⟩ .empty moves (.inr rfl) rfl hfollows hplain hsmall).2.2.1⟩

end Session

end ForkTree
