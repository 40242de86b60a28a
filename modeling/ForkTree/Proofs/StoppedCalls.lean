import ForkTree.Digest.Blake3
import ForkTree.Proofs.UsedPaths
import ForkTree.Storage.Memory

/-!
What a call leaves behind that does not succeed, at any point of a run in which the engine keeps paths in
use. A call whose precondition does not hold changes nothing. A fork that comes upon a path in use has
added leaves by then without an edge to them, and may have told the left path where it is; an end that may
not read the path at its leaf has taken no node out. Nothing that stops reaches the log
(`Reachable.stops`). Where each call before it succeeded, there is nothing else that stops an end, since
the invariant of the live tree still holds (`Settled.exists_shows`); past a fork that stopped halfway an
end may come upon a node that is not there any more (`stop_is_felt`).
-/

namespace ForkTree

namespace Tree

/-- A tree with one more leaf; no edge was led to it. -/
structure Strays (t u : Tree) (parent : NodeKey) (path : PathRef) (key : NodeKey) : Prop where
  fresh : t.node? key = none
  node?_eq : ∀ other, u.node? other =
    if other = key then some (.leaf (some parent) path (t.noteAfter 0)) else t.node? other
  size_eq : u.size = t.size + 1
  root_eq : u.root = t.root
  nextId_eq : u.nextId = if t.recorded then t.nextId + 1 else t.nextId
  compress_eq : u.compress = t.compress
  recorded_eq : u.recorded = t.recorded
  masks_eq : u.masks = t.masks

lemma strays_insertLeaf {t : Tree} (h : t.nodes.IsValid) (parent : NodeKey) (path : PathRef)
    (hsmall : (t.insertLeaf (some parent) path).2.nodes.slots.size ≤ UInt32.size) :
    t.Strays (t.insertLeaf (some parent) path).2 parent path (t.insertLeaf (some parent) path).1 := by
  obtain ⟨hfresh, _, hsize, hnode⟩ := insertLeaf_spec h (some parent) path hsmall
  exact ⟨hfresh, hnode, hsize, rfl, rfl, rfl, rfl, rfl⟩

end Tree

lemma Recorded.tree_start {σ : Type} (hash : Digest.Hash) (storage : Storage σ) (path : PathRef)
    (compress : Bool) (writer : Option Log.Writer) (pool : Pool) (s : σ) :
    (Recorded.start hash storage path compress writer pool s).1.tree =
      (Tree.start path compress true pool).1 := by
  simp [Recorded.start]

namespace Session

variable {σ : Type}

/-- The session on a new recorded tree, whatever became of the log. -/
def recording (hash : Digest.Hash) (storage : Storage σ) (path : PathRef) (compress : Bool)
    (writer : Option Log.Writer) (pool : Pool) (s : σ) : Session σ :=
  let (t, pool, s) := Recorded.start hash storage path compress writer pool s
  ⟨.recorded t, pool, s⟩

/-- What runs lead to that start with a new live tree, with any paths in use during each call. -/
inductive Reachable (hash : Digest.Hash) (storage : Storage σ) : Session σ → Prop
  | live (path : PathRef) (compress : Bool) (pool : Pool) (s : σ) :
    Reachable hash storage (live path compress pool s)
  | recording (path : PathRef) (compress : Bool) (writer : Option Log.Writer) (pool : Pool) (s : σ) :
    Reachable hash storage (recording hash storage path compress writer pool s)
  | step {x : Session σ} (h : Reachable hash storage x) (uses : Uses) (call : Call) :
    Reachable hash storage (x.step hash storage uses call).2

/-- What runs lead to of which each call succeeds. A call that changes nothing may come in between. -/
inductive Settled (hash : Digest.Hash) (storage : Storage σ) : Session σ → Prop
  | live (path : PathRef) (compress : Bool) (pool : Pool) (s : σ) :
    Settled hash storage (live path compress pool s)
  | recording (path : PathRef) (compress : Bool) (writer : Option Log.Writer) (pool : Pool) (s : σ) :
    Settled hash storage (recording hash storage path compress writer pool s)
  | step {x : Session σ} (h : Settled hash storage x) (uses : Uses) (call : Call)
    (hok : (x.step hash storage uses call).1 = .ok ()) :
    Settled hash storage (x.step hash storage uses call).2

/-- The session with another live tree and other paths; the log is the same. -/
def withTree (x : Session σ) (t : Tree) (pool : Pool) : Session σ :=
  ⟨x.tracker.modifyTree fun _ => t, pool, x.storage⟩

/-- What a call can leave behind that stops with a fault. -/
inductive Stops (hash : Digest.Hash) (storage : Storage σ) (uses : Uses) (x : Session σ) (t : Tree) :
    Call → Tree.Fault → Session σ → Prop
  /-- A precondition does not hold. -/
  | refused {call : Call} {asserted fault : Tree.Fault} (hcall : call.refusal? t x.pool = some asserted)
    (hfault : fault = .busy ∨ fault = asserted) : Stops hash storage uses x t call fault x
  /-- Where the right path is cannot be seen. -/
  | unseen {key : NodeKey} {left right : PathRef} {reason : BranchReason}
    (hright : uses right = .writing) :
    Stops hash storage uses x t (.attach key left right reason) .busy x
  /-- The left path cannot be told where it is. -/
  | left {key : NodeKey} {left right : PathRef} {reason : BranchReason} {u : Tree} {l : NodeKey}
    (hcall : t.attachRefusal? x.pool key right = none) (hright : uses right ≠ .writing)
    (hleft : uses left ≠ .idle) (hu : t.Strays u key left l) :
    Stops hash storage uses x t (.attach key left right reason) .busy (x.withTree u x.pool)
  /-- The right path cannot be told where it is. -/
  | right {key : NodeKey} {left right : PathRef} {reason : BranchReason} {u v : Tree} {l r : NodeKey}
    (hcall : t.attachRefusal? x.pool key right = none) (hright : uses right = .reading)
    (hleft : uses left = .idle) (hu : t.Strays u key left l) (hv : u.Strays v key right r) :
    Stops hash storage uses x t (.attach key left right reason) .busy
      (x.withTree v (x.pool.setNode left (some l)))
  /-- The path that ends cannot be read. -/
  | blocked {key : NodeKey} {bookmark : Option PathRef} (h : t.isBlocked x.pool uses key = true) :
    Stops hash storage uses x t (.remove key) .busy
      (x.withTree (t.modify key ({ · with bookmark })) x.pool)
  /-- An earlier call stopped and left a node behind without those above it. -/
  | astray {key dead : NodeKey} {u : Tree} {pool : Pool} (hcall : t.removeRefusal? key = none)
    (hunsettled : ¬ Settled hash storage x) (hroot : u.root = t.root)
    (hsettings : u.settings = t.settings)
    (hpool : pool = x.pool ∨ ∃ path, pool = Tree.release x.pool uses key path) :
    Stops hash storage uses x t (.remove key) (.dead dead) (x.withTree u pool)

variable {hash : Digest.Hash} {storage : Storage σ} {uses : Uses} {x y : Session σ} {t : Tree}

lemma withTree_self (h : x.tracker.tree? = some t) : x.withTree t x.pool = x := by
  obtain ⟨tracker, pool, s⟩ := x
  cases tracker with
  | idle => cases h
  | live u => cases h; rfl
  | recorded r => cases h; rfl

/-- What stops a call does not reach the log. -/
lemma step_error (h : x.tracker.tree? = some t) {call : Call} {fault : Tree.Fault}
    (hstep : x.step hash storage uses call = (.error fault, y)) :
    (call.onTree uses t x.pool).result = .error fault ∧
      y = x.withTree (call.onTree uses t x.pool).tree (call.onTree uses t x.pool).pool := by
  obtain ⟨tracker, pool, s⟩ := x
  cases tracker with
  | idle => cases h
  | live u =>
    cases h
    cases call with
    | attach | remove =>
      simp only [step, Tracker.attach, Tracker.remove, Prod.mk.injEq] at hstep
      exact ⟨hstep.1, hstep.2.symm⟩
    | _ => cases hstep
  | recorded r =>
    cases h
    cases call with
    | attach key left right reason =>
      simp only [step, Tracker.attach, Recorded.attach, Call.onTree] at hstep ⊢
      generalize r.tree.attach pool uses key left right reason = o at *
      rcases o with ⟨fault' | ⟨l, r⟩, u, q⟩
      · cases hstep
        exact ⟨rfl, rfl⟩
      · cases hstep
    | remove key =>
      simp only [step, Tracker.remove, Recorded.remove, Call.onTree] at hstep ⊢
      generalize r.tree.remove pool uses key = o at *
      rcases o with ⟨fault' | note, u, q⟩
      · cases hstep
        exact ⟨rfl, rfl⟩
      · cases hstep
    | _ => cases hstep

lemma slots_le_step (h : x.tracker.tree? = some t) (uses : Uses) (call : Call) :
    x.slots ≤ (x.step hash storage uses call).2.slots := by
  obtain ⟨_, htree, _⟩ := step_onTree hash storage uses h call
  rw [slots_eq h, slots_eq htree]
  exact (Tree.keepsArena_onTree uses t x.pool call).slots_le

lemma tree?_recording (path : PathRef) (compress : Bool) (writer : Option Log.Writer) (pool : Pool)
    (s : σ) : (recording hash storage path compress writer pool s).tracker.tree? =
      some (Tree.start path compress true pool).1 :=
  congrArg some (Recorded.tree_start hash storage path compress writer pool s)

/-- The arena of a live tree is valid at every point of a run. -/
lemma Reachable.exists_tree (h : Reachable hash storage x) :
    ∃ t, x.tracker.tree? = some t ∧ t.nodes.IsValid := by
  induction h with
  | live path compress pool s =>
    obtain ⟨_, _, hshows⟩ := Tree.shows_start path compress false pool
    exact ⟨_, rfl, hshows.valid⟩
  | recording path compress writer pool s =>
    obtain ⟨_, _, hshows⟩ := Tree.shows_start path compress true pool
    exact ⟨_, tree?_recording path compress writer pool s, hshows.valid⟩
  | @step x h uses call ih =>
    obtain ⟨t, htree, hvalid⟩ := ih
    obtain ⟨_, hstep, _⟩ := step_onTree hash storage uses htree call
    exact ⟨_, hstep, (Tree.keepsArena_onTree uses t x.pool call).valid hvalid⟩

lemma Settled.reachable (h : Settled hash storage x) : Reachable hash storage x := by
  induction h with
  | live path compress pool s => exact .live path compress pool s
  | recording path compress writer pool s => exact .recording path compress writer pool s
  | step h uses call hok ih => exact ih.step uses call

/-- The invariant of the live tree holds as long as no call stopped halfway. -/
theorem Settled.exists_shows (h : Settled hash storage x) (hsmall : x.slots ≤ UInt32.size) :
    ∃ t s, x.tracker.tree? = some t ∧ t.Shows s := by
  induction h with
  | live path compress pool s =>
    obtain ⟨_, _, hshows⟩ := Tree.shows_start path compress false pool
    exact ⟨_, _, rfl, hshows⟩
  | recording path compress writer pool s =>
    obtain ⟨_, _, hshows⟩ := Tree.shows_start path compress true pool
    exact ⟨_, _, tree?_recording path compress writer pool s, hshows⟩
  | @step x h uses call hok ih =>
    obtain ⟨t, htree, _⟩ := h.reachable.exists_tree
    obtain ⟨u, s, hu, hshows⟩ := ih (Nat.le_trans (slots_le_step htree uses call) hsmall)
    obtain ⟨hresult, hstep, _⟩ := step_onTree hash storage uses hu call
    rw [slots_eq hstep] at hsmall
    obtain ⟨s', hs'⟩ := hshows.onTree_using (hresult.symm.trans hok) hsmall
    exact ⟨_, s', hstep, hs'⟩

/-! ### Calls that stop -/

lemma eq_error_of_map {α β ε : Type} {f : α → β} {result : Except ε α} {fault : ε}
    (h : result.map f = .error fault) : result = .error fault := by
  cases result with
  | error => cases h; rfl
  | ok => cases h

/-- A fork stops before it adds anything, at the left path or at the right one. -/
lemma stops_attach (htree : x.tracker.tree? = some t) (hvalid : t.nodes.IsValid) {key : NodeKey}
    {left right : PathRef} {reason : BranchReason} {fault : Tree.Fault}
    (hsmall : (t.attach x.pool uses key left right reason).tree.nodes.slots.size ≤ UInt32.size)
    (hresult : (t.attach x.pool uses key left right reason).result = .error fault) :
    let o := t.attach x.pool uses key left right reason
    Stops hash storage uses x t (.attach key left right reason) fault (x.withTree o.tree o.pool) := by
  intro o
  have hself := withTree_self htree
  rcases t.attach_cases x.pool uses key left right reason with
    ⟨asserted, fault', hrefused, hfault, heq⟩ | ⟨hallowed, hcases⟩
  · simp only [o, heq] at hresult ⊢
    cases hresult
    rw [hself]
    exact .refused hrefused hfault
  rcases hcases with ⟨hright, heq⟩ | ⟨hright, hleft, heq⟩ | ⟨hright, hleft, heq⟩ | ⟨_, _, heq⟩
  · simp only [o, heq] at hresult ⊢
    cases hresult
    rw [hself]
    exact .unseen hright
  · simp only [o, heq] at hresult hsmall ⊢
    cases hresult
    exact .left hallowed hright hleft (Tree.strays_insertLeaf hvalid key left hsmall)
  · simp only [o, heq] at hresult hsmall ⊢
    cases hresult
    -- The two leaves are added one after the other.
    have hu := Tree.strays_insertLeaf hvalid key left
      (Nat.le_trans (Tree.slots_size_insertLeaf _ _ _) hsmall)
    exact .right hallowed hright hleft hu (Tree.strays_insertLeaf (hvalid.insert _) key right hsmall)
  · rw [heq, Tree.attach_eq hallowed] at hresult
    cases hresult

/-- An end stops before it takes anything out, unless the invariant does not hold. -/
lemma stops_remove (htree : x.tracker.tree? = some t) {key : NodeKey} {fault : Tree.Fault}
    (hsmall : (t.remove x.pool uses key).tree.nodes.slots.size ≤ UInt32.size)
    (hresult : (t.remove x.pool uses key).result = .error fault) :
    let o := t.remove x.pool uses key
    Stops hash storage uses x t (.remove key) fault (x.withTree o.tree o.pool) := by
  intro o
  rcases t.remove_cases x.pool uses key with
    ⟨hblocked, _, heq⟩ | ⟨asserted, hrefused, heq⟩ | ⟨n, live, hleaf, hallowed, heq⟩
  · simp only [o, heq] at hresult ⊢
    cases hresult
    exact .blocked hblocked
  · have hcall : (Call.remove key).refusal? t x.pool = some asserted := hrefused
    simp only [o, heq] at hresult ⊢
    cases hresult
    rw [withTree_self htree]
    exact .refused hcall (.inr rfl)
  · have htaken := Tree.takesOut_takeOut (t.modify key ({ · with bookmark := none })) key
    have hsame := Tree.remove_eq live hleaf x.pool
    simp only [o, heq] at hresult hsmall ⊢
    generalize (t.modify key ({ · with bookmark := none })).takeOut key = taken at *
    obtain ⟨result, u⟩ := taken
    cases result with
    | ok => cases hresult
    | error stopped =>
      cases hresult
      obtain ⟨⟨dead, rfl⟩, hroot⟩ := htaken.stopped _ rfl
      have hsettings := htaken.settings_eq.trans (Tree.settings_modify t key _)
      refine .astray hallowed (fun hsettled => ?_) hroot hsettings ?hpool
      case hpool =>
        cases n.bookmark with
        | none => exact .inl rfl
        | some path => exact .inr ⟨path, rfl⟩
      -- While the invariant holds, nothing is missing above the leaf.
      have hslots : u.nodes.slots.size = t.nodes.slots.size := congrArg (·.2.2.2.2) hsettings
      obtain ⟨t', s, htree', hshows⟩ :=
        hsettled.exists_shows (by rw [slots_eq htree, ← hslots]; exact hsmall)
      cases htree.symm.trans htree'
      have hcall : (Call.remove key).refusal? t x.pool = none := hallowed
      obtain ⟨hok, _⟩ := hshows.onTree hcall (by simp only [Call.onTree, hsame]; exact hsmall)
      simp only [Call.onTree, hsame] at hok
      cases hok

/-- What a call leaves behind that stops, wherever a run has led to. -/
theorem Reachable.stops (h : Reachable hash storage x) {call : Call} {fault : Tree.Fault}
    (hstep : x.step hash storage uses call = (.error fault, y)) (hsmall : y.slots ≤ UInt32.size) :
    ∃ t, x.tracker.tree? = some t ∧ Stops hash storage uses x t call fault y := by
  obtain ⟨t, htree, hvalid⟩ := h.exists_tree
  obtain ⟨hresult, hy⟩ := step_error htree hstep
  obtain ⟨_, hafter, _⟩ := step_onTree hash storage uses htree call
  rw [hstep] at hafter
  rw [slots_eq hafter] at hsmall
  refine ⟨t, htree, hy ▸ ?_⟩
  cases call with
  | attach key left right reason =>
    refine stops_attach htree hvalid hsmall ?_
    simp only [Call.onTree] at hresult
    exact eq_error_of_map hresult
  | remove key =>
    refine stops_remove htree hsmall ?_
    simp only [Call.onTree] at hresult
    exact eq_error_of_map hresult
  | setKind | claimMask | commit | dump | engine => cases hresult

/-- A fork with the left path in use, on a tree that is recorded. -/
theorem stops_at_left_path :
    let hash := Digest.Blake3.digest
    let storage := Storage.memory
    let uses : Uses := fun r => if r = ⟨1⟩ then .reading else .idle
    let x := recording hash storage ⟨0⟩ true none ⟨#[some (.fresh ⟨7⟩), some (.fresh ⟨8⟩)]⟩ .empty
    let y := (x.step hash storage uses (.attach ⟨0, 0⟩ ⟨1⟩ ⟨0⟩ .conditional)).2
    Reachable hash storage x ∧
      x.step hash storage uses (.attach ⟨0, 0⟩ ⟨1⟩ ⟨0⟩ .conditional) = (.error .busy, y) ∧
      y.slots ≤ UInt32.size ∧
      ∃ t, x.tracker.tree? = some t ∧
        Stops hash storage uses x t (.attach ⟨0, 0⟩ ⟨1⟩ ⟨0⟩ .conditional) .busy y :=
  have hx := .recording _ _ _ _ _
  have hsmall := by decide
  ⟨hx, rfl, hsmall, hx.stops rfl hsmall⟩

/-- What a fork leaves behind that stops: a leaf without an edge to it, an id that is not used again, a path
that was told where it is; and, once the node is gone that was to fork, a leaf whose end stops after it was
taken out. -/
theorem stop_is_felt :
    let hash := Digest.Blake3.digest
    let storage := Storage.memory
    let reading (path : PathRef) : Uses := fun r => if r = path then .reading else .idle
    let x := recording hash storage ⟨0⟩ true none ⟨#[some (.fresh ⟨7⟩), some (.fresh ⟨8⟩)]⟩ .empty
    let fork (path : PathRef) :=
      x.step hash storage (reading path) (.attach ⟨0, 0⟩ ⟨1⟩ ⟨0⟩ .conditional)
    let ended := ((fork ⟨1⟩).2.step hash storage .none (.remove ⟨0, 0⟩)).2
    let again := ended.step hash storage .none (.remove ⟨1, 0⟩)
    let counts (y : Session Storage.Memory) := y.tracker.tree?.map fun t => (t.size, t.nextId)
    (fork ⟨1⟩).1 = .error .busy ∧ counts x = some (1, 2) ∧ counts (fork ⟨1⟩).2 = some (2, 3) ∧
      (fork ⟨0⟩).1 = .error .busy ∧ x.pool.get? ⟨1⟩ ≠ (fork ⟨0⟩).2.pool.get? ⟨1⟩ ∧
      again.1 = .error (.dead ⟨0, 0⟩) ∧ counts ended = some (1, 3) ∧ counts again.2 = some (0, 3) := by
  decide

end Session

end ForkTree
