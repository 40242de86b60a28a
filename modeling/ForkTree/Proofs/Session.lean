import ForkTree.Proofs.LiveWalks
import ForkTree.Tracker

/-!
Runs of an engine against a tracker. A session holds the tracker, the paths and the storage, and takes
one call after the other; between two calls the engine may leave any paths behind. `Call.onTree` is the
part of a call that the live tree sees, whatever form of tracker keeps it (`step_onTree`). From it come
the invariant of a step (`Tree.Shows.onTree`) and of a run (`Session.exists_shows`), and that a run of
calls, refused ones included, never spoils the tree (`check_after`).
-/

namespace ForkTree

structure Session (σ : Type) where
  tracker : Tracker
  pool : Pool
  storage : σ

namespace Session

/-- What an engine asks of a tracker, or does with its paths between two calls. -/
inductive Call where
  | attach (key : NodeKey) (left right : PathRef) (reason : BranchReason)
  | remove (key : NodeKey)
  | setKind (path : PathState) (kind : TerminationKind)
  | claimMask
  | commit
  | dump (exporter : Exporter)
  | engine (pool : Pool)

variable {σ : Type}

/-- Take one call while the engine uses its paths in the given way. -/
def step (hash : Digest.Hash) (storage : Storage σ) (uses : Uses) (x : Session σ) :
    Call → Except Tree.Fault Unit × Session σ
  | .attach key left right reason =>
    let o := x.tracker.attach hash storage x.pool uses key left right reason x.storage
    (o.result, ⟨o.tracker, o.pool, o.storage⟩)
  | .remove key =>
    let o := x.tracker.remove hash storage x.pool uses key x.storage
    (o.result, ⟨o.tracker, o.pool, o.storage⟩)
  | .setKind path kind => (.ok (), { x with tracker := x.tracker.setKind path kind })
  | .claimMask => (.ok (), { x with tracker := x.tracker.claimMask.2 })
  | .commit =>
    match x.tracker with
    | .recorded t =>
      let (t, s) := t.commit hash storage x.storage
      (.ok (), ⟨.recorded t, x.pool, s⟩)
    | _ => (.ok (), x)
  | .dump exporter =>
    let (tracker, _, s) := x.tracker.dump hash storage x.pool uses exporter x.storage
    (.ok (), ⟨tracker, x.pool, s⟩)
  | .engine pool => (.ok (), { x with pool })

/-- Take calls one after the other, with no path in use during any of them. -/
def after (hash : Digest.Hash) (storage : Storage σ) (x : Session σ) (calls : List Call) :
    Session σ :=
  calls.foldl (fun x call => (x.step hash storage .none call).2) x

/-- The session on the tracker that a configuration selects. -/
def create (hash : Digest.Hash) (storage : Storage σ) (config : Config) (inMemory : Bool)
    (run : RunId) (path : PathRef) (pool : Pool) (s : σ) : Session σ :=
  let (tracker, pool, s) := Tracker.create hash storage config inMemory run path pool s
  ⟨tracker, pool, s⟩

/-- The session on a new live tree that is not recorded. -/
def live (path : PathRef) (compress : Bool) (pool : Pool) (s : σ) : Session σ :=
  ⟨.live (Tree.start path compress false pool).1, (Tree.start path compress false pool).2, s⟩

/-- The number of slots that the live tree has in use or had before. -/
def slots (x : Session σ) : Nat := (x.tracker.tree?.map fun t => t.nodes.slots.size).getD 0

namespace Call

/-- What a call does to the live tree and the paths. -/
def onTree (uses : Uses) (t : Tree) (pool : Pool) : Call → Tree.Outcome Unit
  | attach key left right reason =>
    let o := t.attach pool uses key left right reason
    ⟨o.result.map fun _ => (), o.tree, o.pool⟩
  | remove key =>
    let o := t.remove pool uses key
    ⟨o.result.map fun _ => (), o.tree, o.pool⟩
  | setKind path kind => ⟨.ok (), t.setKind path kind, pool⟩
  | claimMask => ⟨.ok (), t.claimMask.2, pool⟩
  | engine pool => ⟨.ok (), t, pool⟩
  | _ => ⟨.ok (), t, pool⟩

/-- The precondition of a call that does not hold. -/
def refusal? (t : Tree) (pool : Pool) : Call → Option Tree.Fault
  | attach key _ right _ => t.attachRefusal? pool key right
  | remove key => t.removeRefusal? key
  | _ => none

end Call

end Session

namespace Recorded

variable {σ : Type}

@[simp]
lemma tree_log (hash : Digest.Hash) (storage : Storage σ) (record : Log.Record) (t : Recorded)
    (s : σ) : (t.log hash storage record s).1.tree = t.tree := by
  unfold log
  split <;> rfl

@[simp]
lemma tree_logAll (hash : Digest.Hash) (storage : Storage σ) (records : Option Log.Record)
    (t : Recorded) (s : σ) : (logAll hash storage records t s).1.tree = t.tree := by
  cases records with
  | none => rfl
  | some record => exact tree_log hash storage record t s

@[simp]
lemma tree_commit (hash : Digest.Hash) (storage : Storage σ) (t : Recorded) (s : σ) :
    (t.commit hash storage s).1.tree = t.tree := by
  unfold commit
  split <;> rfl

end Recorded

namespace Session

variable {σ : Type}

/-- Every form of tracker that keeps a live tree takes a call as the live tree does. -/
theorem step_onTree (hash : Digest.Hash) (storage : Storage σ) (uses : Uses) {x : Session σ} {t : Tree}
    (h : x.tracker.tree? = some t) (call : Call) :
    (x.step hash storage uses call).1 = (call.onTree uses t x.pool).result ∧
      (x.step hash storage uses call).2.tracker.tree? = some (call.onTree uses t x.pool).tree ∧
      (x.step hash storage uses call).2.pool = (call.onTree uses t x.pool).pool := by
  obtain ⟨tracker, pool, s⟩ := x
  cases tracker with
  | idle => cases h
  | live u =>
    cases h
    cases call <;> exact ⟨rfl, rfl, rfl⟩
  | recorded r =>
    cases h
    cases call with
    | attach key left right reason =>
      simp only [step, Tracker.attach, Recorded.attach, Call.onTree]
      rcases r.tree.attach pool uses key left right reason with ⟨_ | ⟨l, r⟩, u, q⟩
      · exact ⟨rfl, rfl, rfl⟩
      · refine ⟨rfl, ?_, rfl⟩
        simp [Tracker.tree?]
    | remove key =>
      simp only [step, Tracker.remove, Recorded.remove, Call.onTree]
      rcases r.tree.remove pool uses key with ⟨_ | note, u, q⟩
      · exact ⟨rfl, rfl, rfl⟩
      · refine ⟨rfl, ?_, rfl⟩
        simp [Tracker.tree?]
    | commit =>
      refine ⟨rfl, ?_, rfl⟩
      simp [step, Tracker.tree?, Call.onTree]
    | dump exporter =>
      refine ⟨rfl, ?_, rfl⟩
      simp [step, Tracker.dump, Tracker.tree?, Call.onTree]
    | setKind | claimMask | engine => exact ⟨rfl, rfl, rfl⟩

/-- A tracker keeps its form. -/
lemma step_live (hash : Digest.Hash) (storage : Storage σ) (uses : Uses) {x : Session σ} {t : Tree}
    (h : x.tracker = .live t) (call : Call) :
    (x.step hash storage uses call).2.tracker = .live (call.onTree uses t x.pool).tree := by
  obtain ⟨tracker, pool, s⟩ := x
  cases h
  cases call <;> rfl

end Session

namespace Tree

/-- Removing takes nodes away but no slots. -/
lemma slots_size_remove (t : Tree) (pool : Pool) (key : NodeKey) :
    (t.remove pool .none key).tree.nodes.slots.size = t.nodes.slots.size := by
  cases hrefused : t.removeRefusal? key with
  | some fault => rw [remove_refused hrefused]
  | none =>
    obtain ⟨n, live, hleaf⟩ := removeRefusal?_eq_none hrefused
    rw [remove_eq live hleaf]
    exact congrArg (·.2.2.2.2) ((takesOut_takeOut _ key).settings_eq.trans (settings_modify t key _))

/-- A call may add slots and takes none away. -/
lemma slots_size_onTree (t : Tree) (pool : Pool) (call : Session.Call) :
    t.nodes.slots.size ≤ (call.onTree .none t pool).tree.nodes.slots.size := by
  cases call with
  | attach key left right reason => exact slots_size_attach t pool key left right reason
  | remove key => exact Nat.le_of_eq (slots_size_remove t pool key).symm
  | setKind path kind =>
    simp only [Session.Call.onTree, setKind]
    split
    · simp [modify]
    · exact Nat.le_refl _
  | claimMask | commit | dump | engine => exact Nat.le_refl _

/-- A call whose precondition does not hold changes nothing. -/
theorem onTree_refused {t : Tree} {pool : Pool} {call : Session.Call} {fault : Fault}
    (h : call.refusal? t pool = some fault) : call.onTree .none t pool = ⟨.error fault, t, pool⟩ := by
  cases call with
  | attach key left right reason =>
    simp only [Session.Call.onTree, attach_refused h]
    rfl
  | remove key =>
    simp only [Session.Call.onTree, remove_refused h]
    rfl
  | setKind | claimMask | commit | dump | engine => cases h

/-- Any other call succeeds and keeps the invariant. -/
theorem Shows.onTree {t : Tree} {s : Shape Cell} (h : t.Shows s) {pool : Pool} {call : Session.Call}
    (hcall : call.refusal? t pool = none)
    (hsmall : (call.onTree .none t pool).tree.nodes.slots.size ≤ UInt32.size) :
    (call.onTree .none t pool).result = .ok () ∧
      (call.onTree .none t pool).tree.compress = t.compress ∧
      ∃ s, (call.onTree .none t pool).tree.Shows s := by
  cases call with
  | attach key left right reason =>
    obtain ⟨n, live, hleaf, hright⟩ := attachRefusal?_eq_none hcall
    obtain ⟨c, hc, rfl⟩ := h.exists_leaf live hleaf
    obtain ⟨l, r, u, heq, hu⟩ := h.attach hc hright left reason hsmall
    simp only [Session.Call.onTree, heq]
    exact ⟨rfl, hu.compress_eq, _, hu.shows⟩
  | remove key =>
    obtain ⟨n, live, hleaf⟩ := removeRefusal?_eq_none hcall
    obtain ⟨c, hc, rfl⟩ := h.exists_leaf live hleaf
    obtain ⟨path, hpath⟩ := Option.isSome_iff_exists.1 (h.bookmarked.of_mem_leaves hc)
    obtain ⟨u, heq, hu, hsettings⟩ := h.remove hc hpath pool
    simp only [Session.Call.onTree, heq]
    exact ⟨rfl, congrArg (·.1) hsettings, _, hu⟩
  | setKind path kind =>
    obtain ⟨hu, hsettings⟩ := h.setKind path kind
    exact ⟨rfl, congrArg (·.1) hsettings, _, hu⟩
  | claimMask => exact ⟨rfl, rfl, s, h.congr rfl rfl rfl⟩
  | commit | dump | engine => exact ⟨rfl, rfl, s, h⟩

end Tree

/-! ### Runs -/

namespace Session

variable {σ : Type} (hash : Digest.Hash) (storage : Storage σ)

lemma after_append (x : Session σ) (before rest : List Call) :
    x.after hash storage (before ++ rest) = (x.after hash storage before).after hash storage rest :=
  List.foldl_append

lemma slots_eq {x : Session σ} {t : Tree} (h : x.tracker.tree? = some t) :
    x.slots = t.nodes.slots.size := by
  rw [slots, h]
  rfl

lemma exists_tree_after {x : Session σ} {t : Tree} (h : x.tracker.tree? = some t)
    (calls : List Call) :
    ∃ u, (x.after hash storage calls).tracker.tree? = some u ∧
      t.nodes.slots.size ≤ u.nodes.slots.size := by
  induction calls generalizing x t with
  | nil => exact ⟨t, h, Nat.le_refl _⟩
  | cons call calls ih =>
    obtain ⟨_, htree, _⟩ := step_onTree hash storage .none h call
    obtain ⟨u, hu, hle⟩ := ih htree
    exact ⟨u, hu, Nat.le_trans (Tree.slots_size_onTree t x.pool call) hle⟩

/-- A session has no more slots at an earlier point. -/
lemma slots_le_after {x : Session σ} {t : Tree} (h : x.tracker.tree? = some t) (calls : List Call) :
    x.slots ≤ (x.after hash storage calls).slots := by
  obtain ⟨u, hu, hle⟩ := exists_tree_after hash storage h calls
  rwa [slots_eq h, slots_eq hu]

/-- The invariant holds after any calls, refused ones included, while there are enough slots. -/
theorem exists_shows {x : Session σ} {t : Tree} {s : Shape Cell} (htree : x.tracker.tree? = some t)
    (hs : t.Shows s) (calls : List Call)
    (hsmall : (x.after hash storage calls).slots ≤ UInt32.size) :
    ∃ u s, (x.after hash storage calls).tracker.tree? = some u ∧ u.compress = t.compress ∧
      u.Shows s := by
  induction calls generalizing x t s with
  | nil => exact ⟨t, s, htree, rfl, hs⟩
  | cons call calls ih =>
    obtain ⟨_, hstep, _⟩ := step_onTree hash storage .none htree call
    have hslots := Nat.le_trans (slots_le_after hash storage hstep calls) hsmall
    rw [slots_eq hstep] at hslots
    cases hrefused : call.refusal? t x.pool with
    | some fault =>
      rw [Tree.onTree_refused hrefused] at hstep
      exact ih hstep hs hsmall
    | none =>
      obtain ⟨_, hcompress, s', hs'⟩ := hs.onTree hrefused hslots
      obtain ⟨u, s'', hu, hsame, hshows⟩ := ih hstep hs' hsmall
      exact ⟨u, s'', hu, hsame.trans hcompress, hshows⟩

lemma exists_live_after {x : Session σ} {t : Tree} (h : x.tracker = .live t) (calls : List Call) :
    ∃ u, (x.after hash storage calls).tracker = .live u := by
  induction calls generalizing x t with
  | nil => exact ⟨t, h⟩
  | cons call calls ih => exact ih (step_live hash storage .none h call)

lemma step_live_refused {x : Session σ} {t : Tree} (h : x.tracker = .live t) {call : Call}
    {fault : Tree.Fault} (hrefused : call.refusal? t x.pool = some fault) :
    x.step hash storage .none call = (.error fault, x) := by
  have heq := Tree.onTree_refused hrefused
  obtain ⟨tracker, pool, s⟩ := x
  cases h
  cases call with
  | attach key left right reason =>
    simp only [Call.refusal?] at hrefused
    simp only [step, Tracker.attach, Tree.attach_refused hrefused]
    rfl
  | remove key =>
    simp only [Call.refusal?] at hrefused
    simp only [step, Tracker.remove, Tree.remove_refused hrefused]
    rfl
  | setKind | claimMask | commit | dump | engine => cases hrefused

/-- Whatever calls a new live tree takes, its check finds nothing after any of them, and each call
either is refused because its precondition does not hold, and then changes nothing, or succeeds. The
bound is the number of slot numbers. -/
theorem check_after (hash : Digest.Hash) (storage : Storage σ) (path : PathRef) (compress : Bool)
    (pool : Pool) (s : σ) (calls : List Call)
    (hsmall : ((live path compress pool s).after hash storage calls).slots ≤ UInt32.size) :
    (∃ t shape, ((live path compress pool s).after hash storage calls).tracker = .live t ∧
      t.compress = compress ∧ t.check = .ok () ∧ t.Holds shape) ∧
    ∀ before call rest, calls = before ++ call :: rest →
      let x := (live path compress pool s).after hash storage before
      ∃ t, x.tracker = .live t ∧
        ((∃ fault, call.refusal? t x.pool = some fault ∧
            x.step hash storage .none call = (.error fault, x)) ∨
          (call.refusal? t x.pool = none ∧ (x.step hash storage .none call).1 = .ok ())) := by
  obtain ⟨key, _, hstart⟩ := Tree.shows_start path compress false pool
  have htree : (live path compress pool s).tracker.tree? =
      some (Tree.start path compress false pool).1 := rfl
  constructor
  · obtain ⟨u, shape, hu, hcompress, hshows⟩ := exists_shows hash storage htree hstart calls hsmall
    obtain ⟨v, hv⟩ := exists_live_after hash storage (x := live path compress pool s) rfl calls
    rw [hv] at hu
    cases hu
    obtain ⟨nodes, _, hholds⟩ := hshows.holds
    exact ⟨u, nodes, hv, hcompress, hholds.check, hholds⟩
  · rintro before call rest rfl
    obtain ⟨t, ht⟩ := exists_live_after hash storage (x := live path compress pool s) rfl before
    have htree' : ((live path compress pool s).after hash storage before).tracker.tree? = some t := by
      rw [ht]
      rfl
    obtain ⟨_, hstep, _⟩ := step_onTree hash storage .none htree' call
    rw [after_append] at hsmall
    have hslots := Nat.le_trans (slots_le_after hash storage hstep rest) hsmall
    have hbefore := Nat.le_trans (slots_le_after hash storage htree' (call :: rest)) hsmall
    refine ⟨t, ht, ?_⟩
    cases hrefused : call.refusal? t ((live path compress pool s).after hash storage before).pool with
    | some fault => exact .inl ⟨fault, rfl, step_live_refused hash storage ht hrefused⟩
    | none =>
      obtain ⟨u, shape, hu, _, hshows⟩ := exists_shows hash storage htree hstart before hbefore
      rw [htree'] at hu
      cases hu
      rw [slots_eq hstep] at hslots
      obtain ⟨hok, _⟩ := hshows.onTree hrefused hslots
      obtain ⟨hresult, _⟩ := step_onTree hash storage .none htree' call
      exact .inr ⟨rfl, hresult.trans hok⟩

/-- A fork, a refused call on the node that forked, and the end of the new path. -/
theorem check_after_fork_and_end :
    let x : Session Unit := live ⟨0⟩ true ⟨#[some (.fresh ⟨7⟩), some (.fresh ⟨8⟩)]⟩ ()
    let storage : Storage Unit :=
      ⟨fun _ s => (.ok (), s), fun _ _ s => (.ok (), s), fun _ _ _ _ => .ok [], fun _ _ => .ok 0,
        fun _ s => (.ok (), s)⟩
    let calls := [.attach ⟨0, 0⟩ ⟨1⟩ ⟨0⟩ .conditional, .remove ⟨0, 0⟩, .remove ⟨1, 0⟩]
    (x.after (fun _ => ⟨List.replicate 32 0, rfl⟩) storage calls).slots ≤ UInt32.size ∧
      ∃ t shape, (x.after (fun _ => ⟨List.replicate 32 0, rfl⟩) storage calls).tracker = .live t ∧
        t.compress = true ∧ t.check = .ok () ∧ t.Holds shape :=
  have hsmall := by decide
  ⟨hsmall, (check_after _ _ ⟨0⟩ true _ () _ hsmall).1⟩

end Session

end ForkTree
