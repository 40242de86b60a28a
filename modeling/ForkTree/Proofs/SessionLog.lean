import ForkTree.Proofs.Session
import ForkTree.Proofs.WriterRun

/-!
What a session hands to the log. A call makes at most one record, which is known from the live tree and
the paths alone (`Call.record?`), and its requests to the writer follow from that (`step_log`). So the
records of a run are a function of its calls, whatever becomes of them in the storage.
-/

namespace ForkTree

namespace Session

variable {σ : Type}

/-- The record of a fork by the notes of the node and of its children. -/
def forkRecord? (note left right : Option Note) (line : UInt64) (reason : BranchReason) :
    Option Log.Record := do
  return .branch (← note).id (← left).id (← right).id line reason

namespace Call

/-- The record that a call makes. -/
def record? (t : Tree) (pool : Pool) : Call → Option Log.Record
  | attach key left right reason =>
    match t.attach pool .none key left right reason with
    | ⟨.ok (leftKey, rightKey), u, _⟩ => Recorded.branchRecord? u key leftKey rightKey
    | _ => none
  | remove key =>
    match t.remove pool .none key with
    | ⟨.ok note, _, _⟩ => note.map Recorded.endRecord
    | _ => none
  | _ => none

/-- What a call asks of the writer. -/
def requests (t : Tree) (pool : Pool) : Call → List Log.Writer.Op
  | commit => [.commit true]
  | dump _ => [.commit true]
  | call => (call.record? t pool).toList.map .write

end Call

/-- The writer of the log, if the tree is recorded and a log could be opened. -/
def writer? (x : Session σ) : Option Log.Writer :=
  match x.tracker with
  | .recorded r => r.writer
  | _ => none

/-- What the log is after some requests. -/
def logAfter (hash : Digest.Hash) (storage : Storage σ) (writer : Option Log.Writer) (s : σ)
    (ops : List Log.Writer.Op) : Option Log.Writer × σ :=
  match writer with
  | none => (none, s)
  | some w => (some (w.serve hash storage ops s).1, (w.serve hash storage ops s).2)

def record? (x : Session σ) (call : Call) : Option Log.Record :=
  x.tracker.tree?.bind fun t => call.record? t x.pool

def requests (x : Session σ) (call : Call) : List Log.Writer.Op :=
  (x.tracker.tree?.map fun t => call.requests t x.pool).getD []

/-- The records of a run, in the order in which they are made. -/
def records (hash : Digest.Hash) (storage : Storage σ) : Session σ → List Call → List Log.Record
  | _, [] => []
  | x, call :: rest =>
    (x.record? call).toList ++ records hash storage (x.step hash storage .none call).2 rest

/-- The records of a session since its tree was made. -/
def emitted (hash : Digest.Hash) (storage : Storage σ) (x : Session σ) (calls : List Call) :
    List Log.Record :=
  (x.tracker.tree?.bind Recorded.rootRecord?).toList ++ x.records hash storage calls

def allRequests (hash : Digest.Hash) (storage : Storage σ) :
    Session σ → List Call → List Log.Writer.Op
  | _, [] => []
  | x, call :: rest =>
    x.requests call ++ allRequests hash storage (x.step hash storage .none call).2 rest

/-- What a session has asked of the writer since its log was opened. -/
def logged (hash : Digest.Hash) (storage : Storage σ) (x : Session σ) (calls : List Call) :
    List Log.Writer.Op :=
  (x.tracker.tree?.bind Recorded.rootRecord?).toList.map .write ++ x.allRequests hash storage calls

lemma records_append (hash : Digest.Hash) (storage : Storage σ) (x : Session σ)
    (before rest : List Call) :
    x.records hash storage (before ++ rest) =
      x.records hash storage before ++ (x.after hash storage before).records hash storage rest := by
  induction before generalizing x with
  | nil => rfl
  | cons call before ih =>
    rw [List.cons_append, records, records, ih, List.append_assoc]
    rfl

lemma logAfter_append (hash : Digest.Hash) (storage : Storage σ) (writer : Option Log.Writer) (s : σ)
    (before rest : List Log.Writer.Op) :
    logAfter hash storage writer s (before ++ rest) =
      logAfter hash storage (logAfter hash storage writer s before).1
        (logAfter hash storage writer s before).2 rest := by
  cases writer with
  | none => rfl
  | some w => simp only [logAfter, Log.Writer.serve_append]

end Session

namespace Recorded

variable {σ : Type}

lemma log_eq (hash : Digest.Hash) (storage : Storage σ) (record : Log.Record) (t : Recorded) (s : σ) :
    t.log hash storage record s =
      ({ t with writer := (Session.logAfter hash storage t.writer s [.write record]).1 },
        (Session.logAfter hash storage t.writer s [.write record]).2) := by
  obtain ⟨tree, writer⟩ := t
  cases writer <;> rfl

lemma logAll_eq (hash : Digest.Hash) (storage : Storage σ) (records : Option Log.Record)
    (t : Recorded) (s : σ) :
    logAll hash storage records t s =
      ({ t with writer :=
          (Session.logAfter hash storage t.writer s (records.toList.map .write)).1 },
        (Session.logAfter hash storage t.writer s (records.toList.map .write)).2) := by
  cases records with
  | none =>
    obtain ⟨tree, writer⟩ := t
    cases writer <;> rfl
  | some record => exact log_eq hash storage record t s

lemma commit_eq (hash : Digest.Hash) (storage : Storage σ) (t : Recorded) (s : σ) :
    t.commit hash storage s =
      ({ t with writer := (Session.logAfter hash storage t.writer s [.commit true]).1 },
        (Session.logAfter hash storage t.writer s [.commit true]).2) := by
  obtain ⟨tree, writer⟩ := t
  cases writer <;> rfl

end Recorded

namespace Session

variable {σ : Type}

/-- A session hands the requests of a call to the writer. -/
theorem step_log (hash : Digest.Hash) (storage : Storage σ) (x : Session σ) (call : Call) :
    ((x.step hash storage .none call).2.writer?, (x.step hash storage .none call).2.storage) =
      logAfter hash storage x.writer? x.storage (x.requests call) := by
  obtain ⟨tracker, pool, s⟩ := x
  cases tracker with
  | idle masks => cases call <;> rfl
  | live t => cases call <;> rfl
  | recorded r =>
    cases call with
    | attach key left right reason =>
      simp only [step, Tracker.attach, Recorded.attach, requests, Tracker.tree?, Option.map_some,
        Option.getD_some, Call.requests, Call.record?]
      rcases r.tree.attach pool .none key left right reason with ⟨_ | ⟨l, k⟩, u, q⟩
      · simp only [Option.toList_none, List.map_nil]
        cases hw : r.writer <;> simp [writer?, logAfter, hw, Log.Writer.serve]
      · simp only [Recorded.logAll_eq]
        rfl
    | remove key =>
      simp only [step, Tracker.remove, Recorded.remove, requests, Tracker.tree?, Option.map_some,
        Option.getD_some, Call.requests, Call.record?]
      rcases r.tree.remove pool .none key with ⟨_ | note, u, q⟩
      · simp only [Option.toList_none, List.map_nil]
        cases hw : r.writer <;> simp [writer?, logAfter, hw, Log.Writer.serve]
      · simp only [Recorded.logAll_eq]
        rfl
    | commit =>
      simp only [step, Recorded.commit_eq]
      rfl
    | dump exporter =>
      simp only [step, Tracker.dump, Recorded.commit_eq]
      rfl
    | setKind | claimMask | engine =>
      cases hw : r.writer <;>
        simp [step, writer?, logAfter, requests, Tracker.tree?, Call.requests, Call.record?,
          Tracker.setKind, Tracker.modifyTree, Tracker.claimMask, hw, Log.Writer.serve]

/-- The log of a run is what the run's requests make of it. -/
theorem after_log (hash : Digest.Hash) (storage : Storage σ) (x : Session σ) (calls : List Call) :
    ((x.after hash storage calls).writer?, (x.after hash storage calls).storage) =
      logAfter hash storage x.writer? x.storage (x.allRequests hash storage calls) := by
  induction calls generalizing x with
  | nil =>
    simp only [after, List.foldl_nil, allRequests]
    cases hw : x.writer? <;> simp [logAfter, Log.Writer.serve]
  | cons call calls ih =>
    rw [allRequests, logAfter_append, ← step_log]
    exact ih _

/-- The log that a configuration opens. -/
def opened (storage : Storage σ) (config : Config) (run : RunId) (s : σ) : Option Log.Writer × σ :=
  match Log.Codec.ofName? config.compression with
  | none => (none, s)
  | some codec =>
    match Log.Writer.create storage config.logPath codec config.batchSize run s with
    | (.ok w, s) => (some w, s)
    | (.error _, s) => (none, s)

/-- The first record is the root with number one. -/
lemma rootRecord?_start (path : PathRef) (compress : Bool) (pool : Pool) :
    Recorded.rootRecord? (Tree.start path compress true pool).1 = some (.root ⟨1⟩) := rfl

lemma create_of_persist (hash : Digest.Hash) (storage : Storage σ) (config : Config)
    (h : config.persist = true) (inMemory : Bool) (run : RunId) (path : PathRef) (pool : Pool)
    (s : σ) :
    create hash storage config inMemory run path pool s =
      let log := logAfter hash storage (opened storage config run s).1 (opened storage config run s).2
        [.write (.root ⟨1⟩)]
      ⟨.recorded ⟨(Tree.start path config.compress true pool).1, log.1⟩,
        (Tree.start path config.compress true pool).2, log.2⟩ := by
  have hopen : Recorded.openLog hash storage config run path pool s =
      Recorded.start hash storage path config.compress (opened storage config run s).1 pool
        (opened storage config run s).2 := by
    unfold Recorded.openLog opened
    cases Log.Codec.ofName? config.compression with
    | none => rfl
    | some codec =>
      rcases hlog : Log.Writer.create storage config.logPath codec config.batchSize run s with
        ⟨_ | _, _⟩ <;> simp only [hlog]
  rw [create, Tracker.create, if_pos h, hopen]
  simp only [Recorded.start, Recorded.logAll_eq, rootRecord?_start]
  rfl

lemma create_of_inMemory (hash : Digest.Hash) (storage : Storage σ) (config : Config)
    (h : config.persist = false) (run : RunId) (path : PathRef) (pool : Pool) (s : σ) :
    create hash storage config true run path pool s = live path config.compress pool s := by
  rw [create, Tracker.create, h]
  rfl

end Session

/-! ### Records by cells -/

namespace Tree

lemma Reads.noteOf?_eq {t : Tree} {parent : Option NodeKey} {e : Edge} {s : Shape Cell}
    (h : t.Reads parent e s) {c : Cell} (hc : c ∈ s.preorder) :
    Recorded.noteOf? t c.key = c.note := by
  induction h with
  | nowhere => cases hc
  | node target live linked hleft hright ihl ihr =>
    rw [Shape.preorder, List.mem_cons, List.mem_append] at hc
    rcases hc with rfl | hc | hc
    · rw [Recorded.noteOf?, Cell.ofNode, live]
      rfl
    · exact ihl hc
    · exact ihr hc

lemma Attached.branchRecord?_eq {t u : Tree} {s : Shape Cell} {c : Cell} {left right : PathRef}
    {reason : BranchReason} {line : UInt64} {l r : NodeKey}
    (h : t.Attached u s c left right reason line l r) (hnodup : s.keys.Nodup) (hc : c ∈ s.leaves) :
    Recorded.branchRecord? u c.key l r =
      Session.forkRecord? c.note (t.noteAfter 0) (t.noteAfter 1) line reason := by
  have hreads := h.shows.reads
  obtain ⟨above, rfl⟩ := Shape.exists_plug_of_mem_leaves hc
  rw [Shape.growAt_plug hnodup] at hreads
  have hnote : ∀ d ∈ (c.fork reason line ⟨l, 0, some left, t.noteAfter 0⟩
      ⟨r, 0, some right, t.noteAfter 1⟩).preorder, Recorded.noteOf? u d.key = d.note := fun d hd =>
    hreads.noteOf?_eq ((Shape.preorder_plug above _).mem_iff.2 (List.mem_append_left _ hd))
  have hself := hnote (c.forked reason line) (by simp [Cell.fork, Shape.preorder])
  have hleft := hnote ⟨l, 0, some left, t.noteAfter 0⟩ (by simp [Cell.fork, Shape.preorder])
  have hright := hnote ⟨r, c.tag, some right, t.noteAfter 1⟩ (by simp [Cell.fork, Shape.preorder])
  have hkey : (c.forked reason line).key = c.key := rfl
  rw [hkey] at hself
  simp only [Recorded.branchRecord?, Session.forkRecord?, hself, hleft, hright, Cell.forked]
  cases c.note <;> rfl

lemma Shows.record?_attach {t : Tree} {s : Shape Cell} (h : t.Shows s) {c : Cell} (hc : c ∈ s.leaves)
    {pool : Pool} {right : PathRef} (hright : (pool.get? right).bind PathState.node = some c.key)
    (left : PathRef) (reason : BranchReason)
    (hsmall : (t.attach pool .none c.key left right reason).tree.nodes.slots.size ≤ UInt32.size) :
    (Session.Call.attach c.key left right reason).record? t pool =
      Session.forkRecord? c.note (t.noteAfter 0) (t.noteAfter 1) (pool.lineOf right) reason := by
  obtain ⟨l, r, u, heq, hu⟩ := h.attach hc hright left reason hsmall
  rw [Session.Call.record?, heq]
  exact hu.branchRecord?_eq h.nodup hc

lemma Shows.record?_remove {t : Tree} {s : Shape Cell} (h : t.Shows s) {c : Cell} (hc : c ∈ s.leaves)
    {path : PathRef} (hpath : c.bookmark = some path) (pool : Pool) :
    (Session.Call.remove c.key).record? t pool =
      (finalNote c.note (pool.get? path)).map Recorded.endRecord := by
  obtain ⟨u, heq, _⟩ := h.remove hc hpath pool
  rw [Session.Call.record?, heq]

end Tree

end ForkTree
