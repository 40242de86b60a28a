import ForkTree.Proofs.LiveReplay

/-!
What is in the log of a session once it is closed. A configuration that is accepted names one of three
codecs. With the plain one the closed log is read as all the records of the run, the root first and then
one for each fork and for each end, in order. The other two pack nothing, so each batch is refused, its
records wait no longer, and the closed log is read as an empty one (`Session.read_closed`).
-/

namespace ForkTree

/-- The codecs of the configurations that are accepted. -/
lemma Config.exists_codec {config : Config} (h : config.check = .ok ()) :
    ∃ codec, Log.Codec.ofName? config.compression = some codec ∧
      (codec = .plain ↔ config.compression = "none") := by
  have hname : config.compression ∈ ["none", "zstd", "lz4"] := by
    by_contra hname
    simp only [check, hname, if_false] at h
    split at h
    · cases h
    · split at h <;> cases h
  simp only [List.mem_cons, List.not_mem_nil, or_false] at hname
  generalize config.compression = name at *
  rcases hname with rfl | rfl | rfl
  · exact ⟨.plain, by decide +kernel, by decide⟩
  · exact ⟨.zstd, by decide +kernel, by decide⟩
  · exact ⟨.lz4, by decide +kernel, by decide⟩

lemma Config.batchSize_pos {config : Config} (h : config.check = .ok ()) : 1 ≤ config.batchSize := by
  by_contra hzero
  have hzero' : config.batchSize = 0 := by omega
  simp only [check, hzero', if_true] at h
  split at h <;> cases h

namespace Log.Writer

variable {σ : Type} {w : Writer}

/-- Nothing is appended where nothing can be packed. -/
lemma commit_of_not_plain (hash : Digest.Hash) (storage : Storage σ) (h : w.codec ≠ .plain)
    (force : Bool) (s : σ) :
    (w.commit hash storage force s).2.1.codec = w.codec ∧ (w.commit hash storage force s).2.2 = s := by
  have hsegment : ∃ e, w.segment hash = .error e := by
    rw [segment]
    cases hcodec : w.codec with
    | plain => exact absurd hcodec h
    | zstd | lz4 => exact ⟨_, rfl⟩
  obtain ⟨e, he⟩ := hsegment
  rw [commit]
  split
  · rw [he]
    exact ⟨rfl, rfl⟩
  · exact ⟨rfl, rfl⟩

lemma handle_of_not_plain (hash : Digest.Hash) (storage : Storage σ) (h : w.codec ≠ .plain)
    (op : Op) (s : σ) :
    (w.handle hash storage op s).2.1.codec = w.codec ∧ (w.handle hash storage op s).2.2 = s := by
  cases op with
  | commit force => exact commit_of_not_plain hash storage h force s
  | write record =>
    let more : Writer := { w with pending := w.pending ++ [record] }
    have hmore : more.codec ≠ .plain := h
    rw [handle, write]
    simp only
    split
    · exact commit_of_not_plain hash storage hmore true s
    · exact ⟨rfl, rfl⟩

lemma serve_of_not_plain (hash : Digest.Hash) (storage : Storage σ) (h : w.codec ≠ .plain)
    (ops : List Op) (s : σ) :
    (w.serve hash storage ops s).1.codec = w.codec ∧ (w.serve hash storage ops s).2 = s := by
  induction ops using List.reverseRecOn with
  | nil => exact ⟨rfl, rfl⟩
  | append_singleton ops op ih =>
    obtain ⟨hcodec, hsame⟩ := ih
    rw [serve_append, hsame]
    obtain ⟨hcodec', hsame'⟩ := handle_of_not_plain hash storage (hcodec ▸ h) op s
    exact ⟨hcodec'.trans hcodec, hsame'⟩

end Log.Writer

namespace Session

/-- A fork makes a record of a fork, and an end one of an end. -/
inductive Call.Reports : Call → Log.Record → Prop
  | fork (key : NodeKey) (left right : PathRef) (reason : BranchReason) (id l r : NodeId)
    (line : UInt64) : Reports (.attach key left right reason) (.branch id l r line reason)
  | ending (key : NodeKey) (id : NodeId) (state : Option StateId) (line : UInt64)
    (kind : TerminationKind) : Reports (.remove key) (.terminate id state line kind)

/-- The call is a fork or an end. -/
def Call.isReported : Call → Bool
  | attach .. | remove _ => true
  | _ => false

/-- The forks and ends of a run that succeed. -/
def reported {σ : Type} (hash : Digest.Hash) (storage : Storage σ) : Session σ → List Call → List Call
  | _, [] => []
  | x, call :: rest =>
    (if call.isReported && (x.step hash storage .none call).1.isOk then [call] else []) ++
      reported hash storage (x.step hash storage .none call).2 rest

end Session

namespace Tree

/-- In a tree that is recorded each cell has a note. -/
structure Noted (t : Tree) (s : Shape Cell) : Prop where
  shows : t.Shows s
  recorded : t.recorded = true
  noted : ∀ c ∈ s.preorder, c.note.isSome = true

namespace Noted

variable {t : Tree} {s : Shape Cell} {c : Cell} {pool : Pool}

lemma start (path : PathRef) (compress : Bool) (pool : Pool) :
    ∃ s, (start path compress true pool).1.Noted s := by
  obtain ⟨key, _, hshows⟩ := shows_start path compress true pool
  refine ⟨_, hshows, rfl, fun c hc => ?_⟩
  rw [Shape.preorder_leaf, List.mem_singleton] at hc
  rw [hc]
  rfl

lemma of_subset {u : Tree} {s' : Shape Cell} (h : t.Noted s) (hshows : u.Shows s')
    (hrecorded : u.recorded = t.recorded) (hsubset : s'.preorder ⊆ s.preorder) : u.Noted s' :=
  ⟨hshows, hrecorded.trans h.recorded, fun c hc => h.noted c (hsubset hc)⟩

/-- A fork gives notes to its leaves, and one to its record. -/
lemma attach (h : t.Noted s) (hc : c ∈ s.leaves) {right : PathRef}
    (hright : (pool.get? right).bind PathState.node = some c.key) (left : PathRef)
    (reason : BranchReason)
    (hsmall : (t.attach pool .none c.key left right reason).tree.nodes.slots.size ≤ UInt32.size) :
    (∃ s', (t.attach pool .none c.key left right reason).tree.Noted s') ∧
      ∃ id l r line, (Session.Call.attach c.key left right reason).record? t pool =
        some (.branch id l r line reason) := by
  have hnote := h.noted c (Shape.leaves_subset_preorder s hc)
  obtain ⟨note, hnote'⟩ := Option.isSome_iff_exists.1 hnote
  have hafter : ∀ i, t.noteAfter i = some (.fresh ⟨t.nextId + i⟩) := fun i => if_pos h.recorded
  constructor
  · obtain ⟨l, r, u, heq, hu⟩ := h.shows.attach hc hright left reason hsmall
    rw [heq]
    refine ⟨_, hu.shows, hu.recorded_eq.trans h.recorded, fun d hd => ?_⟩
    have hnodup := h.shows.nodup
    have hold := h.noted
    obtain ⟨above, rfl⟩ := Shape.exists_plug_of_mem_leaves hc
    rw [Shape.growAt_plug hnodup, (Shape.preorder_plug above _).mem_iff, List.mem_append] at hd
    rcases hd with hd | hd
    · simp only [Cell.fork, Shape.preorder, Shape.leaf, List.mem_cons, List.not_mem_nil, List.append_nil,
        List.mem_append, or_false] at hd
      rcases hd with rfl | rfl | rfl
      · simpa [Cell.forked] using hnote
      · simp [hafter]
      · simp [hafter]
    · exact hold d ((Shape.preorder_plug above _).mem_iff.2 (List.mem_append_right _ hd))
  · rw [h.shows.record?_attach hc hright left reason hsmall, hnote', hafter, hafter]
    exact ⟨_, _, _, _, rfl⟩

lemma remove (h : t.Noted s) (hc : c ∈ s.leaves) (pool : Pool) :
    (∃ s', (t.remove pool .none c.key).tree.Noted s') ∧
      ∃ id state line kind, (Session.Call.remove c.key).record? t pool =
        some (.terminate id state line kind) := by
  obtain ⟨path, hpath⟩ := Option.isSome_iff_exists.1 (h.shows.bookmarked.of_mem_leaves hc)
  obtain ⟨note, hnote⟩ := Option.isSome_iff_exists.1 (h.noted c (Shape.leaves_subset_preorder s hc))
  constructor
  · obtain ⟨u, heq, hu, hsettings⟩ := h.shows.remove hc hpath pool
    rw [heq]
    refine ⟨_, h.of_subset hu (congrArg (·.2.1) hsettings) ?_⟩
    rw [Shape.removed]
    split
    · exact ((Shape.preorder_contract_sublist _).trans (Shape.preorder_prune_sublist _ s)).subset
    · exact (Shape.preorder_prune_sublist _ s).subset
  · rw [h.shows.record?_remove hc hpath, hnote]
    cases pool.get? path <;> exact ⟨_, _, _, _, rfl⟩

lemma setKind (h : t.Noted s) (path : PathState) (kind : TerminationKind) :
    ∃ s', (t.setKind path kind).Noted s' := by
  obtain ⟨hu, hsettings⟩ := h.shows.setKind path kind
  refine ⟨_, hu, (congrArg (·.2.1) hsettings).trans h.recorded, ?_⟩
  cases path.node with
  | none => exact h.noted
  | some key =>
    rw [Option.elim_some, Shape.editAt, Shape.preorder_map]
    intro d hd
    obtain ⟨c, hc, rfl⟩ := List.mem_map.1 hd
    have hnote := h.noted c hc
    split
    · rwa [Cell.withKind, Option.isSome_map]
    · exact hnote

/-- A call keeps the notes, and makes a record exactly if it is a fork or an end and succeeds. -/
theorem onTree (h : t.Noted s) (pool : Pool) (call : Session.Call)
    (hsmall : (call.onTree .none t pool).tree.nodes.slots.size ≤ UInt32.size) :
    (∃ s', (call.onTree .none t pool).tree.Noted s') ∧
      List.Forall₂ Session.Call.Reports
        (if call.isReported && (call.onTree .none t pool).result.isOk then [call] else [])
        (call.record? t pool).toList := by
  cases hrefused : call.refusal? t pool with
  | some fault =>
    rw [onTree_refused hrefused, Session.Call.record?_refused hrefused]
    simp only [Except.isOk, Except.toBool, Bool.and_false, Bool.false_eq_true, if_false]
    exact ⟨⟨s, h⟩, .nil⟩
  | none =>
    have hok : (call.onTree .none t pool).result.isOk = true := by
      rw [(h.shows.onTree hrefused hsmall).1]
      rfl
    rw [hok, Bool.and_true]
    cases call with
    | attach key left right reason =>
      obtain ⟨n, live, hleaf, hright⟩ := attachRefusal?_eq_none hrefused
      obtain ⟨c, hc, rfl⟩ := h.shows.exists_leaf live hleaf
      obtain ⟨hnoted, id, l, r, line, hrecord⟩ := h.attach hc hright left reason hsmall
      refine ⟨hnoted, ?_⟩
      rw [hrecord]
      exact .cons (.fork _ _ _ _ _ _ _ _) .nil
    | remove key =>
      obtain ⟨n, live, hleaf⟩ := removeRefusal?_eq_none hrefused
      obtain ⟨c, hc, rfl⟩ := h.shows.exists_leaf live hleaf
      obtain ⟨hnoted, id, state, line, kind, hrecord⟩ := h.remove hc pool
      refine ⟨hnoted, ?_⟩
      rw [hrecord]
      exact .cons (.ending _ _ _ _ _) .nil
    | setKind path kind => exact ⟨h.setKind path kind, .nil⟩
    | claimMask => exact ⟨⟨s, h.of_subset (h.shows.congr rfl rfl rfl) rfl fun _ => id⟩, .nil⟩
    | commit | dump | engine => exact ⟨⟨s, h⟩, .nil⟩

end Noted

end Tree

/-! ### Closed logs -/

namespace Session

variable {σ : Type} {hash : Digest.Hash} {storage : Storage σ} {x : Session σ} {t : Tree}

/-- The records of a run are those of its forks and ends that succeed, in order. -/
theorem reports_records {s : Shape Cell} (htree : x.tracker.tree? = some t) (h : t.Noted s)
    (calls : List Call) (hsmall : (x.after hash storage calls).slots ≤ UInt32.size) :
    List.Forall₂ Call.Reports (x.reported hash storage calls) (x.records hash storage calls) := by
  induction calls generalizing x t s with
  | nil => exact .nil
  | cons call calls ih =>
    obtain ⟨hresult, hstep, _⟩ := step_onTree hash storage .none htree call
    have hslots := Nat.le_trans (slots_le_after hash storage hstep calls) hsmall
    rw [slots_eq hstep] at hslots
    obtain ⟨⟨s', hs'⟩, hrecord⟩ := h.onTree x.pool call hslots
    have hx : x.record? call = call.record? t x.pool := by
      rw [record?, htree]
      rfl
    rw [reported, records, hresult, hx]
    exact List.rel_append hrecord (ih hstep hs' hsmall)

/-- Closing the log is one more commit. -/
lemma close_eq (hash : Digest.Hash) (storage : Storage σ) (x : Session σ) :
    x.tracker.close hash storage x.storage =
      (logAfter hash storage x.writer? x.storage [.commit true]).2 := by
  obtain ⟨tracker, pool, s⟩ := x
  cases tracker with
  | idle | live => rfl
  | recorded r =>
    obtain ⟨tree, writer⟩ := r
    cases writer <;> rfl

/-- What a session has asked of its log by the time it is closed. -/
def loggedClosed (hash : Digest.Hash) (storage : Storage σ) (x : Session σ) (calls : List Call) :
    List Log.Writer.Op :=
  x.logged hash storage calls ++ [.commit true]

lemma storage_closed (hash : Digest.Hash) (storage : Storage σ) {config : Config}
    (hpersist : config.persist = true) (inMemory : Bool) (run : RunId) (path : PathRef) (pool : Pool)
    (s : σ) (calls : List Call) :
    let x := create hash storage config inMemory run path pool s
    let y := x.after hash storage calls
    y.tracker.close hash storage y.storage =
      (logAfter hash storage (opened storage config run s).1 (opened storage config run s).2
        (x.loggedClosed hash storage calls)).2 := by
  intro x y
  have hlog := logAfter_logged hash storage hpersist inMemory run path pool s calls
  rw [close_eq, loggedClosed, logAfter_append, ← hlog]

/-- A log that is opened is empty. -/
lemma exists_opened {config : Config} {content : σ → Option Bytes}
    (hkeeps : storage.Keeps config.logPath content) {codec : Log.Codec}
    (hcodec : Log.Codec.ofName? config.compression = some codec) (run : RunId) (s : σ) :
    ∃ w s', opened storage config run s = (some w, s') ∧ w.codec = codec ∧ content s' = some [] := by
  obtain ⟨hok, hcontent⟩ := hkeeps.create_eq s
  simp only [opened, hcodec, Log.Writer.create]
  cases hcreate : storage.create config.logPath s with
  | mk outcome s' =>
    rw [hcreate] at hok hcontent
    simp only at hok hcontent
    subst hok
    exact ⟨_, s', rfl, rfl, hcontent⟩

/-- The log of a session whose configuration is accepted, once it is closed, on storage that never fails.
The records of the run are the root and one for each fork and each end that succeeds, in order. With the
plain codec a reader finds all of them, as long as each batch fits in a segment; with any other codec it
finds none, though the configuration is accepted. -/
theorem read_closed (hash : Digest.Hash) {storage : Storage σ} {config : Config}
    {content : σ → Option Bytes} (hkeeps : storage.Keeps config.logPath content)
    (haccepted : config.check = .ok ()) (hpersist : config.persist = true) (inMemory : Bool)
    (run : RunId) (path : PathRef) (pool : Pool) (s : σ) (calls : List Call) :
    let x := create hash storage config inMemory run path pool s
    let y := x.after hash storage calls
    let read := Log.read hash storage (y.tracker.close hash storage y.storage) config.logPath
    (y.slots ≤ UInt32.size → ∃ records, x.emitted hash storage calls = .root ⟨1⟩ :: records ∧
      List.Forall₂ Call.Reports (x.reported hash storage calls) records) ∧
    (config.compression = "none" →
      (Log.Cut.ofOps config.batchSize (x.loggedClosed hash storage calls)).Fits run →
      ∃ found, read = .ok found ∧ found.records = x.emitted hash storage calls) ∧
    (config.compression ≠ "none" → read = .ok .empty) := by
  intro x y read
  have hx := create_of_persist hash storage config hpersist inMemory run path pool s
  have htree : x.tracker.tree? = some (Tree.start path config.compress true pool).1 := by
    simp only [x, hx]
    rfl
  have hclosed := storage_closed hash storage hpersist inMemory run path pool s calls
  obtain ⟨codec, hcodec, hplain⟩ := Config.exists_codec haccepted
  refine ⟨fun hsmall => ?_, fun hnone hfits => ?_, fun hother => ?_⟩
  · obtain ⟨_, hnoted⟩ := Tree.Noted.start path config.compress pool
    refine ⟨_, ?_, reports_records htree hnoted calls hsmall⟩
    rw [emitted, htree, Option.bind_some, rootRecord?_start]
    rfl
  · obtain rfl := hplain.2 hnone
    have hfull := Config.batchSize_pos haccepted
    obtain ⟨w, s', hcreate, hstart⟩ := Log.Writer.create_eq hash hkeeps config.batchSize run s
    have hopened : opened storage config run s = (some w, s') := by
      simp only [opened, hcodec, hcreate]
    rw [Nat.max_eq_left hfull] at hstart
    have hread := (hstart.serve hkeeps _ hfits).read_eq hkeeps hfits
    rw [hopened] at hclosed
    refine ⟨_, (congrArg (Log.read hash storage · config.logPath) hclosed).trans hread, ?_⟩
    -- Nothing waits behind the last commit, so the batches are all the records.
    have hrecords := Log.Cut.records_ofOps config.batchSize (x.loggedClosed hash storage calls)
    have hwaiting : (Log.Cut.ofOps config.batchSize (x.loggedClosed hash storage calls)).waiting = [] := by
      rw [loggedClosed, Log.Cut.ofOps_append_singleton]
      exact Log.Cut.waiting_close_true _
    rw [Log.Cut.records, hwaiting, List.append_nil, loggedClosed, List.flatMap_append,
      records_logged] at hrecords
    exact hrecords.trans (List.append_nil _)
  · obtain ⟨w, s', hopened, hw, hempty⟩ := exists_opened hkeeps hcodec run s
    have hpacks : w.codec ≠ .plain := fun hw' => hother (hplain.1 (hw.symm.trans hw'))
    rw [hopened] at hclosed
    have hsame : (logAfter hash storage (some w) s' (x.loggedClosed hash storage calls)).2 = s' :=
      (Log.Writer.serve_of_not_plain hash storage hpacks _ s').2
    have hlog : Log.IsLog hash run [] [] := ⟨rfl, fun i e he => by cases he⟩
    exact (congrArg (Log.read hash storage · config.logPath) (hclosed.trans hsame)).trans
      (Log.read_isLog hash (hkeeps.reads hempty) hlog)

/-- A fork and an end, in batches of two records. -/
theorem read_closed_after_end :
    let hash := Digest.Blake3.digest
    let config := { Config.default with persist := true, batchSize := 2 }
    let x := create hash Storage.memory config true default ⟨0⟩
      ⟨#[some (.fresh ⟨1⟩), some (.fresh ⟨2⟩)]⟩ .empty
    let calls : List Call := [.attach ⟨0, 0⟩ ⟨1⟩ ⟨0⟩ .conditional, .remove ⟨0, 0⟩, .remove ⟨1, 0⟩]
    let y := x.after hash Storage.memory calls
    config.check = .ok () ∧ y.slots ≤ UInt32.size ∧
      (Log.Cut.ofOps 2 (x.loggedClosed hash Storage.memory calls)).Fits default ∧
      (∃ records, x.emitted hash Storage.memory calls = .root ⟨1⟩ :: records ∧
        List.Forall₂ Call.Reports (x.reported hash Storage.memory calls) records) ∧
      ∃ found, Log.read hash Storage.memory (y.tracker.close hash Storage.memory y.storage) config.logPath =
        .ok found ∧ found.records = x.emitted hash Storage.memory calls := by
  intro hash config x calls y
  have haccepted : config.check = .ok () := by decide +kernel
  have hslots : y.slots ≤ UInt32.size := by decide +kernel
  have hbatches : (Log.Cut.ofOps 2 (x.loggedClosed hash Storage.memory calls)).batches =
      [[.root ⟨1⟩, .branch ⟨1⟩ ⟨2⟩ ⟨3⟩ 0 .conditional],
        [.terminate ⟨2⟩ (some ⟨2⟩) 0 .running]] := by decide +kernel
  have hfits : (Log.Cut.ofOps 2 (x.loggedClosed hash Storage.memory calls)).Fits default := by
    refine ⟨by rw [hbatches]; decide, fun i batch hi => ?_⟩
    rw [hbatches] at hi
    have hlt : i < 2 := (List.getElem?_eq_some_iff.1 hi).1
    obtain rfl | rfl : i = 0 ∨ i = 1 := by omega
    · cases hi
      decide +kernel
    · cases hi
      decide +kernel
  obtain ⟨hreports, hread, _⟩ := read_closed hash (Storage.keeps_memory config.logPath) haccepted rfl true
    default ⟨0⟩ ⟨#[some (.fresh ⟨1⟩), some (.fresh ⟨2⟩)]⟩ .empty calls
  exact ⟨haccepted, hslots, hfits, hreports hslots, hread rfl hfits⟩

/-- A configuration that is accepted and with which no record reaches the log. -/
theorem accepted_config_loses_records :
    let hash := Digest.Blake3.digest
    let config := { Config.default with persist := true, compression := "zstd" }
    let x := create hash Storage.memory config true default ⟨0⟩
      ⟨#[some (.fresh ⟨1⟩), some (.fresh ⟨2⟩)]⟩ .empty
    let calls : List Call := [.attach ⟨0, 0⟩ ⟨1⟩ ⟨0⟩ .conditional, .remove ⟨1, 0⟩]
    let y := x.after hash Storage.memory calls
    config.check = .ok () ∧
      x.emitted hash Storage.memory calls = [.root ⟨1⟩, .branch ⟨1⟩ ⟨2⟩ ⟨3⟩ 0 .conditional,
        .terminate ⟨2⟩ (some ⟨2⟩) 0 .running] ∧
      Log.read hash Storage.memory (y.tracker.close hash Storage.memory y.storage) config.logPath =
        .ok .empty := by
  intro hash config x calls y
  refine ⟨by decide +kernel, by decide +kernel, by decide +kernel⟩

end Session

end ForkTree
