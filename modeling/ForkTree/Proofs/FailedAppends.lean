import ForkTree.Proofs.WriterAttempts

/-!
Logs on storage that fails. An append may fail, as long as it then leaves the file as it was
(`Storage.Atomic`); storage that refuses appends on any schedule is of this kind. Whatever fails, a
writer's file holds the segments of those appends that succeeded and nothing else
(`Tallies.content_serve`). As these have the numbers that the reader expects, the log can be read at any
time, and the batches that are missing in it are those whose loss was reported (`read_serve_of_atomic`).
-/

namespace ForkTree

/-- An append to the file happens as a whole or not at all, and `content` tells what is in it. -/
structure Storage.Atomic {σ : Type} (storage : Storage σ) (path : String) (content : σ → Option Bytes) :
    Prop where
  create_eq : ∀ s, (storage.create path s).1 = .ok () → content (storage.create path s).2 = some []
  append_eq : ∀ s b, content s = some b → ∀ more, content (storage.append path more s).2 =
    some (if (storage.append path more s).1.isOk then b ++ more else b)
  reads : ∀ s b, content s = some b → storage.Reads path s b

/-- The storage with a schedule of the appends that it refuses, one entry for each append to come. -/
def Storage.refusing {σ : Type} (storage : Storage σ) : Storage (σ × List Bool) where
  create path s := ((storage.create path s.1).1, (storage.create path s.1).2, s.2)
  append path more s :=
    if s.2.headD false then (.error (.missing path), s.1, s.2.tail)
    else ((storage.append path more s.1).1, (storage.append path more s.1).2, s.2.tail)
  readRange path offset len s := storage.readRange path offset len s.1
  size path s := storage.size path s.1
  delete path s := ((storage.delete path s.1).1, (storage.delete path s.1).2, s.2)

lemma Storage.Keeps.atomic_refusing {σ : Type} {storage : Storage σ} {path : String}
    {content : σ → Option Bytes} (h : storage.Keeps path content) :
    storage.refusing.Atomic path fun s => content s.1 where
  create_eq s _ := (h.create_eq s.1).2
  append_eq s b hb more := by
    obtain ⟨hok, hcontent⟩ := h.append_eq s.1 b hb more
    simp only [refusing]
    split
    · exact hb
    · rw [hok]
      exact hcontent
  reads s b hb := ⟨(h.reads hb).size_eq, (h.reads hb).readRange_eq⟩

namespace Log.Writer

variable {σ : Type} {hash : Digest.Hash} {storage : Storage σ} {path : String}
  {content : σ → Option Bytes} {run : RunId} {full : Nat} {written : List Record} {tried : List Attempt}
  {w : Writer} {s : σ} {b : Bytes}

/-- A request adds the segment to the file that it makes the writer append, if that succeeds. -/
lemma Tallies.content_handle (hatomic : storage.Atomic path content)
    (h : w.Tallies hash path run full written tried) (hcontent : content s = some b) (op : Op) :
    content (w.handle hash storage op s).2.2 =
      some (b ++ ((w.attempt? hash storage op s).toList.filter Attempt.succeeded).flatMap
        Attempt.segment) := by
  cases ha : w.attempt? hash storage op s with
  | none =>
    rw [handle_of_none h.codec_eq ha]
    simpa using hcontent
  | some a =>
    obtain ⟨_, _, houtcome, hhandle⟩ := handle_of_some h.codec_eq ha
    have happend := hatomic.append_eq s b hcontent a.segment
    rw [h.path_eq] at houtcome hhandle
    rw [← houtcome] at happend
    rw [hhandle]
    refine happend.trans ?_
    cases hok : a.succeeded with
    | true =>
      have hisOk : a.outcome.isOk = true := hok
      simp [hisOk, hok]
    | false =>
      have hisOk : a.outcome.isOk = false := hok
      simp [hisOk, hok]

/-- The file holds the segments of the appends that succeeded. -/
theorem Tallies.content_serve (hatomic : storage.Atomic path content) (hfull : 0 < full)
    (h : w.Tallies hash path run full [] []) (hcontent : content s = some []) (ops : List Op) :
    content (w.serve hash storage ops s).2 =
      some (((w.attempts hash storage ops s).filter Attempt.succeeded).flatMap Attempt.segment) := by
  induction ops using List.reverseRecOn with
  | nil => exact hcontent
  | append_singleton ops op ih =>
    have htallies := h.serve hfull storage ops s
    rw [serve_append, attempts_append, attempts_singleton, List.filter_append, List.flatMap_append]
    exact htallies.content_handle hatomic ih op

/-- What a file of the segments of successful appends is read as. -/
lemma Tallies.read_eq (h : w.Tallies hash path run full written tried)
    (hreads : storage.Reads path s ((tried.filter Attempt.succeeded).flatMap Attempt.segment))
    (hlen : (tried.filter Attempt.succeeded).length ≤ UInt64.size)
    (hfits : ∀ a ∈ tried.filter Attempt.succeeded, a.batch.toBytes.length ≤ maxPayload) :
    read hash storage s path =
      .ok (.ofBatches ((tried.filter Attempt.succeeded).map Attempt.batch)) := by
  rw [read_segments hash hreads (fun a ha => h.segment_eq a (List.mem_filter.1 ha).1) hfits,
    foldlM_extend_eq_ok_iff]
  exact ⟨⟨run, h.consecutive hlen⟩, rfl⟩

/-- What a writer has done and does next that was given some records and has tried some appends. -/
structure Survives (hash : Digest.Hash) (storage : Storage σ) (content : σ → Option Bytes)
    (written : List Record) (tried : List Attempt) (w : Writer) (s : σ) : Prop where
  /-- The log holds the batches whose append succeeded. -/
  read_eq : read hash storage s w.path =
    .ok (.ofBatches ((tried.filter Attempt.succeeded).map Attempt.batch))
  consecutive : Consecutive w.run ((tried.filter Attempt.succeeded).map Attempt.batch)
  records_eq : tried.flatMap (·.batch.records) ++ w.pending = written
  committed_eq : w.committed = ((tried.filter Attempt.succeeded).flatMap (·.batch.records)).length
  /-- A commit that is not forced has nothing to do. -/
  commit_false : w.commit hash storage false s = (.ok (), w, s)
  pending_commit_true : (w.commit hash storage true s).2.1.pending = []
  /-- A request that tries no append is a success, and at most adds a record to those that wait. -/
  handle_of_none : ∀ op, w.attempt? hash storage op s = none →
    w.handle hash storage op s = (.ok (), w.receive op, s)
  /-- A request that tries an append does so with all that waits, and reports what came of it. -/
  handle_of_some : ∀ op a, w.attempt? hash storage op s = some a →
    a.batch = ⟨w.run, w.nextSeq, w.pending ++ op.records⟩ ∧
      a.outcome = (storage.append w.path (a.batch.segment hash) s).1 ∧
      (w.handle hash storage op s).1 = liftStorage a.outcome ∧
      (w.handle hash storage op s).2.1.pending = []
  /-- A failure loses the batch and changes nothing else. -/
  handle_of_failed : ∀ op a, w.attempt? hash storage op s = some a → a.succeeded = false →
    (w.handle hash storage op s).2.1 = { w with pending := [] } ∧
      content (w.handle hash storage op s).2.2 = content s

lemma Tallies.survives (hatomic : storage.Atomic path content)
    (h : w.Tallies hash path run full written tried)
    (hcontent : content s = some ((tried.filter Attempt.succeeded).flatMap Attempt.segment))
    (hlen : (tried.filter Attempt.succeeded).length ≤ UInt64.size)
    (hfits : ∀ a ∈ tried.filter Attempt.succeeded, a.batch.toBytes.length ≤ maxPayload) :
    w.Survives hash storage content written tried s where
  read_eq := by
    rw [h.path_eq]
    exact h.read_eq (hatomic.reads s _ hcontent) hlen hfits
  consecutive := by
    rw [h.run_eq]
    exact h.consecutive hlen
  records_eq := h.records_eq
  committed_eq := h.committed_eq
  commit_false := commit_of_not_isDue h.isDue_false
  pending_commit_true := Writer.pending_commit_true h.codec_eq
  handle_of_none _ hnone := Writer.handle_of_none h.codec_eq hnone
  handle_of_some op a hsome := by
    obtain ⟨hbatch, hsegment, houtcome, hhandle⟩ := Writer.handle_of_some h.codec_eq hsome
    rw [hsegment] at houtcome
    rw [hhandle]
    exact ⟨hbatch, houtcome, rfl, rfl⟩
  handle_of_failed op a hsome hfailed := by
    obtain ⟨_, _, _, hhandle⟩ := Writer.handle_of_some h.codec_eq hsome
    have hafter := h.content_handle hatomic hcontent op
    rw [hsome] at hafter
    constructor
    · rw [hhandle]
      simp [Writer.settle, hfailed, Writer.receive]
    · rw [hafter, hcontent]
      simp [hfailed]

lemma exists_tallies_create (hash : Digest.Hash) (hatomic : storage.Atomic path content)
    (batchSize : Nat) (run : RunId) {s₀ : σ} (hok : (storage.create path s₀).1 = .ok ()) :
    ∃ w₀ s₁, create storage path .plain batchSize run s₀ = (.ok w₀, s₁) ∧
      w₀.Tallies hash path run (max batchSize 1) [] [] ∧ content s₁ = some [] := by
  have hempty := hatomic.create_eq s₀ hok
  obtain ⟨w₀, hcreate⟩ : ∃ w₀, create storage path .plain batchSize run s₀ =
      (.ok w₀, (storage.create path s₀).2) := by
    rw [create]
    generalize storage.create path s₀ = result at hok ⊢
    obtain ⟨_ | _, t⟩ := result
    · cases hok
    · exact ⟨_, rfl⟩
  exact ⟨w₀, _, hcreate, Tallies.of_create hash hcreate, hempty⟩

/-- On storage whose appends happen as a whole or not at all, and as long as the batches fit, a log can
be read after any requests, whatever failed on the way. It holds the batches whose append succeeded,
numbered from zero on, and the failure of any other was reported by the request that tried it, which lost
that batch and nothing else. -/
theorem read_serve_of_atomic (hash : Digest.Hash) {storage : Storage σ} {path : String}
    {content : σ → Option Bytes} (hatomic : storage.Atomic path content) (batchSize : Nat)
    (run : RunId) {s₀ : σ} (hok : (storage.create path s₀).1 = .ok ()) :
    ∃ w₀ s₁, create storage path .plain batchSize run s₀ = (.ok w₀, s₁) ∧
      ∀ ops : List Op,
        ((w₀.attempts hash storage ops s₁).filter Attempt.succeeded).length ≤ UInt64.size →
        (∀ a ∈ (w₀.attempts hash storage ops s₁).filter Attempt.succeeded,
          a.batch.toBytes.length ≤ maxPayload) →
        ∀ w s, w₀.serve hash storage ops s₁ = (w, s) →
          w.path = path ∧ w.run = run ∧
          w.Survives hash storage content (ops.flatMap Op.records) (w₀.attempts hash storage ops s₁) s := by
  obtain ⟨w₀, s₁, hcreate, hstart, hempty⟩ := exists_tallies_create hash hatomic batchSize run hok
  refine ⟨w₀, s₁, hcreate, fun ops hlen hfits w s hserve => ?_⟩
  have hfull : 0 < max batchSize 1 := by omega
  have htallies := hstart.serve hfull storage ops s₁
  have hcontent := hstart.content_serve hatomic hfull hempty ops
  rw [hserve] at htallies hcontent
  exact ⟨htallies.path_eq, htallies.run_eq, htallies.survives hatomic hcontent hlen hfits⟩

/-- A full batch that is refused, and a smaller one that a forced commit brings into the log. -/
theorem read_serve_of_atomic_after_refusal :
    let storage := Storage.memory.refusing
    let ops := [.write (.root ⟨1⟩), .write (.branch ⟨1⟩ ⟨2⟩ ⟨3⟩ 7 .conditional),
      .write (.terminate ⟨2⟩ (some ⟨5⟩) 9 .exit), .commit false, .commit true]
    let hash := Digest.Blake3.digest
    (storage.create "log" (.empty, [true])).1 = .ok () ∧
      ∃ w₀ s₁ w s, create storage "log" .plain 2 default (.empty, [true]) = (.ok w₀, s₁) ∧
        w₀.serve hash storage ops s₁ = (w, s) ∧
        (w₀.attempts hash storage ops s₁).map Attempt.succeeded = [false, true] ∧
        ((w₀.attempts hash storage ops s₁).filter Attempt.succeeded).length ≤ UInt64.size ∧
        (∀ a ∈ (w₀.attempts hash storage ops s₁).filter Attempt.succeeded,
          a.batch.toBytes.length ≤ maxPayload) ∧
        w.Survives hash storage (fun s => Storage.Memory.get? s.1 "log") (ops.flatMap Op.records)
          (w₀.attempts hash storage ops s₁) s := by
  intro storage ops hash
  have hok : (storage.create "log" (.empty, [true])).1 = .ok () := rfl
  obtain ⟨w₀, s₁, hcreate, hsurvives⟩ := read_serve_of_atomic hash
    (Storage.keeps_memory "log").atomic_refusing 2 default hok
  obtain ⟨⟨w, s⟩, hserve⟩ : ∃ result, w₀.serve hash storage ops s₁ = result := ⟨_, rfl⟩
  have htried : (w₀.attempts hash storage ops s₁).map Attempt.succeeded = [false, true] := by
    cases hcreate
    decide +kernel
  have hlen : ((w₀.attempts hash storage ops s₁).filter Attempt.succeeded).length ≤ UInt64.size := by
    cases hcreate
    decide +kernel
  have hfits : ∀ a ∈ (w₀.attempts hash storage ops s₁).filter Attempt.succeeded,
      a.batch.toBytes.length ≤ maxPayload := by
    cases hcreate
    decide +kernel
  exact ⟨hok, w₀, s₁, w, s, hcreate, hserve, htried, hlen, hfits,
    (hsurvives ops hlen hfits w s hserve).2.2⟩

end Log.Writer

end ForkTree
