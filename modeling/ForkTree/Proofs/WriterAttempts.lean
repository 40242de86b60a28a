import ForkTree.Proofs.LogRoundTrip

/-!
The appends that a writer tries. A request first lets its record wait, if it brings one, and may then
make the writer append all that waits as one segment. Nothing waits behind such an attempt, whatever
came of it, and the writer counts those that succeeded (`handle_of_none`, `handle_of_some`). So on any
storage, one that fails now and then included, the batches of the attempts that succeeded are numbered
by their positions, and all attempts together hold what was written and does not wait (`Tallies.serve`).
-/

namespace ForkTree.Log

lemma map_segment (hash : Digest.Hash) {chosen : List Attempt}
    (hsegment : ∀ a ∈ chosen, a.segment = a.batch.segment hash)
    (hfits : ∀ a ∈ chosen, a.batch.toBytes.length ≤ maxPayload) :
    chosen.map Attempt.segment = (chosen.map fun a => Cut.entry a.batch).map (Entry.text hash) := by
  rw [List.map_map]
  refine List.map_congr_left fun a ha => ?_
  rw [hsegment a ha, Batch.segment_eq hash (hfits a ha)]
  rfl

/-- A file of segments is read by taking in the batches of their attempts one after the other. -/
theorem read_segments (hash : Digest.Hash) {σ : Type} {storage : Storage σ} {path : String} {s : σ}
    {chosen : List Attempt} (hreads : storage.Reads path s (chosen.flatMap Attempt.segment))
    (hsegment : ∀ a ∈ chosen, a.segment = a.batch.segment hash)
    (hfits : ∀ a ∈ chosen, a.batch.toBytes.length ≤ maxPayload) :
    read hash storage s path = (chosen.map Attempt.batch).foldlM Contents.extend .empty := by
  rw [List.flatMap_def, map_segment hash hsegment hfits, ← List.flatMap_def] at hreads
  rw [read_texts hash hreads, List.map_map]
  · rfl
  · intro e he
    obtain ⟨a, ha, rfl⟩ := List.mem_map.1 he
    exact ⟨hfits a ha, Batch.ofBytes?_toBytes _⟩

namespace Writer

variable {σ : Type}

/-- The writer with the record waiting that a request brings. -/
def receive (w : Writer) (op : Op) : Writer := { w with pending := w.pending ++ op.records }

/-- Whether a request makes the writer try an append. -/
def tries (w : Writer) : Op → Bool
  | .write record => w.batchSize ≤ (w.receive (.write record)).pending.length
  | .commit force => w.isDue force

/-- The append that a request makes the writer try. -/
def attempt? (hash : Digest.Hash) (storage : Storage σ) (op : Op) (w : Writer) (s : σ) :
    Option Attempt :=
  if w.tries op then
    ((w.receive op).segment hash).toOption.map fun segment =>
      ⟨(w.receive op).batch, segment, (storage.append w.path segment s).1⟩
  else none

/-- The appends that requests make the writer try one after the other. -/
def attempts (hash : Digest.Hash) (storage : Storage σ) : List Op → Writer → σ → List Attempt
  | [], _, _ => []
  | op :: rest, w, s =>
    (w.attempt? hash storage op s).toList ++
      attempts hash storage rest (w.handle hash storage op s).2.1 (w.handle hash storage op s).2.2

variable {hash : Digest.Hash} {storage : Storage σ} {op : Op} {w : Writer} {s : σ} {a : Attempt}

lemma receive_commit (force : Bool) : w.receive (.commit force) = w := by
  simp [receive, Op.records]

lemma attempt?_of_tries (hcodec : w.codec = .plain) (h : w.tries op = true) :
    w.attempt? hash storage op s =
      some ⟨(w.receive op).batch, (w.receive op).batch.segment hash,
        (storage.append w.path ((w.receive op).batch.segment hash) s).1⟩ := by
  have hreceived : (w.receive op).codec = .plain := hcodec
  rw [attempt?, if_pos h, segment_of_plain hreceived]
  rfl

lemma attempt?_eq_none_iff (hcodec : w.codec = .plain) :
    w.attempt? hash storage op s = none ↔ w.tries op = false := by
  cases h : w.tries op with
  | true => simp [attempt?_of_tries hcodec h]
  | false => simp [attempt?, h]

/-- A request that makes the writer try no append leaves at most a record waiting. -/
lemma handle_of_none (hcodec : w.codec = .plain) (h : w.attempt? hash storage op s = none) :
    w.handle hash storage op s = (.ok (), w.receive op, s) := by
  rw [attempt?_eq_none_iff hcodec] at h
  cases op with
  | write record =>
    have hroom : ¬ w.batchSize ≤ (w.pending ++ [record]).length := by
      simpa [tries, receive, Op.records] using h
    rw [handle, write]
    exact if_neg hroom
  | commit force =>
    rw [receive_commit]
    exact commit_of_not_isDue h

/-- A request that makes the writer try an append reports what the storage said to it. -/
lemma handle_of_some (hcodec : w.codec = .plain) (h : w.attempt? hash storage op s = some a) :
    a.batch = (w.receive op).batch ∧ a.segment = a.batch.segment hash ∧
      a.outcome = (storage.append w.path a.segment s).1 ∧
      w.handle hash storage op s =
        (liftStorage a.outcome, (w.receive op).settle a, (storage.append w.path a.segment s).2) := by
  have htries : w.tries op = true := by
    by_contra hnot
    rw [attempt?, if_neg hnot] at h
    cases h
  rw [attempt?_of_tries hcodec htries] at h
  cases h
  refine ⟨rfl, rfl, rfl, ?_⟩
  cases op with
  | write record =>
    have hfull : w.batchSize ≤ (w.receive (.write record)).pending.length := by simpa [tries] using htries
    have hdue : (w.receive (.write record)).isDue true = true := by simp [isDue, receive, Op.records]
    rw [handle, write]
    exact (if_pos hfull).trans (commit_of_isDue hcodec hdue)
  | commit force =>
    rw [receive_commit]
    exact commit_of_isDue hcodec htries

lemma attempts_append (before rest : List Op) (w : Writer) (s : σ) :
    w.attempts hash storage (before ++ rest) s =
      w.attempts hash storage before s ++
        (w.serve hash storage before s).1.attempts hash storage rest (w.serve hash storage before s).2 := by
  induction before generalizing w s with
  | nil => rfl
  | cons op before ih =>
    rw [List.cons_append, attempts, attempts, ih, List.append_assoc]
    rfl

lemma attempts_singleton :
    w.attempts hash storage [op] s = (w.attempt? hash storage op s).toList := by
  rw [attempts, attempts, List.append_nil]

/-! ### Any run of requests -/

/-- A writer after requests that brought some records and made it try some appends. -/
structure Tallies (hash : Digest.Hash) (path : String) (run : RunId) (full : Nat)
    (written : List Record) (tried : List Attempt) (w : Writer) : Prop where
  path_eq : w.path = path
  codec_eq : w.codec = .plain
  run_eq : w.run = run
  batchSize_eq : w.batchSize = full
  records_eq : tried.flatMap (·.batch.records) ++ w.pending = written
  pending_lt : w.pending.length < full
  nextSeq_eq : w.nextSeq = UInt64.ofNat (tried.filter Attempt.succeeded).length
  committed_eq : w.committed = ((tried.filter Attempt.succeeded).flatMap (·.batch.records)).length
  numbered : ∀ (i : Nat) (a : Attempt), (tried.filter Attempt.succeeded)[i]? = some a →
    a.batch.run = run ∧ a.batch.seq = UInt64.ofNat i
  segment_eq : ∀ a ∈ tried, a.segment = a.batch.segment hash

section Tallies

variable {path : String} {run : RunId} {full : Nat} {written : List Record} {tried : List Attempt}

lemma Tallies.of_create (hash : Digest.Hash) {batchSize : Nat} {s₀ : σ}
    (h : create storage path .plain batchSize run s₀ = (.ok w, s)) :
    w.Tallies hash path run (max batchSize 1) [] [] := by
  have hw : w = ⟨path, .plain, run, max batchSize 1, [], 0, 0⟩ := by
    rw [create] at h
    split at h <;> cases h
    rfl
  subst hw
  refine ⟨rfl, rfl, rfl, rfl, rfl, ?_, rfl, rfl, by simp, by simp⟩
  rw [List.length_nil]
  omega

/-- A batch that is not full is not committed unless that is forced. -/
lemma Tallies.isDue_false (h : w.Tallies hash path run full written tried) : w.isDue false = false := by
  have hlt := h.pending_lt
  have hroom : ¬ w.batchSize ≤ w.pending.length := by
    rw [h.batchSize_eq]
    omega
  simp [isDue, hroom]

lemma Tallies.receive (h : w.Tallies hash path run full written tried)
    (hnone : w.attempt? hash storage op s = none) :
    (w.receive op).Tallies hash path run full (written ++ op.records) tried where
  path_eq := h.path_eq
  codec_eq := h.codec_eq
  run_eq := h.run_eq
  batchSize_eq := h.batchSize_eq
  records_eq := by rw [Writer.receive, ← List.append_assoc, h.records_eq]
  pending_lt := by
    rw [attempt?_eq_none_iff h.codec_eq] at hnone
    cases op with
    | write record =>
      rw [← h.batchSize_eq]
      simpa [tries] using hnone
    | commit force =>
      rw [receive_commit]
      exact h.pending_lt
  nextSeq_eq := h.nextSeq_eq
  committed_eq := h.committed_eq
  numbered := h.numbered
  segment_eq := h.segment_eq

lemma Tallies.settle (hfull : 0 < full) (h : w.Tallies hash path run full written tried)
    (hbatch : a.batch = (w.receive op).batch) (hsegment : a.segment = a.batch.segment hash) :
    ((w.receive op).settle a).Tallies hash path run full (written ++ op.records) (tried ++ [a]) where
  path_eq := h.path_eq
  codec_eq := h.codec_eq
  run_eq := h.run_eq
  batchSize_eq := h.batchSize_eq
  records_eq := by
    have hrecords : a.batch.records = w.pending ++ op.records := by
      rw [hbatch]
      rfl
    rw [List.flatMap_append, List.flatMap_singleton, hrecords, ← List.append_assoc, h.records_eq]
    exact List.append_nil _
  pending_lt := hfull
  nextSeq_eq := by
    rw [List.filter_append, List.length_append, Writer.settle]
    cases hok : a.succeeded with
    | true => simp [hok, Writer.receive, h.nextSeq_eq, UInt64.ofNat_add]
    | false => simp [hok, Writer.receive, h.nextSeq_eq]
  committed_eq := by
    rw [List.filter_append, List.flatMap_append, List.length_append, Writer.settle, ← h.committed_eq]
    cases hok : a.succeeded with
    | true => simp [hok, Writer.receive]
    | false => simp [hok, Writer.receive]
  numbered i b hi := by
    rw [List.filter_append] at hi
    rcases Nat.lt_or_ge i (tried.filter Attempt.succeeded).length with hlt | hge
    · rw [List.getElem?_append_left hlt] at hi
      exact h.numbered i b hi
    · -- Only the last place is new, and its number is that up to which the writer has counted.
      rw [List.getElem?_append_right hge] at hi
      cases hok : a.succeeded with
      | false => simp [hok] at hi
      | true =>
        obtain ⟨hi, rfl⟩ : i - (tried.filter Attempt.succeeded).length = 0 ∧ a = b := by
          simpa [hok, List.getElem?_singleton] using hi
        rw [hbatch]
        refine ⟨h.run_eq, h.nextSeq_eq.trans ?_⟩
        congr 1
        omega
  segment_eq b hb := by
    rcases List.mem_append.1 hb with hb | hb
    · exact h.segment_eq b hb
    · rw [List.mem_singleton.1 hb]
      exact hsegment

lemma Tallies.handle (hfull : 0 < full) (h : w.Tallies hash path run full written tried)
    (storage : Storage σ) (op : Op) (s : σ) :
    (w.handle hash storage op s).2.1.Tallies hash path run full (written ++ op.records)
      (tried ++ (w.attempt? hash storage op s).toList) := by
  cases ha : w.attempt? hash storage op s with
  | none =>
    rw [handle_of_none h.codec_eq ha]
    simpa using h.receive ha
  | some a =>
    obtain ⟨hbatch, hsegment, _, hhandle⟩ := handle_of_some h.codec_eq ha
    rw [hhandle]
    exact h.settle hfull hbatch hsegment

theorem Tallies.serve (hfull : 0 < full) (h : w.Tallies hash path run full [] [])
    (storage : Storage σ) (ops : List Op) (s : σ) :
    (w.serve hash storage ops s).1.Tallies hash path run full (ops.flatMap Op.records)
      (w.attempts hash storage ops s) := by
  induction ops using List.reverseRecOn with
  | nil => exact h
  | append_singleton ops op ih =>
    rw [serve_append, attempts_append, attempts_singleton, List.flatMap_append, List.flatMap_singleton]
    exact ih.handle hfull storage op _

/-- The batches that were appended are those of the run, in order. -/
lemma Tallies.consecutive (h : w.Tallies hash path run full written tried)
    (hlen : (tried.filter Attempt.succeeded).length ≤ UInt64.size) :
    Consecutive run ((tried.filter Attempt.succeeded).map Attempt.batch) := by
  intro i b hi
  rw [List.getElem?_map, Option.map_eq_some_iff] at hi
  obtain ⟨a, ha, rfl⟩ := hi
  obtain ⟨hrun, hseq⟩ := h.numbered i a ha
  have hlt : i < (tried.filter Attempt.succeeded).length := (List.getElem?_eq_some_iff.1 ha).1
  refine ⟨hrun, ?_⟩
  rw [hseq, UInt64.toNat_ofNat']
  exact Nat.mod_eq_of_lt (Nat.lt_of_lt_of_le hlt hlen)

end Tallies

end Writer

end ForkTree.Log
