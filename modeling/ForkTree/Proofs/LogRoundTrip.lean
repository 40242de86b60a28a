import ForkTree.Digest.Blake3
import ForkTree.Proofs.LogReading
import ForkTree.Proofs.RecordRoundTrip
import ForkTree.Proofs.WriterRun
import Mathlib.Data.List.Induction

/-!
What is written can be read. Requests cut the records that they bring into batches, by a rule that knows
neither file nor encoding (`Cut`). A writer tracks the cut of its requests: the records that wait are the
same, and its file is a log with one entry for each batch (`Tracks`). Each request keeps that
(`Tracks.handle`), so it holds after any run of them, and the log of a cut is read as the records of its
batches. The main result is `read_serve`, on storage that never fails and as long as each batch fits in
a segment.
-/

namespace ForkTree.Log

/-- Records cut into batches, and those that wait. -/
structure Cut where
  batches : List (List Record)
  waiting : List Record
  deriving DecidableEq

def Writer.Op.records : Writer.Op → List Record
  | .write record => [record]
  | .commit _ => []

namespace Cut

def empty : Cut := ⟨[], []⟩

def push (c : Cut) (record : Record) : Cut := ⟨c.batches, c.waiting ++ [record]⟩

/-- What waits becomes a batch, if it is to and if there is anything. -/
def close (c : Cut) (now : Bool) : Cut :=
  if now && !c.waiting.isEmpty then ⟨c.batches ++ [c.waiting], []⟩ else c

/-- A batch is cut when it is full, and when a commit is forced. -/
def take (full : Nat) (c : Cut) : Writer.Op → Cut
  | .write record => (c.push record).close (full ≤ (c.push record).waiting.length)
  | .commit force => c.close (force || full ≤ c.waiting.length)

def ofOps (full : Nat) (ops : List Writer.Op) : Cut := ops.foldl (take full) empty

def records (c : Cut) : List Record := c.batches.flatten ++ c.waiting

lemma ofOps_append_singleton (full : Nat) (ops : List Writer.Op) (op : Writer.Op) :
    ofOps full (ops ++ [op]) = (ofOps full ops).take full op := by
  rw [ofOps, List.foldl_append]
  rfl

lemma records_close (c : Cut) (now : Bool) : (c.close now).records = c.records := by
  rw [close]
  split
  · simp [records]
  · rfl

lemma records_take (full : Nat) (c : Cut) (op : Writer.Op) :
    (c.take full op).records = c.records ++ op.records := by
  cases op with
  | write record =>
    rw [take, records_close, records, push, ← List.append_assoc]
    rfl
  | commit force => rw [take, records_close, Writer.Op.records, List.append_nil]

/-- Nothing is lost, doubled or moved. -/
lemma records_ofOps (full : Nat) (ops : List Writer.Op) :
    (ofOps full ops).records = ops.flatMap Writer.Op.records := by
  induction ops using List.reverseRecOn with
  | nil => rfl
  | append_singleton ops op ih =>
    rw [ofOps_append_singleton, records_take, ih, List.flatMap_append, List.flatMap_singleton]

lemma waiting_close_true (c : Cut) : (c.close true).waiting = [] := by
  rw [close]
  split
  · rfl
  · next h => simpa using h

/-- A full batch does not wait. -/
lemma length_waiting_take {full : Nat} (hfull : 0 < full) (c : Cut) (op : Writer.Op) :
    (c.take full op).waiting.length < full := by
  have hclose : ∀ (d : Cut) (now : Bool), (full ≤ d.waiting.length → now = true) →
      (d.close now).waiting.length < full := by
    intro d now hnow
    by_cases hlen : full ≤ d.waiting.length
    · rw [hnow hlen, waiting_close_true]
      exact hfull
    · rw [close]
      split
      · exact hfull
      · exact Nat.lt_of_not_le hlen
  cases op with
  | write record => exact hclose _ _ fun hlen => decide_eq_true hlen
  | commit force =>
    refine hclose _ _ fun hlen => ?_
    rw [decide_eq_true hlen, Bool.or_true]

lemma length_waiting_ofOps {full : Nat} (hfull : 0 < full) (ops : List Writer.Op) :
    (ofOps full ops).waiting.length < full := by
  rcases ops.eq_nil_or_concat with rfl | ⟨ops, op, rfl⟩
  · exact hfull
  · rw [List.concat_eq_append, ofOps_append_singleton]
    exact length_waiting_take hfull _ op

/-- The batches of a run are numbered in 64 bits, which is more than a file has room for, and each fits
in a segment. -/
structure Fits (run : RunId) (c : Cut) : Prop where
  length_le : c.batches.length ≤ UInt64.size
  payload_le : ∀ (i : Nat) (records : List Record), c.batches[i]? = some records →
    (Batch.toBytes ⟨run, UInt64.ofNat i, records⟩).length ≤ maxPayload

lemma batches_close (c : Cut) (now : Bool) : c.batches <+: (c.close now).batches := by
  rw [close]
  split
  · exact List.prefix_append _ _
  · exact List.prefix_refl _

lemma batches_take (full : Nat) (c : Cut) (op : Writer.Op) : c.batches <+: (c.take full op).batches := by
  cases op with
  | write record => exact batches_close (c.push record) _
  | commit force => exact batches_close c _

lemma Fits.mono {run : RunId} {c d : Cut} (h : d.Fits run) (hle : c.batches <+: d.batches) :
    c.Fits run where
  length_le := Nat.le_trans hle.length_le h.length_le
  payload_le i records hi := h.payload_le i records (by
    obtain ⟨more, hmore⟩ := hle
    rw [← hmore]
    rw [List.getElem?_append_left (List.getElem?_eq_some_iff.1 hi).1]
    exact hi)

/-- The entry that a writer makes of a batch. -/
def entry (batch : Batch) : Entry := ⟨0, batch.toBytes, batch⟩

def entries (run : RunId) (c : Cut) : List Entry :=
  c.batches.mapIdx fun i records => entry ⟨run, UInt64.ofNat i, records⟩

def bytes (hash : Digest.Hash) (run : RunId) (c : Cut) : Bytes :=
  (c.entries run).flatMap (Entry.text hash)

lemma isLog_bytes {run : RunId} {c : Cut} (hash : Digest.Hash) (h : c.Fits run) :
    IsLog hash run (c.bytes hash run) (c.entries run) where
  bytes_eq := rfl
  fits i e he := by
    rw [entries, List.getElem?_mapIdx, Option.map_eq_some_iff] at he
    obtain ⟨records, hi, rfl⟩ := he
    have hlt : i < c.batches.length := (List.getElem?_eq_some_iff.1 hi).1
    refine ⟨h.payload_le i records hi, Batch.ofBytes?_toBytes _, rfl, ?_⟩
    change (UInt64.ofNat i).toNat = i
    rw [UInt64.toNat_ofNat']
    exact Nat.mod_eq_of_lt (Nat.lt_of_lt_of_le hlt h.length_le)

lemma contentsOf_entries (run : RunId) (c : Cut) :
    contentsOf (c.entries run) =
      ⟨if c.batches = [] then none else some run, c.batches.length, c.batches.flatten⟩ := by
  have hrecords : (c.entries run).flatMap (fun e => e.batch.records) = c.batches.flatten := by
    rw [entries, List.flatMap_def]
    congr 1
    refine List.ext_getElem? fun i => ?_
    rw [List.getElem?_map, List.getElem?_mapIdx, Option.map_map]
    cases c.batches[i]? <;> rfl
  have hrun : (c.entries run).head?.map (fun e => e.batch.run) =
      if c.batches = [] then none else some run := by
    rw [entries]
    cases c.batches with
    | nil => rfl
    | cons batch batches =>
      rw [List.mapIdx_cons, if_neg (List.cons_ne_nil _ _)]
      rfl
  rw [contentsOf, hrecords, hrun, entries, List.length_mapIdx]

lemma entries_close_true {run : RunId} {c : Cut} (h : c.waiting ≠ []) :
    (c.close true).entries run =
      c.entries run ++ [entry ⟨run, UInt64.ofNat c.batches.length, c.waiting⟩] := by
  have hsome : (true && !c.waiting.isEmpty) = true := by simpa using h
  rw [close, if_pos hsome, entries, List.mapIdx_concat, entries]

end Cut

lemma Batch.segment_eq (hash : Digest.Hash) {b : Batch} (h : b.toBytes.length ≤ maxPayload) :
    b.segment hash = (Cut.entry b).text hash :=
  frame_eq_text hash b (lt_size_of_le_maxPayload h)

/-! ### The writer -/

namespace Writer

variable {σ : Type} {storage : Storage σ} {path : String} {content : σ → Option Bytes}
  {hash : Digest.Hash} {run : RunId} {full : Nat} {c : Cut} {w : Writer} {s : σ}

/-- A writer and its storage after requests that make a cut. -/
structure Tracks (hash : Digest.Hash) (path : String) (content : σ → Option Bytes) (run : RunId)
    (full : Nat) (c : Cut) (w : Writer) (s : σ) : Prop where
  path_eq : w.path = path
  codec_eq : w.codec = .plain
  run_eq : w.run = run
  batchSize_eq : w.batchSize = full
  pending_eq : w.pending = c.waiting
  nextSeq_eq : w.nextSeq = UInt64.ofNat c.batches.length
  committed_eq : w.committed = c.batches.flatten.length
  content_eq : content s = some (c.bytes hash run)

lemma create_eq (hash : Digest.Hash) (hkeeps : storage.Keeps path content) (batchSize : Nat)
    (run : RunId) (s : σ) :
    ∃ w t, create storage path .plain batchSize run s = (.ok w, t) ∧
      w.Tracks hash path content run (max batchSize 1) .empty t := by
  obtain ⟨hok, hcontent⟩ := hkeeps.create_eq s
  rw [create]
  cases hcreate : storage.create path s with
  | mk outcome t =>
    rw [hcreate] at hok hcontent
    simp only at hok hcontent
    subst hok
    exact ⟨_, t, rfl, rfl, rfl, rfl, rfl, rfl, rfl, rfl, hcontent⟩

lemma Tracks.push (h : w.Tracks hash path content run full c s) (record : Record) :
    Tracks hash path content run full (c.push record) { w with pending := w.pending ++ [record] } s where
  path_eq := h.path_eq
  codec_eq := h.codec_eq
  run_eq := h.run_eq
  batchSize_eq := h.batchSize_eq
  pending_eq := by rw [h.pending_eq, Cut.push]
  nextSeq_eq := h.nextSeq_eq
  committed_eq := h.committed_eq
  content_eq := h.content_eq

lemma Tracks.isDue_eq (h : w.Tracks hash path content run full c s) (force : Bool) :
    w.isDue force = ((force || full ≤ c.waiting.length) && !c.waiting.isEmpty) := by
  rw [isDue, h.pending_eq, h.batchSize_eq, Bool.and_comm]

/-- A commit that is due adds the segment of the batch to the file. -/
lemma Tracks.commit_of_isDue (hkeeps : storage.Keeps path content)
    (h : w.Tracks hash path content run full c s) {force : Bool} (hdue : w.isDue force = true) :
    ∃ t, w.commit hash storage force s = (.ok (),
        { w with pending := [], nextSeq := w.nextSeq + 1, committed := w.committed + w.pending.length },
        t) ∧
      content t = some (c.bytes hash run ++ w.batch.segment hash) := by
  obtain ⟨hok, hcontent⟩ := hkeeps.append_eq s _ h.content_eq (w.batch.segment hash)
  rw [← h.path_eq] at hok hcontent
  refine ⟨_, ?_, hcontent⟩
  rw [Writer.commit_of_isDue h.codec_eq hdue, hok]
  rfl

lemma Tracks.commit_ok (hkeeps : storage.Keeps path content)
    (h : w.Tracks hash path content run full c s) (force : Bool) :
    (w.commit hash storage force s).1 = .ok () := by
  rcases Bool.eq_false_or_eq_true (w.isDue force) with hdue | hdue
  · obtain ⟨t, hcommit, _⟩ := h.commit_of_isDue hkeeps hdue
    rw [hcommit]
  · rw [commit_of_not_isDue hdue]

lemma Tracks.commit (hkeeps : storage.Keeps path content)
    (h : w.Tracks hash path content run full c s) (force : Bool)
    (hfits : (c.close (force || full ≤ c.waiting.length)).Fits run) :
    Tracks hash path content run full (c.close (force || full ≤ c.waiting.length))
      (w.commit hash storage force s).2.1 (w.commit hash storage force s).2.2 := by
  rcases Bool.eq_false_or_eq_true (w.isDue force) with hdue | hdue
  · obtain ⟨t, hcommit, hcontent⟩ := h.commit_of_isDue hkeeps hdue
    rw [h.isDue_eq, Bool.and_eq_true] at hdue
    obtain ⟨hnow, hwaiting⟩ := hdue
    rw [hnow] at hfits ⊢
    have hne : c.waiting ≠ [] := by simpa using hwaiting
    have hclose : c.close true = ⟨c.batches ++ [c.waiting], []⟩ := by
      rw [Cut.close, if_pos (by simpa using hne)]
    have hbatch : w.batch = ⟨run, UInt64.ofNat c.batches.length, c.waiting⟩ := by
      rw [batch, h.run_eq, h.nextSeq_eq, h.pending_eq]
    have hpayload : w.batch.toBytes.length ≤ maxPayload := by
      rw [hbatch]
      exact hfits.payload_le c.batches.length c.waiting (by rw [hclose]; simp)
    rw [hcommit]
    refine ⟨h.path_eq, h.codec_eq, h.run_eq, h.batchSize_eq, ?_, ?_, ?_, ?_⟩
    · rw [hclose]
    · rw [hclose, h.nextSeq_eq, List.length_append, List.length_singleton, UInt64.ofNat_add]
      rfl
    · rw [hclose, h.committed_eq, h.pending_eq, List.flatten_append, List.length_append,
        List.flatten_singleton]
    · rw [hcontent, Batch.segment_eq hash hpayload, hbatch, Cut.bytes, Cut.bytes, Cut.entries_close_true hne,
        List.flatMap_append, List.flatMap_singleton]
  · have hsame : c.close (force || full ≤ c.waiting.length) = c := by
      rw [Cut.close, ← h.isDue_eq, hdue]
      rfl
    rw [hsame, commit_of_not_isDue hdue]
    exact h

lemma Tracks.handle_ok (hkeeps : storage.Keeps path content)
    (h : w.Tracks hash path content run full c s) (op : Op) : (w.handle hash storage op s).1 = .ok () := by
  cases op with
  | write record =>
    rw [handle, write]
    split
    · exact (h.push record).commit_ok hkeeps true
    · rfl
  | commit force => exact h.commit_ok hkeeps force

lemma Tracks.handle (hkeeps : storage.Keeps path content)
    (h : w.Tracks hash path content run full c s) (op : Op) (hfits : (c.take full op).Fits run) :
    Tracks hash path content run full (c.take full op) (w.handle hash storage op s).2.1
      (w.handle hash storage op s).2.2 := by
  cases op with
  | write record =>
    have hpush := h.push record
    have hlen : w.batchSize ≤ (w.pending ++ [record]).length ↔
        full ≤ (c.push record).waiting.length := by
      rw [h.batchSize_eq, h.pending_eq, Cut.push]
    rw [Cut.take] at hfits ⊢
    rw [Writer.handle, write]
    by_cases hfull : full ≤ (c.push record).waiting.length
    · have htrue : decide (full ≤ (c.push record).waiting.length) = true := decide_eq_true hfull
      have hcommit := hpush.commit hkeeps true
      rw [Bool.true_or] at hcommit
      rw [htrue] at hfits ⊢
      simp only [if_pos (hlen.2 hfull)]
      exact hcommit hfits
    · have hsame : (c.push record).close (full ≤ (c.push record).waiting.length) = c.push record := by
        rw [decide_eq_false hfull]
        rfl
      simp only [if_neg fun hle => hfull (hlen.1 hle)]
      rw [hsame]
      exact hpush
  | commit force => exact h.commit hkeeps force hfits

theorem Tracks.serve (hkeeps : storage.Keeps path content)
    (h : w.Tracks hash path content run full .empty s) (ops : List Op)
    (hfits : (Cut.ofOps full ops).Fits run) :
    Tracks hash path content run full (Cut.ofOps full ops) (w.serve hash storage ops s).1
      (w.serve hash storage ops s).2 := by
  induction ops using List.reverseRecOn with
  | nil => exact h
  | append_singleton ops op ih =>
    rw [Cut.ofOps_append_singleton] at hfits ⊢
    rw [serve_append]
    exact (ih (hfits.mono (Cut.batches_take full _ op))).handle hkeeps op hfits

/-- The file of a writer holds the batches of the cut. -/
lemma Tracks.read_eq (hkeeps : storage.Keeps path content)
    (h : w.Tracks hash path content run full c s) (hfits : c.Fits run) :
    read hash storage s path =
      .ok ⟨if c.batches = [] then none else some run, c.batches.length, c.batches.flatten⟩ := by
  rw [read_isLog hash (hkeeps.reads h.content_eq) (Cut.isLog_bytes hash hfits), Cut.contentsOf_entries]

/-- What a reader finds of a writer that was given some records and made some commits. -/
structure ReadsBack (hash : Digest.Hash) (storage : Storage σ) (written : List Record) (commits : Nat)
    (w : Writer) (s : σ) (found : Contents) : Prop where
  read_eq : read hash storage s w.path = .ok found
  records_eq : found.records ++ w.pending = written
  batches_eq : found.batches = commits
  length_eq : found.records.length = w.committed
  run_eq : found.run = if commits = 0 then none else some w.run

lemma Tracks.readsBack (hkeeps : storage.Keeps path content) {ops : List Op}
    (h : w.Tracks hash path content run full (Cut.ofOps full ops) s)
    (hfits : (Cut.ofOps full ops).Fits run) :
    ∃ found, w.ReadsBack hash storage (ops.flatMap Op.records) (Cut.ofOps full ops).batches.length s
      found := by
  refine ⟨_, (congrArg _ h.path_eq).trans (h.read_eq hkeeps hfits), ?_, rfl, h.committed_eq.symm, ?_⟩
  · rw [h.pending_eq]
    exact Cut.records_ofOps full ops
  · rw [h.run_eq]
    simp only [List.length_eq_zero_iff]

/-- On storage that never fails, and as long as the batches fit, every request succeeds, and after each
of them the log is read as the records that do not wait, in one batch for each commit. Fewer records
wait than make a batch, none after a forced commit, and closing the log brings all of them into it. -/
theorem read_serve (hash : Digest.Hash) {storage : Storage σ} {path : String}
    {content : σ → Option Bytes} (hkeeps : storage.Keeps path content) (batchSize : Nat) (run : RunId)
    (s₀ : σ) (ops : List Op) (hfits : (Cut.ofOps (max batchSize 1) ops).Fits run) :
    ∃ w₀ s₁, create storage path .plain batchSize run s₀ = (.ok w₀, s₁) ∧
      ∀ w s, w₀.serve hash storage ops s₁ = (w, s) →
        w.path = path ∧ w.run = run ∧
        (∀ op, (w.handle hash storage op s).1 = .ok ()) ∧
        (∃ found, w.ReadsBack hash storage (ops.flatMap Op.records)
          (Cut.ofOps (max batchSize 1) ops).batches.length s found) ∧
        w.pending.length < max batchSize 1 ∧
        (w.commit hash storage true s).2.1.pending = [] ∧
        ((Cut.ofOps (max batchSize 1) (ops ++ [.commit true])).Fits run →
          ∃ found, read hash storage (w.close hash storage s) path = .ok found ∧
            found.records = ops.flatMap Op.records ∧
            found.batches = (Cut.ofOps (max batchSize 1) (ops ++ [.commit true])).batches.length ∧
            found.run = if found.batches = 0 then none else some run) := by
  have hfull : 0 < max batchSize 1 := Nat.lt_of_lt_of_le Nat.one_pos (Nat.le_max_right _ _)
  obtain ⟨w₀, s₁, hcreate, hstart⟩ := create_eq hash hkeeps batchSize run s₀
  refine ⟨w₀, s₁, hcreate, fun w s hserve => ?_⟩
  have htracks := hstart.serve hkeeps ops hfits
  rw [hserve] at htracks
  refine ⟨htracks.path_eq, htracks.run_eq, htracks.handle_ok hkeeps, htracks.readsBack hkeeps hfits,
    ?_, ?_, fun hclosed => ?_⟩
  · rw [htracks.pending_eq]
    exact Cut.length_waiting_ofOps hfull ops
  · rcases Bool.eq_false_or_eq_true (w.isDue true) with hdue | hdue
    · obtain ⟨t, hcommit, _⟩ := htracks.commit_of_isDue hkeeps hdue
      rw [hcommit]
    · have hempty : w.pending = [] := by simpa [isDue] using hdue
      rw [commit, hdue]
      exact hempty
  · have hrecords := Cut.records_ofOps (max batchSize 1) (ops ++ [.commit true])
    rw [Cut.ofOps_append_singleton] at hclosed hrecords ⊢
    have hread := (htracks.handle hkeeps (.commit true) hclosed).read_eq hkeeps hclosed
    have hwaiting : ((Cut.ofOps (max batchSize 1) ops).take (max batchSize 1) (.commit true)).waiting = [] :=
      Cut.waiting_close_true _
    refine ⟨_, hread, ?_, rfl, ?_⟩
    · rw [Cut.records, hwaiting, List.append_nil, List.flatMap_append, List.flatMap_singleton] at hrecords
      exact hrecords.trans (List.append_nil _)
    · simp only [List.length_eq_zero_iff]

/-- Three records in batches of two, a commit that is not due, and the end of the log. -/
theorem read_serve_of_three :
    let records : List Record := [.root ⟨1⟩, .branch ⟨1⟩ ⟨2⟩ ⟨3⟩ 7 .conditional,
      .terminate ⟨2⟩ (some ⟨5⟩) 9 .exit]
    let ops := records.map Op.write ++ [.commit false]
    (Cut.ofOps 2 ops).Fits default ∧ (Cut.ofOps 2 (ops ++ [.commit true])).Fits default ∧
      ∃ w₀ s₁ w s, create Storage.memory "log" .plain 2 default .empty = (.ok w₀, s₁) ∧
        w₀.serve Digest.Blake3.digest Storage.memory ops s₁ = (w, s) ∧
        (∃ found, w.ReadsBack Digest.Blake3.digest Storage.memory records 1 s found) ∧
        ∃ found, read Digest.Blake3.digest Storage.memory (w.close Digest.Blake3.digest Storage.memory s)
          "log" = .ok found ∧ found.records = records ∧ found.batches = 2 := by
  intro records ops
  have hclosed : (Cut.ofOps 2 (ops ++ [.commit true])).Fits default := by
    refine ⟨by decide, fun i batch hi => ?_⟩
    have hlt : i < 2 := (List.getElem?_eq_some_iff.1 hi).1
    match i, hlt, hi with
    | 0, _, hi =>
      cases hi
      decide +kernel
    | 1, _, hi =>
      cases hi
      decide +kernel
  have hfits : (Cut.ofOps 2 ops).Fits default := by
    rw [Cut.ofOps_append_singleton] at hclosed
    exact hclosed.mono (Cut.batches_take 2 _ _)
  obtain ⟨w₀, s₁, hcreate, hserve⟩ := read_serve Digest.Blake3.digest (Storage.keeps_memory "log") 2
    default .empty ops hfits
  obtain ⟨_, _, _, hfound, _, _, hclose⟩ := hserve _ _ rfl
  obtain ⟨found, hread, hrecords, hbatches, _⟩ := hclose hclosed
  exact ⟨hfits, hclosed, w₀, s₁, _, _, hcreate, rfl, hfound, found, hread, hrecords, hbatches⟩

end Writer

end ForkTree.Log
