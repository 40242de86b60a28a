import ForkTree.Proofs.WriterAttempts

/-!
Files put together from the segments of several writers. A writer lives amid others: each of its requests
finds the storage in a state that they may have changed (`Life`). The segments that it did append still
are those of its run, in order, so a segment is told apart from all others by its run and its number. A
reader takes the batches of one run in order and no others. Hence of all files made of appended segments,
it reads those that hold the first few of one writer, and finds the batches of these
(`read_segments_eq_ok_iff`).
-/

namespace ForkTree.Log

/-- The life of a writer: where and how it began, and its requests with the states of the storage in
which they were made. A log that is closed ends with a forced commit. -/
structure Life where
  State : Type
  storage : Storage State
  path : String
  batchSize : Nat
  run : RunId
  start : State
  requests : List (Writer.Op × State)

/-- The appends that a writer tries, whatever became of the storage before each request. -/
def Writer.attemptsAmid (hash : Digest.Hash) {σ : Type} (storage : Storage σ) :
    List (Op × σ) → Writer → List Attempt
  | [], _ => []
  | (op, s) :: rest, w =>
    (w.attempt? hash storage op s).toList ++
      attemptsAmid hash storage rest (w.handle hash storage op s).2.1

/-- The segments that a writer did append, in order. -/
def Life.commits (hash : Digest.Hash) (life : Life) : List Attempt :=
  match (Writer.create life.storage life.path .plain life.batchSize life.run life.start).1 with
  | .ok w => (w.attemptsAmid hash life.storage life.requests).filter Attempt.succeeded
  | .error _ => []

/-- What a writer has tried does not depend on what happened to the storage in between. -/
lemma Writer.Tallies.amid {hash : Digest.Hash} {σ : Type} {path : String} {run : RunId} {full : Nat}
    {written : List Record} {tried : List Attempt} {w : Writer} (hfull : 0 < full)
    (h : w.Tallies hash path run full written tried) (storage : Storage σ) (requests : List (Op × σ)) :
    ∃ v : Writer, v.Tallies hash path run full (written ++ requests.flatMap fun (op, _) => op.records)
      (tried ++ w.attemptsAmid hash storage requests) := by
  induction requests generalizing w written tried with
  | nil => exact ⟨w, by simpa [attemptsAmid] using h⟩
  | cons request rest ih =>
    obtain ⟨op, s⟩ := request
    obtain ⟨v, hv⟩ := ih (h.handle hfull storage op s)
    refine ⟨v, ?_⟩
    rw [attemptsAmid, List.flatMap_cons, ← List.append_assoc, ← List.append_assoc]
    exact hv

namespace Life

variable {hash : Digest.Hash} {life : Life}

/-- The segments of a writer are those of its run, in order. -/
lemma exists_tallies (hash : Digest.Hash) (life : Life) :
    ∃ (w : Writer) (full : Nat) (written : List Record) (tried : List Attempt),
      life.commits hash = tried.filter Attempt.succeeded ∧
      w.Tallies hash life.path life.run full written tried := by
  rw [commits]
  split
  · next w heq =>
    have hcreate : Writer.create life.storage life.path .plain life.batchSize life.run life.start =
        (.ok w, (Writer.create life.storage life.path .plain life.batchSize life.run life.start).2) :=
      Prod.ext heq rfl
    have hfull : 0 < max life.batchSize 1 := by omega
    obtain ⟨v, hv⟩ := (Writer.Tallies.of_create hash hcreate).amid hfull life.storage life.requests
    exact ⟨v, _, _, _, rfl, hv⟩
  · exact ⟨⟨life.path, .plain, life.run, 1, [], 0, 0⟩, 1, [], [], rfl, rfl, rfl, rfl, rfl, rfl, by simp,
      rfl, rfl, by simp, by simp⟩

lemma consecutive (hlen : (life.commits hash).length ≤ UInt64.size) :
    Consecutive life.run ((life.commits hash).map Attempt.batch) := by
  obtain ⟨w, full, written, tried, hcommits, htallies⟩ := life.exists_tallies hash
  rw [hcommits] at hlen ⊢
  exact htallies.consecutive hlen

lemma segment_eq {a : Attempt} (ha : a ∈ life.commits hash) : a.segment = a.batch.segment hash := by
  obtain ⟨w, full, written, tried, hcommits, htallies⟩ := life.exists_tallies hash
  rw [hcommits, List.mem_filter] at ha
  exact htallies.segment_eq a ha.1

/-- The number in a segment is its place among those of the writer. -/
lemma getElem?_seq (hlen : (life.commits hash).length ≤ UInt64.size) {a : Attempt}
    (ha : a ∈ life.commits hash) :
    a.batch.run = life.run ∧ (life.commits hash)[a.batch.seq.toNat]? = some a := by
  obtain ⟨i, hi⟩ := List.mem_iff_getElem?.1 ha
  obtain ⟨hrun, hseq⟩ := consecutive hlen i a.batch (by rw [List.getElem?_map, hi]; rfl)
  rw [hseq]
  exact ⟨hrun, hi⟩

end Life

lemma Consecutive.of_isPrefix {run : RunId} {batches more : List Batch} (h : Consecutive run more)
    (hinit : batches <+: more) : Consecutive run batches := by
  obtain ⟨rest, rfl⟩ := hinit
  intro i b hi
  refine h i b ?_
  rw [List.getElem?_append_left (List.getElem?_eq_some_iff.1 hi).1, hi]

section Fleet

variable {hash : Digest.Hash} {ι : Type*} {life : ι → Life}

/-- Segments in the order of a run are the first few of the writer with that run. -/
lemma isPrefix_of_consecutive (hruns : Function.Injective fun i => (life i).run)
    (hlen : ∀ i, ((life i).commits hash).length ≤ UInt64.size) {chosen : List Attempt}
    (hchosen : ∀ a ∈ chosen, ∃ i, a ∈ (life i).commits hash) {run : RunId}
    (hconsecutive : Consecutive run (chosen.map Attempt.batch)) (hne : chosen ≠ []) :
    ∃ i, chosen <+: (life i).commits hash := by
  -- The number in a segment is its place in the file, and also its place among those of its writer.
  have hplace : ∀ (k : Nat) (a : Attempt), chosen[k]? = some a →
      ∃ i, (life i).run = run ∧ ((life i).commits hash)[k]? = some a := by
    intro k a hk
    obtain ⟨i, ha⟩ := hchosen a (List.mem_of_getElem? hk)
    obtain ⟨hrun, hseq⟩ := hconsecutive k a.batch (by rw [List.getElem?_map, hk]; rfl)
    obtain ⟨hown, hget⟩ := Life.getElem?_seq (hlen i) ha
    rw [hseq] at hget
    exact ⟨i, hown.symm.trans hrun, hget⟩
  obtain ⟨first, rest, rfl⟩ := List.exists_cons_of_ne_nil hne
  obtain ⟨i, hi, _⟩ := hplace 0 first rfl
  refine ⟨i, List.prefix_iff_getElem?.2 fun k hk => ?_⟩
  obtain ⟨j, hj, hget⟩ := hplace k _ (List.getElem?_eq_getElem hk)
  have hsame : j = i := hruns (hj.trans hi.symm)
  rw [← hsame]
  exact hget

/-- The attempts behind segments. -/
lemma exists_attempts {segments : List Bytes}
    (h : ∀ segment ∈ segments, ∃ i, segment ∈ ((life i).commits hash).map Attempt.segment) :
    ∃ chosen : List Attempt, chosen.map Attempt.segment = segments ∧
      ∀ a ∈ chosen, ∃ i, a ∈ (life i).commits hash := by
  induction segments with
  | nil => exact ⟨[], rfl, by simp⟩
  | cons segment segments ih =>
    obtain ⟨i, hi⟩ := h segment List.mem_cons_self
    obtain ⟨a, ha, rfl⟩ := List.mem_map.1 hi
    obtain ⟨chosen, rfl, hchosen⟩ := ih fun segment hsegment => h segment (List.mem_cons_of_mem _ hsegment)
    exact ⟨a :: chosen, rfl, List.forall_mem_cons.2 ⟨⟨i, ha⟩, hchosen⟩⟩

end Fleet

/-- A file of segments of writers with runs of their own can be read exactly if these are the first few
of one writer, in its order. What is read are their batches. -/
theorem read_segments_eq_ok_iff (hash : Digest.Hash) {ι : Type*} {life : ι → Life}
    (hruns : Function.Injective fun i => (life i).run)
    (hlen : ∀ i, ((life i).commits hash).length ≤ UInt64.size)
    (hfits : ∀ i, ∀ a ∈ (life i).commits hash, a.batch.toBytes.length ≤ maxPayload)
    {segments : List Bytes}
    (hsegments : ∀ segment ∈ segments, ∃ i, segment ∈ ((life i).commits hash).map Attempt.segment)
    {σ : Type} {storage : Storage σ} {path : String} {s : σ}
    (hreads : storage.Reads path s segments.flatten) (found : Contents) :
    read hash storage s path = .ok found ↔
      (segments = [] ∧ found = .empty) ∨
        ∃ i, segments <+: ((life i).commits hash).map Attempt.segment ∧
          found = .ofBatches ((((life i).commits hash).take segments.length).map Attempt.batch) := by
  have hread : ∀ chosen : List Attempt, chosen.map Attempt.segment = segments →
      (∀ a ∈ chosen, ∃ i, a ∈ (life i).commits hash) →
      (read hash storage s path = .ok found ↔
        (∃ run, Consecutive run (chosen.map Attempt.batch)) ∧
          found = .ofBatches (chosen.map Attempt.batch)) := by
    intro chosen hmap hchosen
    rw [← hmap, ← List.flatMap_def] at hreads
    rw [read_segments hash hreads, foldlM_extend_eq_ok_iff]
    · intro a ha
      obtain ⟨i, hi⟩ := hchosen a ha
      exact Life.segment_eq hi
    · intro a ha
      obtain ⟨i, hi⟩ := hchosen a ha
      exact hfits i a hi
  constructor
  · intro hfound
    obtain ⟨chosen, hmap, hchosen⟩ := exists_attempts hsegments
    obtain ⟨⟨run, hconsecutive⟩, rfl⟩ := (hread chosen hmap hchosen).1 hfound
    by_cases hne : chosen = []
    · subst hne
      exact .inl ⟨hmap.symm, rfl⟩
    · obtain ⟨i, hinit⟩ := isPrefix_of_consecutive hruns hlen hchosen hconsecutive hne
      refine .inr ⟨i, hmap ▸ hinit.map Attempt.segment, ?_⟩
      rw [← hmap, List.length_map, ← List.prefix_iff_eq_take.1 hinit]
  · rintro (⟨rfl, rfl⟩ | ⟨i, hinit, rfl⟩)
    · exact (hread [] rfl (by simp)).2 ⟨⟨default, by simp [Consecutive]⟩, rfl⟩
    · have htake : (((life i).commits hash).take segments.length).map Attempt.segment = segments := by
        rw [List.map_take]
        exact (List.prefix_iff_eq_take.1 hinit).symm
      refine (hread _ htake fun a ha => ⟨i, List.mem_of_mem_take ha⟩).2 ⟨⟨(life i).run, ?_⟩, rfl⟩
      exact (Life.consecutive (hlen i)).of_isPrefix ((List.take_prefix _ _).map _)

/-- Two writers that each lose their second batch, and a file of the two segments of one of them. -/
theorem read_segments_eq_ok_of_two :
    let file : Storage.Memory := Storage.Memory.empty.set "log" []
    let life : Bool → Life := fun second =>
      { State := Storage.Memory, storage := .memory, path := "log", batchSize := 1
        run := RunId.ofNat second.toNat, start := .empty
        requests := [(.write (.root ⟨1⟩), file), (.write (.root ⟨2⟩), .empty),
          (.write (.root ⟨3⟩), file)] }
    let commits := (life true).commits Digest.Blake3.digest
    let segments := commits.map Attempt.segment
    (Function.Injective fun i => (life i).run) ∧
      (∀ i, ((life i).commits Digest.Blake3.digest).length ≤ UInt64.size) ∧
      (∀ i, ∀ a ∈ (life i).commits Digest.Blake3.digest, a.batch.toBytes.length ≤ maxPayload) ∧
      (∀ segment ∈ segments,
        ∃ i, segment ∈ ((life i).commits Digest.Blake3.digest).map Attempt.segment) ∧
      Storage.memory.Reads "log" (Storage.Memory.empty.set "log" segments.flatten) segments.flatten ∧
      read Digest.Blake3.digest Storage.memory (Storage.Memory.empty.set "log" segments.flatten) "log" =
        .ok ⟨some (RunId.ofNat 1), 2, [.root ⟨1⟩, .root ⟨3⟩]⟩ := by
  intro file life commits segments
  have hruns : Function.Injective fun i => (life i).run := by
    intro i j h
    cases i <;> cases j <;> first | rfl | exact absurd h (by decide)
  have hlen : ∀ i, ((life i).commits Digest.Blake3.digest).length ≤ UInt64.size := by
    decide +kernel
  have hfits : ∀ i, ∀ a ∈ (life i).commits Digest.Blake3.digest,
      a.batch.toBytes.length ≤ maxPayload := by
    decide +kernel
  have hsegments : ∀ segment ∈ segments,
      ∃ i, segment ∈ ((life i).commits Digest.Blake3.digest).map Attempt.segment :=
    fun _ hsegment => ⟨true, hsegment⟩
  have hreads := (Storage.keeps_memory "log").reads
    (Storage.Memory.get?_set_self .empty "log" segments.flatten)
  refine ⟨hruns, hlen, hfits, hsegments, hreads, ?_⟩
  refine (read_segments_eq_ok_iff Digest.Blake3.digest hruns hlen hfits hsegments hreads _).2
    (.inr ⟨true, List.prefix_refl _, ?_⟩)
  decide +kernel

end ForkTree.Log
