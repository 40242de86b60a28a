import ForkTree.Proofs.WriterAttempts
import Mathlib.Algebra.Order.BigOperators.Group.List
import Mathlib.Algebra.Order.Ring.Nat

/-!
How long segments get, against the length that a reader takes. A record is an object of a few members
whose numbers have at most twenty digits, so its text is no longer than that of `Record.longest`
(`Record.width_le`). A batch is written around the texts of its records (`Batch.length_toBytes`), and it
holds no more of them than the writer lets wait (`Writer.Tallies.length_records_le`). The writer does not
look at the length of what it appends, and a reader refuses a header that announces too much
(`checkHeader_segment`). So batch sizes up to a limit are safe and all above are not
(`checkHeader_attempts_iff`): there the writer commits a segment that makes the log unreadable
(`read_of_overfull`).
-/

namespace ForkTree

namespace Json

/-- The number of bytes of a value's text without blanks. -/
def width (j : Json) : Nat := (Bytes.ofText j.compact).length

lemma length_behindFirst {α : Type} (part : α → Bytes) (parts : List α) :
    (behindFirst part parts).length = (parts.map fun p => (part p).length + 1).sum := by
  simp [behindFirst, List.length_flatMap]

lemma width_array {items : List Json} (h : items ≠ []) :
    (array items).width = 1 + (items.map fun j => j.width + 1).sum := by
  obtain ⟨j, items, rfl⟩ := List.exists_cons_of_ne_nil h
  have htext : Bytes.ofText (array (j :: items)).compact = 0x5b :: (Bytes.ofText j.compact ++
      (behindFirst (fun i => Bytes.ofText i.compact) items ++ [0x5d])) :=
    compactLayout.text_array_cons 0 j items
  rw [width, htext, List.length_cons, List.length_append, List.length_append, length_behindFirst,
    List.map_cons, List.sum_cons, List.length_singleton]
  simp only [width]
  omega

lemma width_array_le {items : List Json} {bound : Nat} (h : ∀ j ∈ items, j.width ≤ bound) :
    (array items).width ≤ 2 + (bound + 1) * items.length := by
  by_cases hne : items = []
  · subst hne
    exact (by decide : (array []).width ≤ 2)
  · have hsum : (items.map fun j => j.width + 1).sum ≤
        (items.map fun j => j.width + 1).length * (bound + 1) := by
      refine List.sum_le_card_nsmul _ _ fun n hn => ?_
      obtain ⟨j, hj, rfl⟩ := List.mem_map.1 hn
      exact Nat.succ_le_succ (h j hj)
    rw [List.length_map, Nat.mul_comm] at hsum
    rw [width_array hne]
    omega

lemma length_memberBytes (m : String × Json) :
    (memberBytes [] (fun j => Bytes.ofText j.compact) m).length = (text m.1).width + m.2.width + 1 := by
  rw [memberBytes, List.nil_append, List.length_append, List.length_cons]
  rfl

lemma width_object {members : List (String × Json)} (h : members ≠ []) :
    (object members).width = 1 + (members.map fun m => (text m.1).width + m.2.width + 2).sum := by
  obtain ⟨m, members, rfl⟩ := List.exists_cons_of_ne_nil h
  have htext : Bytes.ofText (object (m :: members)).compact = 0x7b ::
      (memberBytes [] (fun j => Bytes.ofText j.compact) m ++
        (behindFirst (memberBytes [] fun j => Bytes.ofText j.compact) members ++ [0x7d])) :=
    compactLayout.text_object_cons 0 m members
  rw [width, htext, List.length_cons, List.length_append, List.length_append, length_behindFirst,
    List.map_cons, List.sum_cons]
  simp only [length_memberBytes, List.length_singleton, Nat.add_assoc, Nat.reduceAdd]
  omega

lemma width_nat (n : Nat) : (Json.nat n).width = (Text.row n).length := by
  have hcompact : (Json.nat n).compact = Text.decimal n := by
    rfl
  rw [width, hcompact, Text.ofText_decimal, List.length_map]

lemma width_uint64_le (n : UInt64) : (Json.nat n.toNat).width ≤ 20 := by
  rw [width_nat]
  exact Text.length_row_le (Nat.lt_trans n.toNat_lt_size (by decide))

lemma width_uint32_le (n : UInt32) : (Json.nat n.toNat).width ≤ 20 := by
  rw [width_nat]
  exact Text.length_row_le (Nat.lt_trans n.toNat_lt_size (by decide))

/-- A text in which every character is a byte that stands for itself. -/
lemma width_text {s : String}
    (h : ∀ c ∈ s.toList, escapeChar c = [c] ∧ (String.utf8EncodeChar c).length = 1) :
    (text s).width = s.toList.length + 2 := by
  have hescape : s.toList.flatMap escapeChar = s.toList := by
    rw [List.flatMap_def, List.map_congr_left fun c hc => (h c hc).1, ← List.flatMap_def]
    exact List.flatMap_singleton' _
  have hbytes : (s.toList.flatMap String.utf8EncodeChar).length = s.toList.length := by
    rw [List.length_flatMap, List.map_congr_left fun c hc => (h c hc).2, List.map_const',
      List.sum_replicate_nat, Nat.mul_one]
  change (Bytes.ofText (quote s)).length = _
  rw [quote, hescape, Bytes.ofText_ofList, List.cons_append, List.flatMap_cons, List.flatMap_append,
    List.length_append, List.length_append, hbytes]
  change 1 + (_ + 1) = _
  omega

end Json

/-- A run is written as thirty-six characters between quotes. -/
lemma RunId.width_toJson (run : RunId) : run.toJson.width = 38 := by
  have hdigit : ∀ n < 16, Json.escapeChar (Text.Hex.digit n) = [Text.Hex.digit n] ∧
      (String.utf8EncodeChar (Text.Hex.digit n)).length = 1 := by decide
  have hdigits : ∀ b : Bytes, ∀ c ∈ Text.Hex.digits b,
      Json.escapeChar c = [c] ∧ (String.utf8EncodeChar c).length = 1 := by
    intro b c hc
    rw [Text.Hex.digits, List.mem_flatMap] at hc
    obtain ⟨x, _, hc⟩ := hc
    have hx : x.toNat < 256 := x.toNat_lt
    rw [List.mem_cons, List.mem_singleton] at hc
    rcases hc with rfl | rfl
    · exact hdigit _ (by omega)
    · exact hdigit _ (by omega)
  have hhyphen : Json.escapeChar '-' = ['-'] ∧ (String.utf8EncodeChar '-').length = 1 := by decide
  rw [toJson, Json.width_text, run.length_toList_shown]
  intro c hc
  rw [run.toList_shown] at hc
  simp only [List.mem_append, List.mem_cons] at hc
  rcases hc with hc | rfl | hc | rfl | hc | rfl | hc | rfl | hc
  all_goals first | exact hhyphen | exact hdigits _ c hc

namespace Log

namespace Record

/-- A record with a text of the greatest length. -/
def longest : Record :=
  branch ⟨UInt64.ofNat (2 ^ 64 - 1)⟩ ⟨UInt64.ofNat (2 ^ 64 - 1)⟩ ⟨UInt64.ofNat (2 ^ 64 - 1)⟩
    (UInt64.ofNat (2 ^ 64 - 1)) .resolvePointer

lemma width_longest : longest.toJson.width = 161 := by decide +kernel

lemma width_reason_le (reason : BranchReason) : reason.toJson.width ≤ 16 := by
  cases reason <;> decide

lemma width_kind_le (kind : TerminationKind) : kind.toJson.width ≤ 23 := by
  cases kind <;> decide

lemma width_le (r : Record) : r.toJson.width ≤ 161 := by
  cases r with
  | root id =>
    have hid : id.toJson.width ≤ 20 := Json.width_uint64_le id.val
    have hnames : (Json.text "type").width = 6 ∧ (Json.text "root").width = 6 ∧
        (Json.text "id").width = 4 := by decide
    rw [toJson, Json.width_object (by simp)]
    simp only [List.map_cons, List.map_nil, List.sum_cons, List.sum_nil]
    omega
  | branch id left right line reason =>
    have hid : id.toJson.width ≤ 20 := Json.width_uint64_le id.val
    have hleft : left.toJson.width ≤ 20 := Json.width_uint64_le left.val
    have hright : right.toJson.width ≤ 20 := Json.width_uint64_le right.val
    have hline := Json.width_uint64_le line
    have hreason := width_reason_le reason
    have hnames : (Json.text "type").width = 6 ∧ (Json.text "branch").width = 8 ∧
        (Json.text "id").width = 4 ∧ (Json.text "left").width = 6 ∧ (Json.text "right").width = 7 ∧
        (Json.text "source_line").width = 13 ∧ (Json.text "reason").width = 8 := by decide
    rw [toJson, Json.width_object (by simp)]
    simp only [List.map_cons, List.map_nil, List.sum_cons, List.sum_nil]
    omega
  | terminate id state line kind =>
    have hid : id.toJson.width ≤ 20 := Json.width_uint64_le id.val
    have hline := Json.width_uint64_le line
    have hkind := width_kind_le kind
    have hnames : (Json.text "type").width = 6 ∧ (Json.text "terminate").width = 11 ∧
        (Json.text "id").width = 4 ∧ (Json.text "state").width = 7 ∧
        (Json.text "source_line").width = 13 ∧ (Json.text "kind").width = 6 := by decide
    cases state with
    | none =>
      rw [toJson, Json.width_object (by simp)]
      simp only [List.cons_append, List.nil_append, List.map_cons, List.map_nil, List.sum_cons,
        List.sum_nil]
      omega
    | some state =>
      have hstate : state.toJson.width ≤ 20 := Json.width_uint32_le state.val
      rw [toJson, Json.width_object (by simp)]
      simp only [List.cons_append, List.nil_append, List.map_cons, List.map_nil, List.sum_cons,
        List.sum_nil]
      omega

end Record

namespace Batch

/-- The text of a batch stands around that of its records. -/
lemma length_toBytes (b : Batch) :
    b.toBytes.length =
      64 + (Json.nat b.seq.toNat).width + (Json.array (b.records.map Record.toJson)).width := by
  have hnames : (Json.text "run").width = 5 ∧ (Json.text "seq").width = 5 ∧
      (Json.text "records").width = 9 := by decide
  have hrun := b.run.width_toJson
  change b.toJson.width = _
  rw [toJson, Json.width_object (by simp)]
  simp only [List.map_cons, List.map_nil, List.sum_cons, List.sum_nil]
  omega

lemma length_toBytes_le (b : Batch) : b.toBytes.length ≤ 86 + 162 * b.records.length := by
  have hseq := Json.width_uint64_le b.seq
  have hall : ∀ j ∈ b.records.map Record.toJson, j.width ≤ 161 := by
    intro j hj
    obtain ⟨r, _, rfl⟩ := List.mem_map.1 hj
    exact r.width_le
  have hrecords := Json.width_array_le hall
  rw [List.length_map] at hrecords
  rw [length_toBytes]
  omega

lemma length_toBytes_longest (run : RunId) {n : Nat} (h : 0 < n) :
    (Batch.mk run 0 (List.replicate n .longest)).toBytes.length = 66 + 162 * n := by
  have hseq : (Json.nat (0 : UInt64).toNat).width = 1 := by decide
  have hne : (List.replicate n Record.longest).map Record.toJson ≠ [] := by
    simpa using Nat.ne_of_gt h
  rw [length_toBytes, hseq, Json.width_array hne, List.map_map, List.map_replicate,
    List.sum_replicate_nat, Function.comp_apply, Record.width_longest]
  omega

end Batch

/-- What a reader says of the lengths in the header of a segment. -/
def checkHeader (segment : Bytes) : Except Error Unit := do
  let h ← Header.ofBytes? (segment.take Header.size)
  h.checkSizes maxPayload

lemma checkHeader_segment (hash : Digest.Hash) {b : Batch} (h : b.toBytes.length < UInt64.size) :
    checkHeader (b.segment hash) =
      if b.toBytes.length ≤ maxPayload then .ok ()
      else .error (.corrupt (.oversized b.toBytes.length b.toBytes.length maxPayload)) := by
  have hsegment : b.segment hash = (Cut.entry b).text hash := frame_eq_text hash b h
  have hheader : Header.ofBytes? (Cut.entry b).header =
      .ok ⟨.plain, UInt64.ofNat b.toBytes.length, UInt64.ofNat b.toBytes.length⟩ :=
    Header.ofBytes?_header h
  rw [checkHeader, hsegment, Entry.take_text, hheader]
  simp only [bind, Except.bind, Header.checkSizes_plain h]

lemma Batch.size_le_length_segment (hash : Digest.Hash) (b : Batch) :
    Header.size ≤ (b.segment hash).length := by
  rw [segment, frame]
  simp only [List.length_append, Header.length_toBytes]
  omega

/-- A reader stops at a header that it refuses. -/
lemma read_of_checkHeader (hash : Digest.Hash) {σ : Type} {storage : Storage σ} {path : String} {s : σ}
    {b : Bytes} (hreads : storage.Reads path s b) (hlen : Header.size ≤ b.length) {e : Error}
    (h : checkHeader b = .error e) : read hash storage s path = .error e := by
  have hheader : storage.readRange path 0 Header.size s = .ok (b.take Header.size) :=
    hreads.readRange_eq 0 Header.size (Nat.zero_le _)
  have htake : ¬ (b.take Header.size).length < Header.size := by
    rw [List.length_take]
    omega
  have hsegment : readSegment hash storage s path 0 = .error e := by
    unfold readSegment
    rw [checkHeader] at h
    simp only [hheader, liftStorage, bind, Except.bind, htake, if_false] at h ⊢
    cases hparse : Header.ofBytes? (b.take Header.size) with
    | error refusal =>
      rw [hparse] at h
      cases h
      rfl
    | ok header =>
      rw [hparse] at h
      simp only at h
      simp only [h]
  obtain ⟨fuel, hfuel⟩ : ∃ fuel, b.length = fuel + 1 := ⟨b.length - 1, by
    rw [Header.size] at hlen
    omega⟩
  have hpos : 0 < b.length := by omega
  rw [read, hreads.size_eq]
  change readFrom hash storage s path b.length b.length 0 .empty = _
  nth_rewrite 2 [hfuel]
  rw [readFrom, if_pos hpos, hsegment]
  rfl

/-! ### What a writer appends -/

namespace Writer

variable {σ : Type} {hash : Digest.Hash} {storage : Storage σ} {path : String} {run : RunId} {full : Nat}
  {written : List Record} {tried : List Attempt} {w : Writer} {s : σ}

/-- No batch has more records than may wait. -/
lemma Tallies.length_records_le (hfull : 0 < full) (h : w.Tallies hash path run full written tried)
    (storage : Storage σ) (ops : List Op) (s : σ) :
    ∀ a ∈ w.attempts hash storage ops s, a.batch.records.length ≤ full := by
  induction ops generalizing w written tried s with
  | nil => simp [attempts]
  | cons op rest ih =>
    intro a ha
    rw [attempts, List.mem_append] at ha
    rcases ha with ha | ha
    · have hsome : w.attempt? hash storage op s = some a := by simpa using ha
      obtain ⟨hbatch, _⟩ := handle_of_some h.codec_eq hsome
      have hrecords : a.batch.records = w.pending ++ op.records := by
        rw [hbatch]
        rfl
      have hlt := h.pending_lt
      have hop : op.records.length ≤ 1 := by cases op <;> simp [Op.records]
      rw [hrecords, List.length_append]
      omega
    · exact ih (h.handle hfull storage op s) _ a ha

/-- Records wait until the batch is full. -/
lemma serve_of_room (hash : Digest.Hash) (storage : Storage σ) (s : σ) (hcodec : w.codec = .plain)
    {records : List Record} (hroom : w.pending.length + records.length < w.batchSize) :
    w.attempts hash storage (records.map .write) s = [] ∧
      w.serve hash storage (records.map .write) s =
        ({ w with pending := w.pending ++ records }, s) := by
  induction records generalizing w with
  | nil =>
    refine ⟨rfl, ?_⟩
    rw [List.append_nil]
    rfl
  | cons r records ih =>
    have hlt : ¬ w.batchSize ≤ (w.pending ++ [r]).length := by
      rw [List.length_append, List.length_singleton]
      rw [List.length_cons] at hroom
      omega
    have htries : w.tries (.write r) = false := decide_eq_false hlt
    have hnone : w.attempt? hash storage (.write r) s = none := (attempt?_eq_none_iff hcodec).2 htries
    have hhandle := handle_of_none hcodec hnone
    obtain ⟨hattempts, hserve⟩ := ih (w := w.receive (.write r)) hcodec (by
      simp only [receive, Op.records, List.length_append, List.length_singleton]
      rw [List.length_cons] at hroom
      omega)
    refine ⟨?_, ?_⟩
    · rw [List.map_cons, attempts, hnone, hhandle, hattempts]
      rfl
    · rw [List.map_cons]
      change (w.handle hash storage (.write r) s).2.1.serve hash storage (records.map .write)
        (w.handle hash storage (.write r) s).2.2 = _
      rw [hhandle, hserve]
      simp [receive, Op.records]

/-- An append takes the records that wait and the one that a request brings, and none waits behind it. -/
lemma serve_of_tries (hash : Digest.Hash) (storage : Storage σ) (s : σ) (hcodec : w.codec = .plain)
    (hempty : w.pending = []) {records : List Record} (hroom : records.length < w.batchSize) {op : Op}
    (htries : ({ w with pending := records }).tries op) :
    let batch : Batch := ⟨w.run, w.nextSeq, records ++ op.records⟩
    let result := storage.append w.path (batch.segment hash) s
    w.attempts hash storage (records.map .write ++ [op]) s = [⟨batch, batch.segment hash, result.1⟩] ∧
      ∃ v : Writer, v.codec = .plain ∧ v.pending = [] ∧
        w.serve hash storage (records.map .write ++ [op]) s = (v, result.2) := by
  intro batch result
  let full : Writer := { w with pending := records }
  have hwait : w.pending.length + records.length < w.batchSize := by
    rw [hempty]
    simpa using hroom
  obtain ⟨hattempts, hserve⟩ := serve_of_room hash storage s hcodec hwait
  rw [hempty, List.nil_append] at hserve
  have hsome : full.attempt? hash storage op s = some ⟨batch, batch.segment hash, result.1⟩ :=
    attempt?_of_tries hcodec htries
  obtain ⟨_, _, _, hhandle⟩ := handle_of_some (w := full) hcodec hsome
  refine ⟨?_, (full.receive op).settle ⟨batch, batch.segment hash, result.1⟩, hcodec, rfl, ?_⟩
  · rw [attempts_append, hattempts, hserve, attempts_singleton, hsome]
    rfl
  · rw [serve_append, hserve]
    change (full.handle hash storage op s).2 = _
    rw [hhandle]

/-- Any records that are not too many for one batch become one when they are all that is written. -/
lemma serve_of_le (hash : Digest.Hash) (storage : Storage σ) (s : σ) (hcodec : w.codec = .plain)
    (hempty : w.pending = []) {records : List Record} (hne : records ≠ [])
    (hle : records.length ≤ w.batchSize) :
    let batch : Batch := ⟨w.run, w.nextSeq, records⟩
    let result := storage.append w.path (batch.segment hash) s
    let requests := records.map .write ++ [.commit true]
    w.attempts hash storage requests s = [⟨batch, batch.segment hash, result.1⟩] ∧
      (w.serve hash storage requests s).2 = result.2 := by
  intro batch result requests
  rcases Nat.eq_or_lt_of_le hle with hfull | hroom
  · -- The last record makes the batch full, and nothing is left for the commit.
    obtain ⟨init, last, rfl⟩ := (List.eq_nil_or_concat' records).resolve_left hne
    rw [List.length_append, List.length_singleton] at hfull
    have htries : ({ w with pending := init }).tries (.write last) = true := by
      simp [tries, receive, Op.records, hfull]
    obtain ⟨hattempts, v, hv, hwaits, hserve⟩ := serve_of_tries hash storage s hcodec hempty
      (by omega) htries
    have hdone : v.isDue true = false := by simp [isDue, hwaits]
    have hnone : v.attempt? hash storage (.commit true) result.2 = none :=
      (attempt?_eq_none_iff hv).2 hdone
    have hwrites : requests = (init.map .write ++ [.write last]) ++ [.commit true] := by
      simp only [requests, List.map_append, List.map_singleton]
    rw [hwrites]
    refine ⟨?_, ?_⟩
    · rw [attempts_append, hattempts, hserve, attempts_singleton]
      exact congrArg (_ :: ·) (congrArg Option.toList hnone)
    · rw [serve_append, hserve]
      change (v.handle hash storage (.commit true) result.2).2.2 = _
      rw [handle_of_none hv hnone]
  · have htries : ({ w with pending := records }).tries (.commit true) = true := by
      simpa [tries, isDue] using hne
    obtain ⟨hattempts, v, _, _, hserve⟩ := serve_of_tries hash storage s hcodec hempty hroom
      htries
    simp only [Op.records, List.append_nil] at hattempts hserve
    refine ⟨hattempts, ?_⟩
    rw [hserve]

/-- Such a batch in memory. -/
lemma exists_commit (hash : Digest.Hash) {records : List Record} (hne : records ≠ []) {batchSize : Nat}
    (hle : records.length ≤ batchSize) :
    let requests := records.map .write ++ [.commit true]
    ∃ w file a, create Storage.memory "log" .plain batchSize default .empty = (.ok w, file) ∧
      w.attempts hash .memory requests file = [a] ∧ a.succeeded = true ∧
      a.segment = (Batch.mk default 0 records).segment hash ∧
      Storage.memory.Reads "log" (w.serve hash .memory requests file).2 a.segment := by
  intro requests
  let w : Writer := ⟨"log", .plain, default, max batchSize 1, [], 0, 0⟩
  let file := Storage.Memory.empty.set "log" []
  have hkeeps := Storage.keeps_memory "log"
  obtain ⟨happend, hcontent⟩ := hkeeps.append_eq file [] (Storage.Memory.get?_set_self .empty "log" [])
    ((Batch.mk default 0 records).segment hash)
  obtain ⟨hattempts, hserve⟩ := serve_of_le (w := w) hash .memory file rfl rfl hne (by
    change records.length ≤ max batchSize 1
    omega)
  refine ⟨w, file, _, rfl, hattempts, ?_, rfl, ?_⟩
  · exact congrArg (Except.isOk : Except Storage.Fault Unit → Bool) happend
  · rw [hserve]
    exact hkeeps.reads hcontent

end Writer

/-- The fewest records that can be too much for one segment. -/
def overfull : List Record := List.replicate 1657009 .longest

lemma length_overfull : overfull.length = 1657009 := List.length_replicate

lemma overfull_ne_nil : overfull ≠ [] :=
  List.ne_nil_of_length_pos (by rw [length_overfull]; decide)

lemma checkHeader_overfull (hash : Digest.Hash) (run : RunId) :
    checkHeader ((Batch.mk run 0 overfull).segment hash) =
      .error (.corrupt (.oversized 268435524 268435524 maxPayload)) := by
  have hlen : (Batch.mk run 0 overfull).toBytes.length = 268435524 :=
    Batch.length_toBytes_longest run (by decide)
  have hlimit : ¬ 268435524 ≤ maxPayload := by decide
  rw [checkHeader_segment hash (by rw [hlen]; decide), hlen, if_neg hlimit]

/-- With batch sizes up to a limit, and with no others, a reader refuses no header of a segment that a
writer committed. The limit is what `Batch.length_toBytes_le` leaves of `maxPayload`, a share of 162 bytes
for each record. -/
theorem checkHeader_attempts_iff (hash : Digest.Hash) (batchSize : Nat) :
    (∀ (σ : Type) (storage : Storage σ) (path : String) (run : RunId) (start opened : σ) (w : Writer)
        (requests : List Writer.Op),
      Writer.create storage path .plain batchSize run start = (.ok w, opened) →
      ∀ a ∈ w.attempts hash storage requests opened, a.succeeded = true →
        checkHeader a.segment = .ok ()) ↔
      batchSize ≤ 1657008 := by
  constructor
  · intro hsafe
    by_contra hlarge
    have hroom : overfull.length ≤ batchSize := by
      rw [length_overfull]
      omega
    obtain ⟨w, file, a, hcreate, hattempts, hok, hsegment, _⟩ :=
      Writer.exists_commit hash overfull_ne_nil hroom
    have hpasses := hsafe _ _ _ _ _ _ w _ hcreate a (by rw [hattempts]; exact List.mem_singleton_self a)
      hok
    rw [hsegment, checkHeader_overfull] at hpasses
    cases hpasses
  · intro hsmall σ storage path run start opened w requests hcreate a ha _
    have htallies := Writer.Tallies.of_create hash hcreate
    have hfull : 0 < max batchSize 1 := by omega
    have hrecords := htallies.length_records_le hfull storage requests opened a ha
    have hlen := a.batch.length_toBytes_le
    have hfits : a.batch.toBytes.length ≤ maxPayload := by
      rw [maxPayload]
      omega
    rw [(htallies.serve hfull storage requests opened).segment_eq a ha,
      checkHeader_segment hash (lt_size_of_le_maxPayload hfits), if_pos hfits]

/-- The first batch size that is not safe. The commit succeeds, and the log cannot be read any more. -/
theorem read_of_overfull :
    let requests := overfull.map .write ++ [.commit true]
    ∃ w file a, Writer.create Storage.memory "log" .plain 1657009 default .empty = (.ok w, file) ∧
      w.attempts Digest.Blake3.digest .memory requests file = [a] ∧ a.succeeded = true ∧
      checkHeader a.segment = .error (.corrupt (.oversized 268435524 268435524 maxPayload)) ∧
      read Digest.Blake3.digest .memory (w.serve Digest.Blake3.digest .memory requests file).2 "log" =
        .error (.corrupt (.oversized 268435524 268435524 maxPayload)) := by
  intro requests
  obtain ⟨w, file, a, hcreate, hattempts, hok, hsegment, hreads⟩ :=
    Writer.exists_commit Digest.Blake3.digest overfull_ne_nil (Nat.le_of_eq length_overfull)
  have hrefused := checkHeader_overfull Digest.Blake3.digest default
  rw [← hsegment] at hrefused
  have hsize : Header.size ≤ a.segment.length := by
    rw [hsegment]
    exact Batch.size_le_length_segment _ _
  exact ⟨w, file, a, hcreate, hattempts, hok, hrefused, read_of_checkHeader _ hreads hsize hrefused⟩

end Log

end ForkTree
