import ForkTree.Proofs.FailedAppends
import ForkTree.Proofs.LogGrammar

/-!
Logs that were damaged after they were written. What a writer leaves in its file is a log (`Writing.isLog`),
and a file is read exactly if it is one. If the end is missing, either whole segments are left, and they are
a log again, or the last segment is torn; a reader goes as far as that one and finds too few bytes for its
header or for what the header announces (`readSegment_part`). If one byte is another one, the file is no log:
both lengths in a header say the same, so not both are changed, and a segment that still is one has the same
length as before; but then either its checksum is taken of other bytes or it is itself another
(`text_set_append_ne`). The main results are `read_truncated` and `read_changed`.
-/

namespace ForkTree

lemma Storage.Keeps.atomic {σ : Type} {storage : Storage σ} {path : String}
    {content : σ → Option Bytes} (h : storage.Keeps path content) : storage.Atomic path content where
  create_eq s _ := (h.create_eq s).2
  append_eq s b hb more := by
    obtain ⟨hok, hcontent⟩ := h.append_eq s b hb more
    rw [hok]
    exact hcontent
  reads _ _ hb := h.reads hb

lemma Digest.bytes_injective : Function.Injective Digest.bytes := by
  rintro ⟨bytes, _⟩ ⟨_, _⟩ rfl
  rfl

namespace Log

/-- A log starts on an empty file. -/
lemma Writer.content_of_create {σ : Type} {storage : Storage σ} {path : String}
    {content : σ → Option Bytes} (hatomic : storage.Atomic path content) {batchSize : Nat} {run : RunId}
    {s t : σ} {w : Writer} (h : create storage path .plain batchSize run s = (.ok w, t)) :
    content t = some [] := by
  have hcreate := hatomic.create_eq s
  rw [create] at h
  split at h
  · next heq =>
    rw [heq] at hcreate
    cases h
    exact hcreate rfl
  · cases h

/-- A writer with the plain codec on storage whose appends happen as a whole or not at all, and what is
asked of it. A log that is closed ends with a forced commit. -/
structure Writing where
  State : Type
  storage : Storage State
  path : String
  content : State → Option Bytes
  atomic : storage.Atomic path content
  batchSize : Nat
  run : RunId
  start : State
  writer : Writer
  opened : State
  created : Writer.create storage path .plain batchSize run start = (.ok writer, opened)
  requests : List Writer.Op

namespace Writing

variable {hash : Digest.Hash} {x : Writing}

/-- The appends that succeeded. -/
def commits (hash : Digest.Hash) (x : Writing) : List Attempt :=
  (x.writer.attempts hash x.storage x.requests x.opened).filter Attempt.succeeded

/-- What is in the file after the requests. -/
def file? (hash : Digest.Hash) (x : Writing) : Option Bytes :=
  x.content (x.writer.serve hash x.storage x.requests x.opened).2

/-- The batches that were committed, as entries. -/
def entries (hash : Digest.Hash) (x : Writing) : List Entry :=
  (x.commits hash).map fun a => Cut.entry a.batch

lemma tallies (hash : Digest.Hash) (x : Writing) :
    (x.writer.serve hash x.storage x.requests x.opened).1.Tallies hash x.path x.run
      (max x.batchSize 1) (x.requests.flatMap Writer.Op.records)
      (x.writer.attempts hash x.storage x.requests x.opened) :=
  (Writer.Tallies.of_create hash x.created).serve (by omega) x.storage x.requests x.opened

lemma segment_eq {a : Attempt} (ha : a ∈ x.commits hash) : a.segment = a.batch.segment hash :=
  (x.tallies hash).segment_eq a (List.mem_filter.1 ha).1

lemma file?_eq (hash : Digest.Hash) (x : Writing) :
    x.file? hash = some ((x.commits hash).flatMap Attempt.segment) := by
  have hempty := Writer.content_of_create x.atomic x.created
  exact (Writer.Tallies.of_create hash x.created).content_serve x.atomic (by omega) hempty x.requests

lemma segments_eq (hfits : ∀ a ∈ x.commits hash, a.batch.toBytes.length ≤ maxPayload) :
    (x.commits hash).map Attempt.segment = (x.entries hash).map (Entry.text hash) :=
  map_segment hash (fun _ => segment_eq) hfits

lemma isLog (hlen : (x.commits hash).length ≤ UInt64.size)
    (hfits : ∀ a ∈ x.commits hash, a.batch.toBytes.length ≤ maxPayload) {b : Bytes}
    (hfile : x.file? hash = some b) : IsLog hash x.run b (x.entries hash) where
  bytes_eq := by
    rw [file?_eq, List.flatMap_def, segments_eq hfits, ← List.flatMap_def] at hfile
    exact (Option.some.inj hfile).symm
  fits i e he := by
    rw [entries, List.getElem?_map, Option.map_eq_some_iff] at he
    obtain ⟨a, ha, rfl⟩ := he
    obtain ⟨hrun, hseq⟩ := (x.tallies hash).consecutive hlen i a.batch (by
      rw [List.getElem?_map]
      exact congrArg (Option.map Attempt.batch) ha)
    exact ⟨hfits a (List.mem_of_getElem? ha), Batch.ofBytes?_toBytes _, hrun, hseq⟩

def ofTwo : Writing where
  State := Storage.Memory
  storage := .memory
  path := "log"
  content m := m.get? "log"
  atomic := (Storage.keeps_memory "log").atomic
  batchSize := 1
  run := default
  start := .empty
  writer := ⟨"log", .plain, default, 1, [], 0, 0⟩
  opened := Storage.Memory.empty.set "log" []
  created := rfl
  requests := [.write (.root ⟨1⟩), .write (.terminate ⟨1⟩ (some ⟨5⟩) 9 .exit)]

end Writing

/-- What a reader says of a segment of which not all bytes are there. -/
def Corruption.torn (offset present : Nat) : Corruption :=
  if present < Header.size then .truncatedHeader offset else .truncatedSegment offset

section Torn

variable {σ : Type} {storage : Storage σ} {path : String} {s : σ} {hash : Digest.Hash} {e : Entry}

/-- A segment that ends too early is noticed wherever it ends. -/
lemma readSegment_part (he : e.Decodes) {front part : Bytes} (hpart : part <+: e.text hash)
    (hshort : part.length < (e.text hash).length) (hreads : storage.Reads path s (front ++ part)) :
    readSegment hash storage s path front.length =
      .error (.corrupt (.torn front.length part.length)) := by
  have hheader : storage.readRange path front.length Header.size s = .ok (part.take Header.size) := by
    rw [hreads.readRange_eq _ _ (by simp), Bytes.slice, List.drop_left]
  unfold readSegment
  rw [hheader, Corruption.torn]
  by_cases hlen : part.length < Header.size
  · have htake : (part.take Header.size).length < Header.size := by
      rw [List.length_take]
      omega
    simp only [liftStorage, bind, Except.bind, htake, hlen, if_true]
    rfl
  · have hsize : Header.size ≤ part.length := Nat.le_of_not_lt hlen
    have htake : part.take Header.size = e.header := by
      rw [List.prefix_iff_eq_take.1 hpart, List.take_take, Nat.min_eq_left hsize, e.take_text]
    have hbody : storage.readRange path (front.length + Header.size)
        (e.payload.length + checksumSize) s = .ok (part.drop Header.size) := by
      have hall : (part.drop Header.size).length ≤ e.payload.length + checksumSize := by
        rw [Entry.length_text] at hshort
        rw [List.length_drop]
        omega
      rw [hreads.readRange_eq _ _ (by rw [List.length_append]; omega), Bytes.slice, ← List.drop_drop,
        List.drop_left, List.take_of_length_le hall]
    have hmissing : (part.drop Header.size).length < e.payload.length + checksumSize := by
      rw [Entry.length_text] at hshort
      rw [List.length_drop]
      omega
    have hlength : (UInt64.ofNat e.payload.length).toNat = e.payload.length :=
      UInt64.toNat_ofNat_of_lt' (lt_size_of_le_maxPayload he.length_le)
    simp only [liftStorage, bind, Except.bind, htake, e.length_header, Nat.lt_irrefl, hlen, if_false,
      Header.ofBytes?_header (lt_size_of_le_maxPayload he.length_le),
      Header.checkSizes_header he.length_le, hlength, hbody, hmissing, if_true]
    rfl

/-- Behind the segments that are whole the reader comes to the torn one. -/
lemma read_part {before : List Entry} (hbefore : ∀ e ∈ before, e.Decodes) (he : e.Decodes)
    {part : Bytes} (hpart : part <+: e.text hash) (hne : part ≠ [])
    (hshort : part.length < (e.text hash).length)
    (hreads : storage.Reads path s (before.flatMap (Entry.text hash) ++ part)) {c : Contents}
    (htaken : (before.map Entry.batch).foldlM Contents.extend .empty = .ok c) :
    read hash storage s path =
      .error (.corrupt (.torn (before.flatMap (Entry.text hash)).length part.length)) := by
  have hpos : 0 < part.length := List.length_pos_iff.2 hne
  have hlt : (before.flatMap (Entry.text hash)).length <
      (before.flatMap (Entry.text hash) ++ part).length := by
    rw [List.length_append]
    omega
  obtain ⟨fuel, hfuel⟩ : ∃ fuel,
      (before.flatMap (Entry.text hash) ++ part).length - before.length = fuel + 1 := by
    have hle := length_le_length_texts hash before
    exact ⟨(before.flatMap (Entry.text hash) ++ part).length - before.length - 1, by omega⟩
  rw [read_texts_append hash rfl hreads hbefore, htaken, hfuel]
  change readFrom _ _ _ _ _ (fuel + 1) _ c = _
  rw [readFrom, if_pos hlt, readSegment_part he hpart hshort hreads]
  rfl

end Torn

/-- Where the first few segments of a file end. -/
def endOf (segments : List Bytes) (k : Nat) : Nat := (segments.take k).flatten.length

lemma endOf_map {α : Type*} (f : α → Bytes) (items : List α) (k : Nat) :
    endOf (items.map f) k = ((items.take k).flatMap f).length := by
  rw [endOf, ← List.map_take, ← List.flatMap_def]

lemma endOf_cons (segment : Bytes) (segments : List Bytes) (k : Nat) :
    endOf (segment :: segments) (k + 1) = segment.length + endOf segments k := by
  simp [endOf]

/-- Of a file that is cut off, some segments are left, and perhaps a part of the next one. -/
lemma exists_cut {α : Type*} (f : α → Bytes) (items : List α) {n : Nat}
    (hn : n ≤ (items.flatMap f).length) :
    (∃ k ≤ items.length, n = endOf (items.map f) k) ∨
      ∃ before item after part, items = before ++ item :: after ∧ part <+: f item ∧ part ≠ [] ∧
        part.length < (f item).length ∧ (items.flatMap f).take n = before.flatMap f ++ part := by
  induction items generalizing n with
  | nil =>
    refine .inl ⟨0, Nat.le_refl _, ?_⟩
    rw [List.flatMap_nil, List.length_nil] at hn
    exact Nat.le_zero.1 hn
  | cons item items ih =>
    rw [List.flatMap_cons, List.length_append] at hn
    rcases Nat.lt_or_ge n (f item).length with hlt | hge
    · rcases Nat.eq_zero_or_pos n with rfl | hpos
      · exact .inl ⟨0, Nat.zero_le _, rfl⟩
      · have htake : ((f item).take n).length = n := by
          rw [List.length_take]
          omega
        refine .inr ⟨[], item, items, (f item).take n, rfl, List.take_prefix _ _, ?_, ?_, ?_⟩
        · exact List.ne_nil_of_length_pos (by rw [htake]; exact hpos)
        · rw [htake]
          exact hlt
        · rw [List.flatMap_cons, List.take_append_of_le_length (Nat.le_of_lt hlt), List.flatMap_nil,
            List.nil_append]
    · rcases ih (n := n - (f item).length) (by omega) with ⟨k, hk, heq⟩ |
        ⟨before, next, after, part, rfl, hpart, hne, hshort, heq⟩
      · refine .inl ⟨k + 1, Nat.succ_le_succ hk, ?_⟩
        rw [List.map_cons, endOf_cons, ← heq]
        omega
      · refine .inr ⟨item :: before, next, after, part, rfl, hpart, hne, hshort, ?_⟩
        rw [List.flatMap_cons, List.take_append, List.take_of_length_le hge, heq, List.flatMap_cons,
          List.append_assoc]

section Truncation

variable {σ : Type} {storage : Storage σ} {path : String} {s : σ} {hash : Digest.Hash} {run : RunId}
  {b : Bytes} {entries : List Entry}

lemma IsLog.contentsOf_eq (h : IsLog hash run b entries) :
    contentsOf entries =
      ⟨if entries.length = 0 then none else some run, entries.length,
        entries.flatMap fun e => e.batch.records⟩ := by
  cases entries with
  | nil => rfl
  | cons e entries =>
    have hrun : e.batch.run = run := (h.fits 0 e rfl).run_eq
    simp [contentsOf, hrun]

/-- The first entries of a log are one, up to where they end. -/
lemma IsLog.take (h : IsLog hash run b entries) (k : Nat) :
    IsLog hash run (b.take (endOf (entries.map (Entry.text hash)) k)) (entries.take k) where
  bytes_eq := by
    have hsplit : b = (entries.take k).flatMap (Entry.text hash) ++
        (entries.drop k).flatMap (Entry.text hash) := by
      rw [← List.flatMap_append, List.take_append_drop]
      exact h.bytes_eq
    rw [endOf_map, hsplit, List.take_left]
  fits i e he := by
    rw [List.getElem?_take] at he
    split at he
    · exact h.fits i e he
    · cases he

/-- A log whose end is missing is read up to the end of a segment, or found to be torn. -/
lemma IsLog.read_take (h : IsLog hash run b entries) {n : Nat} (hn : n ≤ b.length)
    (hreads : storage.Reads path s (b.take n)) :
    (∃ k ≤ entries.length, n = endOf (entries.map (Entry.text hash)) k ∧
        read hash storage s path = .ok (contentsOf (entries.take k))) ∨
      ∃ offset present, read hash storage s path = .error (.corrupt (.torn offset present)) := by
  rw [h.bytes_eq] at hn
  rcases exists_cut (Entry.text hash) entries hn with ⟨k, hk, hend⟩ |
    ⟨before, e, after, part, hentries, hpart, hne, hshort, hbytes⟩
  · refine .inl ⟨k, hk, hend, ?_⟩
    rw [hend] at hreads
    exact read_isLog hash hreads (h.take k)
  · have hall := h.decodes
    rw [hentries, List.forall_mem_append, List.forall_mem_cons] at hall
    obtain ⟨hbefore, he, _⟩ := hall
    have hfirst := (h.take before.length).consecutive
    rw [hentries, List.take_left] at hfirst
    have htaken := foldlM_extend_eq_ok_iff.2 ⟨⟨run, hfirst⟩, rfl⟩
    rw [h.bytes_eq, hbytes] at hreads
    exact .inr ⟨_, _, read_part hbefore he hpart hne hshort hreads htaken⟩

end Truncation

/-- The first bytes of a log can be read exactly if they end with a segment, or are none. What is read are
the batches that are whole. Any other cut is noticed as corruption. The log may have as many batches as
there are numbers for them. -/
theorem read_truncated (hash : Digest.Hash) (x : Writing)
    (hlen : (x.commits hash).length ≤ UInt64.size)
    (hfits : ∀ a ∈ x.commits hash, a.batch.toBytes.length ≤ maxPayload) {b : Bytes}
    (hfile : x.file? hash = some b) {n : Nat} (hn : n ≤ b.length) {σ : Type} {storage : Storage σ}
    {path : String} {s : σ} (hreads : storage.Reads path s (b.take n)) :
    let segments := (x.commits hash).map Attempt.segment
    ((∃ found, read hash storage s path = .ok found) ↔
        ∃ k ≤ segments.length, n = endOf segments k) ∧
      (∀ k ≤ segments.length, n = endOf segments k → read hash storage s path =
        .ok ⟨if k = 0 then none else some x.run, k,
          ((x.commits hash).take k).flatMap fun a => a.batch.records⟩) ∧
      ((∀ k ≤ segments.length, n ≠ endOf segments k) →
        ∃ fault, read hash storage s path = .error (.corrupt fault)) := by
  intro segments
  have hlog := x.isLog hlen hfits hfile
  have hsegments : segments = (x.entries hash).map (Entry.text hash) := Writing.segments_eq hfits
  have hwhole : ∀ k ≤ segments.length, n = endOf segments k → read hash storage s path =
      .ok ⟨if k = 0 then none else some x.run, k,
        ((x.commits hash).take k).flatMap fun a => a.batch.records⟩ := by
    rintro k hk rfl
    rw [hsegments] at hreads hk
    have hcount : ((x.entries hash).take k).length = k := by
      rw [List.length_map] at hk
      exact List.length_take_of_le hk
    have hrecords : ((x.entries hash).take k).flatMap (fun e => e.batch.records) =
        ((x.commits hash).take k).flatMap fun a => a.batch.records := by
      rw [Writing.entries, ← List.map_take, List.flatMap_map]
      rfl
    rw [read_isLog hash hreads (hlog.take k), (hlog.take k).contentsOf_eq, hcount, hrecords]
  have hcut := hlog.read_take hn hreads
  rw [← hsegments, ← List.length_map (f := Entry.text hash), ← hsegments] at hcut
  refine ⟨⟨?_, fun ⟨k, hk, hend⟩ => ⟨_, hwhole k hk hend⟩⟩, hwhole, fun hinside => ?_⟩
  · rintro ⟨found, hfound⟩
    rcases hcut with ⟨k, hk, hend, _⟩ | ⟨offset, present, htorn⟩
    · exact ⟨k, hk, hend⟩
    · rw [htorn] at hfound
      cases hfound
  · rcases hcut with ⟨k, hk, hend, _⟩ | ⟨offset, present, htorn⟩
    · exact absurd hend (hinside k hk)
    · exact ⟨_, htorn⟩

/-- A log of two segments, cut off behind the first and a little later. -/
theorem read_truncated_of_two :
    let hash := Digest.Blake3.digest
    let commits := Writing.ofTwo.commits hash
    let file := commits.flatMap Attempt.segment
    let first := endOf (commits.map Attempt.segment) 1
    let kept : Nat → Storage.Memory := fun n => Storage.Memory.empty.set "log" (file.take n)
    commits.length ≤ UInt64.size ∧ (∀ a ∈ commits, a.batch.toBytes.length ≤ maxPayload) ∧
      Writing.ofTwo.file? hash = some file ∧ first + 30 ≤ file.length ∧
      (∀ n, Storage.memory.Reads "log" (kept n) (file.take n)) ∧
      read hash Storage.memory (kept first) "log" =
        .ok ⟨some default, 1, [.root ⟨1⟩]⟩ ∧
      ∃ fault, read hash Storage.memory (kept (first + 30)) "log" = .error (.corrupt fault) := by
  intro hash commits file first kept
  have hlen : commits.length ≤ UInt64.size := by decide +kernel
  have hfits : ∀ a ∈ commits, a.batch.toBytes.length ≤ maxPayload := by decide +kernel
  have hfile := Writing.ofTwo.file?_eq hash
  have hroom : first + 30 ≤ file.length := by decide +kernel
  have hreads : ∀ n, Storage.memory.Reads "log" (kept n) (file.take n) := fun n =>
    (Storage.keeps_memory "log").reads (Storage.Memory.get?_set_self .empty "log" _)
  refine ⟨hlen, hfits, hfile, hroom, hreads, ?_, ?_⟩
  · obtain ⟨_, hwhole, _⟩ := read_truncated hash Writing.ofTwo hlen hfits hfile
      (Nat.le_of_add_right_le hroom) (hreads first)
    refine (hwhole 1 (by decide +kernel) rfl).trans ?_
    decide +kernel
  · obtain ⟨_, _, htorn⟩ := read_truncated hash Writing.ofTwo hlen hfits hfile hroom (hreads _)
    exact htorn (by decide +kernel)

/-! ### A changed byte -/

/-- What the checksum of an entry is taken of. -/
def Entry.sealed (e : Entry) : Bytes := e.header ++ e.payload

namespace Entry

variable {hash : Digest.Hash} {e f : Entry}

lemma text_eq (hash : Digest.Hash) (e : Entry) : e.text hash = e.sealed ++ (hash e.sealed).bytes := rfl

/-- The length of the payload stands twice in a header. -/
lemma lengths_header (e : Entry) :
    (e.header.take 16).drop 8 = Bytes.le 8 e.payload.length ∧
      e.header.drop 16 = Bytes.le 8 e.payload.length := by
  obtain ⟨length, hlength⟩ : ∃ length, length = Bytes.le 8 e.payload.length := ⟨_, rfl⟩
  have height : length.length = 8 := by rw [hlength, Bytes.length_le]
  have hheader : e.header =
      [0x45, 0x58, 0x54, 0x4c, 1, 0, 0, e.reserved] ++ (length ++ length) := by
    rw [hlength, Entry.header, List.append_assoc]
    rfl
  rw [← hlength, hheader]
  constructor
  · have hslice := Bytes.slice_append [0x45, 0x58, 0x54, 0x4c, 1, 0, 0, e.reserved] length length
    rw [height] at hslice
    exact List.drop_take.trans hslice
  · rw [← List.append_assoc]
    exact List.drop_left' (by rw [List.length_append, height]; rfl)

/-- A changed byte leaves one of the two lengths in a header as it was. -/
lemma Decodes.length_eq (he : e.Decodes) (hf : f.Decodes) {p : Nat} {y : UInt8}
    (h : f.header = e.header.set p y) : f.payload.length = e.payload.length := by
  obtain ⟨hraw, hstored⟩ := e.lengths_header
  obtain ⟨hraw', hstored'⟩ := f.lengths_header
  refine Bytes.le_injective (lt_size_of_le_maxPayload hf.length_le)
    (lt_size_of_le_maxPayload he.length_le) ?_
  rcases Nat.lt_or_ge p 16 with hp | hp
  · rw [← hstored, ← hstored', h, List.drop_set_of_lt hp]
  · rw [← hraw, ← hraw', h, List.take_set_of_le hp]

/-- A text with a changed byte is not that of an entry. -/
lemma Decodes.text_set_append_ne (he : e.Decodes) (hf : f.Decodes) {p : Nat} {y : UInt8}
    (hp : p < (e.text hash).length) (hy : (e.text hash)[p]? ≠ some y)
    (hdigest : p < e.sealed.length → hash (e.sealed.set p y) ≠ hash e.sealed) (back back' : Bytes) :
    (e.text hash).set p y ++ back ≠ f.text hash ++ back' := by
  intro h
  have hheader : f.header = e.header.set p y := by
    have hlong : Header.size ≤ ((e.text hash).set p y).length := by
      rw [List.length_set, length_text]
      omega
    have htake := congrArg (List.take Header.size) h
    rw [f.take_text_append, List.take_append_of_le_length hlong, List.take_set, e.take_text] at htake
    exact htake.symm
  have hsize : e.sealed.length = f.sealed.length := by
    rw [sealed, sealed, List.length_append, List.length_append, length_header, length_header,
      he.length_eq hf hheader]
  obtain ⟨htext, _⟩ := List.append_inj h (by
    rw [List.length_set, length_text, length_text, he.length_eq hf hheader])
  rw [text_eq, text_eq, List.set_append] at htext
  split at htext
  · next hinside =>
    obtain ⟨hsealed, hchecksum⟩ := List.append_inj htext (by rw [List.length_set, hsize])
    refine hdigest hinside (Digest.bytes_injective ?_)
    rw [hsealed, hchecksum]
  · next hbehind =>
    obtain ⟨hsealed, hchecksum⟩ := List.append_inj htext hsize
    have hroom : p - e.sealed.length < (hash e.sealed).bytes.length := by
      rw [text_eq, List.length_append] at hp
      omega
    rw [← hsealed] at hchecksum
    rw [text_eq, List.getElem?_append_right (Nat.le_of_not_lt hbehind), ← hchecksum,
      List.getElem?_set_self hroom] at hy
    exact hy rfl

end Entry

/-- A row of texts with a changed byte is none. -/
lemma set_flatMap_text_ne {hash : Digest.Hash} {es fs : List Entry} (hes : ∀ e ∈ es, e.Decodes)
    (hfs : ∀ f ∈ fs, f.Decodes) {i : Nat} {y : UInt8} (hi : i < (es.flatMap (Entry.text hash)).length)
    (hy : (es.flatMap (Entry.text hash))[i]? ≠ some y)
    (hdigest : ∀ k e, es[k]? = some e → ∀ p < e.sealed.length,
      i = endOf (es.map (Entry.text hash)) k + p → hash (e.sealed.set p y) ≠ hash e.sealed) :
    (es.flatMap (Entry.text hash)).set i y ≠ fs.flatMap (Entry.text hash) := by
  induction es generalizing fs i with
  | nil => cases hi
  | cons e es ih =>
    intro h
    obtain ⟨he, hes⟩ := List.forall_mem_cons.1 hes
    cases fs with
    | nil =>
      have hlength := congrArg List.length h
      rw [List.length_set] at hlength
      rw [hlength] at hi
      cases hi
    | cons f fs =>
      obtain ⟨hf, hfs⟩ := List.forall_mem_cons.1 hfs
      rw [List.flatMap_cons, List.flatMap_cons, List.set_append] at h
      rw [List.flatMap_cons] at hi hy
      split at h
      · next hfirst =>
        rw [List.getElem?_append_left hfirst] at hy
        refine he.text_set_append_ne hf hfirst hy (fun hp => ?_) _ _ h
        exact hdigest 0 e rfl i hp (Nat.zero_add i).symm
      · next hlater =>
        have hle : (e.text hash).length ≤ i := Nat.le_of_not_lt hlater
        rw [List.length_append] at hi
        rw [List.getElem?_append_right hle] at hy
        obtain ⟨_, hrest⟩ := he.text_inj hf h
        refine ih hes hfs (by omega) hy (fun k d hd p hp hplace => ?_) hrest
        refine hdigest (k + 1) d hd p hp ?_
        rw [List.map_cons, endOf_cons]
        omega

/-- What the checksum of a segment is taken of: its header and its payload. -/
def Attempt.sealed (a : Attempt) : Bytes := a.segment.take (a.segment.length - checksumSize)

lemma Attempt.sealed_eq {hash : Digest.Hash} {a : Attempt} {e : Entry} (h : a.segment = e.text hash) :
    a.sealed = e.sealed := by
  have hsize : (e.text hash).length - checksumSize = e.sealed.length := by
    rw [Entry.text_eq, List.length_append, Digest.length_eq, checksumSize, Nat.add_sub_cancel]
  rw [sealed, h, hsize, Entry.text_eq, List.take_left]

/-- A log in which one byte was replaced by another one cannot be read, as long as a change in front of a
checksum changes the digest there. -/
theorem read_changed (hash : Digest.Hash) (x : Writing)
    (hfits : ∀ a ∈ x.commits hash, a.batch.toBytes.length ≤ maxPayload) {b : Bytes}
    (hfile : x.file? hash = some b) {i : Nat} (hi : i < b.length) {y : UInt8} (hy : b[i] ≠ y)
    (hdigest : ∀ k a, (x.commits hash)[k]? = some a → ∀ p < a.sealed.length,
      i = endOf ((x.commits hash).map Attempt.segment) k + p →
      hash (a.sealed.set p y) ≠ hash a.sealed)
    {σ : Type} {storage : Storage σ} {path : String} {s : σ}
    (hreads : storage.Reads path s (b.set i y)) :
    ∃ fault, read hash storage s path = .error fault := by
  have hsegments : (x.commits hash).map Attempt.segment = (x.entries hash).map (Entry.text hash) :=
    Writing.segments_eq hfits
  rw [Writing.file?_eq, List.flatMap_def, hsegments, ← List.flatMap_def] at hfile
  cases hfile
  have hdecodes : ∀ e ∈ x.entries hash, e.Decodes := by
    intro e he
    obtain ⟨a, ha, rfl⟩ := List.mem_map.1 he
    exact ⟨hfits a ha, Batch.ofBytes?_toBytes _⟩
  have hdigest' : ∀ k e, (x.entries hash)[k]? = some e → ∀ p < e.sealed.length,
      i = endOf ((x.entries hash).map (Entry.text hash)) k + p →
      hash (e.sealed.set p y) ≠ hash e.sealed := by
    intro k e he p hp hplace
    rw [Writing.entries, List.getElem?_map, Option.map_eq_some_iff] at he
    obtain ⟨a, ha, rfl⟩ := he
    have hsegment : a.segment = (Cut.entry a.batch).text hash := by
      have hmem := List.mem_of_getElem? ha
      rw [Writing.segment_eq hmem, Batch.segment_eq hash (hfits a hmem)]
    have hsealed := Attempt.sealed_eq hsegment
    rw [← hsegments] at hplace
    rw [← hsealed] at hp ⊢
    exact hdigest k a ha p hp hplace
  cases hread : read hash storage s path with
  | error fault => exact ⟨fault, rfl⟩
  | ok found =>
    obtain ⟨fs, hbytes, hfs, _⟩ := exists_texts_of_read hreads hread
    have hy' : ((x.entries hash).flatMap (Entry.text hash))[i]? ≠ some y := by
      rw [List.getElem?_eq_getElem hi]
      exact fun h => hy (Option.some.inj h)
    exact absurd hbytes (set_flatMap_text_ne hdecodes hfs hi hy' hdigest')

/-- A log of two segments, with another value of the byte without meaning in the first. -/
theorem read_changed_of_two :
    let hash := Digest.Blake3.digest
    let commits := Writing.ofTwo.commits hash
    let file := commits.flatMap Attempt.segment
    let changed := Storage.Memory.empty.set "log" (file.set 7 255)
    (∀ a ∈ commits, a.batch.toBytes.length ≤ maxPayload) ∧
      Writing.ofTwo.file? hash = some file ∧ (∃ hi : 7 < file.length, file[7] ≠ 255) ∧
      (∀ k a, commits[k]? = some a → ∀ p < a.sealed.length,
        7 = endOf (commits.map Attempt.segment) k + p → hash (a.sealed.set p 255) ≠ hash a.sealed) ∧
      Storage.memory.Reads "log" changed (file.set 7 255) ∧
      ∃ fault, read hash Storage.memory changed "log" = .error fault := by
  intro hash commits file changed
  have hfits : ∀ a ∈ commits, a.batch.toBytes.length ≤ maxPayload := by decide +kernel
  have hfile := Writing.ofTwo.file?_eq hash
  have hi : 7 < file.length := by decide +kernel
  have hy : file[7] ≠ 255 := by
    have hbyte : file[7]? ≠ some 255 := by decide +kernel
    rw [List.getElem?_eq_getElem hi] at hbyte
    exact fun h => hbyte (congrArg some h)
  have hdigest : ∀ k a, commits[k]? = some a → ∀ p < a.sealed.length,
      7 = endOf (commits.map Attempt.segment) k + p →
      hash (a.sealed.set p 255) ≠ hash a.sealed := by
    have hfirst : ∀ a, commits[0]? = some a → hash (a.sealed.set 7 255) ≠ hash a.sealed := by
      decide +kernel
    have hends : ∀ k < 2, k ≠ 0 → 7 < endOf (commits.map Attempt.segment) k := by decide +kernel
    have hcount : commits.length = 2 := by decide +kernel
    intro k a ha p hp hplace
    have hk : k < 2 := hcount ▸ (List.getElem?_eq_some_iff.1 ha).1
    obtain rfl : k = 0 := by
      by_contra hne
      have hend := hends k hk hne
      omega
    have hstart : endOf (commits.map Attempt.segment) 0 = 0 := rfl
    obtain rfl : p = 7 := by omega
    exact hfirst a ha
  have hreads : Storage.memory.Reads "log" changed (file.set 7 255) :=
    (Storage.keeps_memory "log").reads (Storage.Memory.get?_set_self .empty "log" _)
  exact ⟨hfits, hfile, ⟨hi, hy⟩, hdigest, hreads,
    read_changed hash Writing.ofTwo hfits hfile hi hy hdigest hreads⟩

end Log

end ForkTree
