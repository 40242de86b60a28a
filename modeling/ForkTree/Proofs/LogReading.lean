import ForkTree.Log.Grammar
import ForkTree.Storage.Memory
import Mathlib.Data.List.Induction
import Mathlib.Tactic.Lemma

/-!
Reading what the grammar of logs allows. A storage keeps a file when it never fails on it and gives back
what was put there (`Storage.Keeps`); files in memory are an example. For the reader it is enough that
reading works (`Storage.Reads`). On such a file the reader goes from segment to segment: in front of it
are those whose contents it has, and the offset is the length of their texts. So segments of any batches
are read by taking in one batch after the other (`read_texts`), which succeeds for the batches of one run
in order and for no others (`foldlM_extend_eq_ok_iff`), and a file that is a log is read as the contents
of its entries (`read_isLog`).
-/

namespace ForkTree

/-- The storage never fails on a file, and `content` tells what is in it. -/
structure Storage.Keeps {σ : Type} (storage : Storage σ) (path : String) (content : σ → Option Bytes) :
    Prop where
  create_eq : ∀ s, (storage.create path s).1 = .ok () ∧ content (storage.create path s).2 = some []
  append_eq : ∀ s b, content s = some b → ∀ more, (storage.append path more s).1 = .ok () ∧
    content (storage.append path more s).2 = some (b ++ more)
  size_eq : ∀ s b, content s = some b → storage.size path s = .ok b.length
  readRange_eq : ∀ s b, content s = some b → ∀ offset len, offset ≤ b.length →
    storage.readRange path offset len s = .ok (Bytes.slice b offset len)

/-- Reading a file gives what is in it. -/
structure Storage.Reads {σ : Type} (storage : Storage σ) (path : String) (s : σ) (b : Bytes) : Prop where
  size_eq : storage.size path s = .ok b.length
  readRange_eq : ∀ offset len, offset ≤ b.length →
    storage.readRange path offset len s = .ok (Bytes.slice b offset len)

lemma Storage.Keeps.reads {σ : Type} {storage : Storage σ} {path : String} {content : σ → Option Bytes}
    (h : storage.Keeps path content) {s : σ} {b : Bytes} (hcontent : content s = some b) :
    storage.Reads path s b where
  size_eq := h.size_eq s b hcontent
  readRange_eq := h.readRange_eq s b hcontent

lemma Storage.keeps_memory (path : String) :
    Storage.memory.Keeps path fun m => Storage.Memory.get? m path where
  create_eq m := ⟨rfl, Storage.Memory.get?_set_self m path []⟩
  append_eq m b h more := by
    have happend : Storage.Memory.append path more m = .ok (m.set path (b ++ more)) := by
      rw [Storage.Memory.append, h]
    change (Storage.settle m (Storage.Memory.append path more m)).1 = _ ∧
      Storage.Memory.get? (Storage.settle m (Storage.Memory.append path more m)).2 path = _
    rw [happend]
    exact ⟨rfl, Storage.Memory.get?_set_self m path _⟩
  size_eq m b h := by
    change Storage.Memory.size path m = _
    rw [Storage.Memory.size, h]
  readRange_eq m b h offset len hoffset := by
    change Storage.Memory.readRange path offset len m = _
    rw [Storage.Memory.readRange, h]
    exact if_neg (Nat.not_lt.2 hoffset)

namespace Bytes

lemma slice_append (front middle back : Bytes) :
    slice (front ++ (middle ++ back)) front.length middle.length = middle := by
  rw [slice, List.drop_left, List.take_left]

lemma ofNat_ofLe_le {n : Nat} (h : n < UInt64.size) : UInt64.ofNat (ofLe (le 8 n)) = UInt64.ofNat n := by
  have hpow : Nat.pow 256 8 = UInt64.size := rfl
  rw [ofLe_le, hpow, Nat.mod_eq_of_lt h]

end Bytes

namespace Log

/-- A reader takes the entry for its batch, wherever it stands. -/
structure Entry.Decodes (e : Entry) : Prop where
  length_le : e.payload.length ≤ maxPayload
  payload_eq : Batch.ofBytes? e.payload = some e.batch

section Entry

variable {e : Entry}

lemma Entry.Fits.decodes {run : RunId} {position : Nat} (h : e.Fits run position) : e.Decodes :=
  ⟨h.length_le, h.payload_eq⟩

lemma lt_size_of_le_maxPayload {n : Nat} (h : n ≤ maxPayload) : n < UInt64.size :=
  Nat.lt_of_le_of_lt h (by decide)

lemma Entry.take_text_append (hash : Digest.Hash) (e : Entry) (back : Bytes) :
    (e.text hash ++ back).take Header.size = e.header := by
  rw [Entry.text, List.append_assoc, List.append_assoc, ← e.length_header, List.take_left]

lemma Entry.take_text (hash : Digest.Hash) (e : Entry) : (e.text hash).take Header.size = e.header := by
  rw [← List.append_nil (e.text hash), e.take_text_append]

/-- A header is read for what was put into it, whatever the byte without meaning is and whatever
follows. -/
lemma Header.ofBytes?_append (codec : Codec) (reserved : UInt8) (raw stored : UInt64) (back : Bytes) :
    Header.ofBytes? (mark ++ Bytes.le 2 version ++ [codec.toByte, reserved] ++ Bytes.le 8 raw.toNat ++
      Bytes.le 8 stored.toNat ++ back) = .ok ⟨codec, raw, stored⟩ := by
  obtain ⟨front, hfront⟩ : ∃ front, front = [0x45, 0x58, 0x54, 0x4c, 1, 0, codec.toByte, reserved] :=
    ⟨_, rfl⟩
  have hwritten : mark ++ Bytes.le 2 version ++ [codec.toByte, reserved] ++ Bytes.le 8 raw.toNat ++
      Bytes.le 8 stored.toNat ++ back =
        front ++ (Bytes.le 8 raw.toNat ++ (Bytes.le 8 stored.toNat ++ back)) := by
    rw [hfront, List.append_assoc, List.append_assoc]
    rfl
  have hlength : front.length = 8 := by rw [hfront]; rfl
  obtain ⟨b, hb⟩ : ∃ b, b = front ++ (Bytes.le 8 raw.toNat ++ (Bytes.le 8 stored.toNat ++ back)) :=
    ⟨_, rfl⟩
  have hlong : ¬ b.length < size := by
    rw [hb, List.length_append, List.length_append, List.length_append, hlength, Bytes.length_le,
      Bytes.length_le, size]
    omega
  have hcodec : Codec.ofByte? ((b[6]?).getD 0) = some codec := by
    rw [hb, hfront]
    exact Codec.ofByte?_toByte codec
  have hmark : ¬ (b.take 4 ≠ mark ∨ Bytes.slice b 4 2 ≠ Bytes.le 2 version) := by
    rw [hb, hfront]
    rintro (h | h)
    · exact h rfl
    · exact h rfl
  have hraw : Bytes.slice b 8 8 = Bytes.le 8 raw.toNat := by
    have hslice := Bytes.slice_append front (Bytes.le 8 raw.toNat) (Bytes.le 8 stored.toNat ++ back)
    rwa [hlength, Bytes.length_le, ← hb] at hslice
  have hstored : Bytes.slice b 16 8 = Bytes.le 8 stored.toNat := by
    have hslice := Bytes.slice_append (front ++ Bytes.le 8 raw.toNat) (Bytes.le 8 stored.toNat) back
    rwa [List.length_append, hlength, Bytes.length_le, Bytes.length_le, List.append_assoc, ← hb] at hslice
  rw [hwritten, ← hb, ofBytes?, if_neg hlong, hcodec]
  simp only
  rw [if_neg hmark, hraw, hstored, Bytes.ofNat_ofLe_le raw.toNat_lt, Bytes.ofNat_ofLe_le stored.toNat_lt,
    UInt64.ofNat_toNat, UInt64.ofNat_toNat]

/-- A reader makes of an entry's header what was put into it. -/
lemma Header.ofBytes?_header (hsize : e.payload.length < UInt64.size) :
    Header.ofBytes? e.header =
      .ok ⟨.plain, UInt64.ofNat e.payload.length, UInt64.ofNat e.payload.length⟩ := by
  have hread := ofBytes?_append .plain e.reserved (UInt64.ofNat e.payload.length)
    (UInt64.ofNat e.payload.length) []
  rwa [UInt64.toNat_ofNat', Nat.mod_eq_of_lt hsize, List.append_nil] at hread

/-- The length of a plain payload is taken unless it is above the limit. -/
lemma Header.checkSizes_plain {n : Nat} (h : n < UInt64.size) :
    Header.checkSizes ⟨.plain, UInt64.ofNat n, UInt64.ofNat n⟩ maxPayload =
      if n ≤ maxPayload then .ok () else .error (.corrupt (.oversized n n maxPayload)) := by
  have hlen : (UInt64.ofNat n).toNat = n := UInt64.toNat_ofNat_of_lt' h
  by_cases hle : n ≤ maxPayload
  · simp [checkSizes, hlen, hle]
  · have hlimit : maxPayload < n ∨ maxPayload < n := by omega
    simp only [checkSizes, hlen, if_pos hlimit, if_neg hle]

lemma Header.checkSizes_header (h : e.payload.length ≤ maxPayload) :
    Header.checkSizes ⟨.plain, UInt64.ofNat e.payload.length, UInt64.ofNat e.payload.length⟩ maxPayload =
      .ok () := by
  rw [checkSizes_plain (lt_size_of_le_maxPayload h), if_pos h]

variable {σ : Type} {storage : Storage σ} {path : String} {s : σ}

/-- The segment of an entry is read wherever it stands. -/
lemma readSegment_text (hash : Digest.Hash) (he : e.Decodes) {front back : Bytes}
    (hreads : storage.Reads path s (front ++ (e.text hash ++ back))) :
    readSegment hash storage s path front.length = .ok (e.batch, (e.text hash).length) := by
  have hle := he.length_le
  have hlen : (UInt64.ofNat e.payload.length).toNat = e.payload.length :=
    UInt64.toNat_ofNat_of_lt' (lt_size_of_le_maxPayload hle)
  obtain ⟨checksum, hchecksum⟩ : ∃ checksum, checksum = (hash (e.header ++ e.payload)).bytes :=
    ⟨_, rfl⟩
  have hlength : checksum.length = checksumSize := by
    rw [hchecksum]
    exact (hash (e.header ++ e.payload)).length_eq
  have htext : e.text hash = e.header ++ (e.payload ++ checksum) := by
    rw [Entry.text, hchecksum, List.append_assoc]
  rw [htext, List.append_assoc] at hreads
  have hheader : storage.readRange path front.length Header.size s = .ok e.header := by
    rw [hreads.readRange_eq _ _ (by simp), ← e.length_header, Bytes.slice_append]
  have hbody : storage.readRange path (front.length + Header.size) (e.payload.length + checksumSize) s =
      .ok (e.payload ++ checksum) := by
    rw [← List.append_assoc front] at hreads
    have hoffset : front.length + Header.size = (front ++ e.header).length := by
      rw [List.length_append, e.length_header]
    have hsize : e.payload.length + checksumSize = (e.payload ++ checksum).length := by
      rw [List.length_append, hlength]
    rw [hoffset, hsize, hreads.readRange_eq _ _ (by simp), Bytes.slice_append]
  have hok : checksumOk hash e.header e.payload checksum = true := by
    rw [checksumOk, hchecksum]
    exact decide_eq_true rfl
  have hwhole : ¬ (e.payload ++ checksum).length < e.payload.length + checksumSize := by
    rw [List.length_append, hlength]
    exact Nat.lt_irrefl _
  unfold readSegment
  simp only [hheader, liftStorage, bind, Except.bind, e.length_header, Nat.lt_irrefl, if_false,
    Header.ofBytes?_header (lt_size_of_le_maxPayload hle), Header.checkSizes_header hle, hlen, hbody,
    hwhole, List.take_left, List.drop_left, hok, Bool.not_true, Bool.false_eq_true, Codec.unpack,
    liftCodec, he.payload_eq]
  rw [htext, List.length_append, List.length_append, hlength, e.length_header]
  rfl

end Entry

/-- The batches are those of a run, in order from the first on. -/
def Consecutive (run : RunId) (batches : List Batch) : Prop :=
  ∀ (i : Nat) (b : Batch), batches[i]? = some b → b.run = run ∧ b.seq.toNat = i

lemma consecutive_append_singleton {run : RunId} {batches : List Batch} {b : Batch} :
    Consecutive run (batches ++ [b]) ↔
      Consecutive run batches ∧ b.run = run ∧ b.seq.toNat = batches.length := by
  constructor
  · refine fun h => ⟨fun i c hi => h i c ?_, h batches.length b (by simp)⟩
    rw [List.getElem?_append_left (List.getElem?_eq_some_iff.1 hi).1, hi]
  · rintro ⟨h, hb⟩ i c hi
    rcases Nat.lt_trichotomy i batches.length with hlt | rfl | hgt
    · rw [List.getElem?_append_left hlt] at hi
      exact h i c hi
    · rw [List.getElem?_concat_length] at hi
      cases hi
      exact hb
    · rw [List.getElem?_eq_none (by rw [List.length_append, List.length_singleton]; omega)] at hi
      cases hi

/-- The contents of a log with the given batches. -/
def Contents.ofBatches (batches : List Batch) : Contents where
  run := batches.head?.map Batch.run
  batches := batches.length
  records := batches.flatMap Batch.records

lemma contentsOf_eq (entries : List Entry) : contentsOf entries = .ofBatches (entries.map Entry.batch) := by
  simp [contentsOf, Contents.ofBatches, List.head?_map, List.flatMap_map, Function.comp_def]

lemma Contents.ofBatches_append_singleton (batches : List Batch) (b : Batch) :
    ofBatches (batches ++ [b]) =
      ⟨some ((ofBatches batches).run.getD b.run), batches.length + 1,
        (ofBatches batches).records ++ b.records⟩ := by
  cases batches <;> simp [ofBatches]

/-- A batch is taken in if it has the number and the run that are due. -/
lemma Contents.extend_eq_ok_iff {c d : Contents} {b : Batch} :
    c.extend b = .ok d ↔ c.run.getD b.run = b.run ∧ b.seq.toNat = c.batches ∧
      d = ⟨some (c.run.getD b.run), c.batches + 1, c.records ++ b.records⟩ := by
  simp only [extend]
  by_cases hrun : c.run.getD b.run = b.run
  · by_cases hseq : b.seq.toNat = c.batches
    · simp [hrun, hseq, eq_comm]
    · simp [hrun, hseq]
  · simp [hrun]

/-- Batches can be taken in one after the other exactly if they are those of a run in order. -/
theorem foldlM_extend_eq_ok_iff {batches : List Batch} {c : Contents} :
    batches.foldlM Contents.extend .empty = .ok c ↔
      (∃ run, Consecutive run batches) ∧ c = .ofBatches batches := by
  induction batches using List.reverseRecOn generalizing c with
  | nil =>
    refine ⟨fun h => ⟨⟨default, fun i b hi => by cases hi⟩, (Except.ok.inj h).symm⟩, ?_⟩
    rintro ⟨_, rfl⟩
    rfl
  | append_singleton batches b ih =>
    have hfold : (batches ++ [b]).foldlM Contents.extend .empty = .ok c ↔
        ∃ d, batches.foldlM Contents.extend .empty = .ok d ∧ d.extend b = .ok c := by
      rw [List.foldlM_append]
      cases batches.foldlM Contents.extend .empty with
      | error e => simp [bind, Except.bind]
      | ok d => cases hd : d.extend b <;> simp [bind, Except.bind, List.foldlM, hd, pure, Except.pure]
    simp only [hfold, ih, Contents.extend_eq_ok_iff, consecutive_append_singleton]
    constructor
    · rintro ⟨_, ⟨⟨run, hbatches⟩, rfl⟩, hrun, hseq, rfl⟩
      refine ⟨⟨b.run, fun i d hi => ⟨?_, (hbatches i d hi).2⟩, rfl, hseq⟩,
        (Contents.ofBatches_append_singleton batches b).symm⟩
      cases batches with
      | nil => cases hi
      | cons first rest =>
        have hfirst : first.run = b.run := hrun
        rw [(hbatches i d hi).1, ← hfirst, (hbatches 0 first rfl).1]
    · rintro ⟨⟨run, hbatches, hrun, hseq⟩, rfl⟩
      refine ⟨_, ⟨⟨run, hbatches⟩, rfl⟩, ?_, hseq, Contents.ofBatches_append_singleton batches b⟩
      cases batches with
      | nil => rfl
      | cons first rest => exact (hbatches 0 first rfl).1.trans hrun.symm

/-! ### A whole file -/

variable {σ : Type} {storage : Storage σ} {path : String} {s : σ}

/-- At the end of the file there is nothing left to read. -/
lemma readFrom_of_le {hash : Digest.Hash} {size offset : Nat} (h : size ≤ offset) (fuel : Nat)
    (c : Contents) : readFrom hash storage s path size fuel offset c = .ok c := by
  cases fuel with
  | zero => rfl
  | succ fuel => rw [readFrom, if_neg (Nat.not_lt.2 h)]

/-- Reading on behind the entries in front, through those that follow, to what is behind them. -/
lemma readFrom_texts (hash : Digest.Hash) (before after : List Entry) {behind b : Bytes}
    (hb : b = (before ++ after).flatMap (Entry.text hash) ++ behind) (hreads : storage.Reads path s b)
    (hafter : ∀ e ∈ after, e.Decodes) (fuel : Nat) (c : Contents) :
    readFrom hash storage s path b.length (after.length + fuel)
        (before.flatMap (Entry.text hash)).length c =
      (after.map Entry.batch).foldlM Contents.extend c >>=
        readFrom hash storage s path b.length fuel
          ((before ++ after).flatMap (Entry.text hash)).length := by
  induction after generalizing before c with
  | nil =>
    rw [List.length_nil, Nat.zero_add, List.append_nil]
    rfl
  | cons e after ih =>
    have hfuel : (e :: after).length + fuel = after.length + fuel + 1 := by
      rw [List.length_cons]
      omega
    have hshift : before ++ e :: after = before ++ [e] ++ after := by simp
    have hplace : b = before.flatMap (Entry.text hash) ++
        (e.text hash ++ (after.flatMap (Entry.text hash) ++ behind)) := by
      rw [hb]
      simp
    have hlt : (before.flatMap (Entry.text hash)).length < b.length := by
      rw [hplace, List.length_append, List.length_append, Entry.length_text, Header.size]
      omega
    have hsegment : readSegment hash storage s path (before.flatMap (Entry.text hash)).length =
        .ok (e.batch, (e.text hash).length) := by
      rw [hplace] at hreads
      exact readSegment_text hash (hafter e List.mem_cons_self) hreads
    have hoffset : (before.flatMap (Entry.text hash)).length + (e.text hash).length =
        ((before ++ [e]).flatMap (Entry.text hash)).length := by
      simp
    rw [hfuel, readFrom, if_pos hlt, hsegment, List.map_cons, List.foldlM_cons]
    simp only [bind, Except.bind, hoffset]
    cases c.extend e.batch with
    | error fault => rfl
    | ok d =>
      rw [hshift] at hb ⊢
      exact ih (before ++ [e]) hb (fun e' he' => hafter e' (List.mem_cons_of_mem e he')) d

lemma length_le_length_texts (hash : Digest.Hash) (entries : List Entry) :
    entries.length ≤ (entries.flatMap (Entry.text hash)).length := by
  induction entries with
  | nil => exact Nat.le_refl _
  | cons e entries ih =>
    rw [List.flatMap_cons, List.length_append, Entry.length_text, Header.size, List.length_cons]
    omega

/-- A file that starts with segments is read by taking in their batches one after the other, and then
what is behind them. -/
theorem read_texts_append (hash : Digest.Hash) {entries : List Entry} {behind b : Bytes}
    (hb : b = entries.flatMap (Entry.text hash) ++ behind) (hreads : storage.Reads path s b)
    (hentries : ∀ e ∈ entries, e.Decodes) :
    read hash storage s path = (entries.map Entry.batch).foldlM Contents.extend .empty >>=
      readFrom hash storage s path b.length (b.length - entries.length)
        (entries.flatMap (Entry.text hash)).length := by
  have hle : entries.length ≤ b.length := by
    rw [hb, List.length_append]
    exact Nat.le_add_right_of_le (length_le_length_texts hash entries)
  have hfuel : entries.length + (b.length - entries.length) = b.length := Nat.add_sub_of_le hle
  have hread := readFrom_texts hash [] entries hb hreads hentries (b.length - entries.length) .empty
  rw [hfuel] at hread
  rw [read, hreads.size_eq]
  exact hread

theorem read_texts (hash : Digest.Hash) {entries : List Entry}
    (hreads : storage.Reads path s (entries.flatMap (Entry.text hash)))
    (hentries : ∀ e ∈ entries, e.Decodes) :
    read hash storage s path = (entries.map Entry.batch).foldlM Contents.extend .empty := by
  rw [read_texts_append hash (List.append_nil _).symm hreads hentries]
  cases (entries.map Entry.batch).foldlM Contents.extend .empty with
  | error fault => rfl
  | ok c => exact readFrom_of_le (Nat.le_refl _) _ c

lemma IsLog.decodes {hash : Digest.Hash} {run : RunId} {b : Bytes} {entries : List Entry}
    (h : IsLog hash run b entries) : ∀ e ∈ entries, e.Decodes := by
  intro e he
  obtain ⟨i, hi⟩ := List.mem_iff_getElem?.1 he
  exact (h.fits i e hi).decodes

lemma IsLog.consecutive {hash : Digest.Hash} {run : RunId} {b : Bytes} {entries : List Entry}
    (h : IsLog hash run b entries) : Consecutive run (entries.map Entry.batch) := by
  intro i batch hi
  rw [List.getElem?_map, Option.map_eq_some_iff] at hi
  obtain ⟨e, he, rfl⟩ := hi
  exact ⟨(h.fits i e he).run_eq, (h.fits i e he).seq_eq⟩

/-- A log is read as the contents of its entries. -/
theorem read_isLog (hash : Digest.Hash) {run : RunId} {b : Bytes} (hreads : storage.Reads path s b)
    {entries : List Entry} (hlog : IsLog hash run b entries) :
    read hash storage s path = .ok (contentsOf entries) := by
  rw [hlog.bytes_eq] at hreads
  rw [read_texts hash hreads hlog.decodes, contentsOf_eq, foldlM_extend_eq_ok_iff]
  exact ⟨⟨run, hlog.consecutive⟩, rfl⟩

end Log

end ForkTree
