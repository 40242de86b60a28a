import ForkTree.Proofs.LogRoundTrip

/-!
Reading is exact for the grammar of logs. A segment that the reader takes is the text of an entry: its
header leaves open nothing but the byte without meaning, because the mark, the version and the codec are
compared (`Header.ofBytes?_eq_ok_iff_toBytes`) and both lengths are that of the payload
(`exists_entry_of_readSegment`). So what the reader takes from an offset on is a row of such texts
(`exists_texts_of_readFrom`), and by the rule for batches in order it takes the whole file exactly if that
is a log. A text can be told from whatever follows it, since its header says where it ends; hence the
entries of a file are determined by it (`IsLog.unique`). The main result is `read_eq_ok_iff`.
-/

namespace ForkTree

namespace Bytes

lemma ofLe_lt (b : Bytes) : ofLe b < Nat.pow 256 b.length := by
  induction b with
  | nil => exact Nat.one_pos
  | cons x rest ih =>
    have hx : x.toNat < 256 := x.toNat_lt
    have hpow : Nat.pow 256 (rest.length + 1) = 256 * Nat.pow 256 rest.length := Nat.mul_comm _ _
    rw [ofLe, List.length_cons, hpow]
    omega

/-- Eight bytes are those of the number that they make. -/
lemma le_toNat_ofLe {b : Bytes} (h : b.length = 8) : le 8 (UInt64.ofNat (ofLe b)).toNat = b := by
  have hlt : ofLe b < UInt64.size := by
    have hbound := ofLe_lt b
    rw [h] at hbound
    exact hbound
  have hwritten := le_ofLe b
  rw [h] at hwritten
  rw [UInt64.toNat_ofNat', Nat.mod_eq_of_lt hlt, hwritten]

lemma le_injective {m n : Nat} (hm : m < UInt64.size) (hn : n < UInt64.size) (h : le 8 m = le 8 n) :
    m = n := by
  have hnat := congrArg UInt64.toNat (congrArg (fun b => UInt64.ofNat (ofLe b)) h)
  rwa [ofNat_ofLe_le hm, ofNat_ofLe_le hn, UInt64.toNat_ofNat', UInt64.toNat_ofNat', Nat.mod_eq_of_lt hm,
    Nat.mod_eq_of_lt hn] at hnat

lemma slice_add (b : Bytes) (start m n : Nat) :
    slice b start (m + n) = slice b start m ++ slice b (start + m) n := by
  rw [slice, slice, slice, List.take_add, List.drop_drop]

lemma slice_two {b : Bytes} {start : Nat} (h : start + 2 ≤ b.length) :
    slice b start 2 = [(b[start]?).getD 0, (b[start + 1]?).getD 0] := by
  have hfirst : start < b.length := by omega
  have hsecond : start + 1 < b.length := by omega
  rw [slice, List.drop_eq_getElem_cons hfirst, List.drop_eq_getElem_cons hsecond,
    List.getElem?_eq_getElem hfirst, List.getElem?_eq_getElem hsecond]
  rfl

end Bytes

namespace Log

lemma Codec.toByte_of_ofByte? {x : UInt8} {codec : Codec} (h : Codec.ofByte? x = some codec) :
    codec.toByte = x := by
  unfold ofByte? at h
  split at h
  · next hx => cases h; exact hx.symm
  · split at h
    · next hx => cases h; exact hx.symm
    · split at h
      · next hx => cases h; exact hx.symm
      · cases h

/-- The bytes of a header are known from what is read off it, but for the one without meaning. -/
theorem Header.take_of_ofBytes? {b : Bytes} {h : Header} (hread : Header.ofBytes? b = .ok h) :
    size ≤ b.length ∧
      b.take size = mark ++ Bytes.le 2 version ++ [h.codec.toByte, (b[7]?).getD 0] ++
        Bytes.le 8 h.rawLength.toNat ++ Bytes.le 8 h.storedLength.toNat := by
  unfold ofBytes? at hread
  split at hread
  · cases hread
  next hlong =>
  have hlen : size ≤ b.length := Nat.le_of_not_lt hlong
  have height : ∀ start, start + 8 ≤ size → (Bytes.slice b start 8).length = 8 := fun start hstart => by
    rw [Bytes.slice, List.length_take, List.length_drop]
    omega
  split at hread
  · cases hread
  next codec hcodec =>
  split at hread
  · cases hread
  next hfront =>
  cases hread
  rw [not_or, not_not, not_not] at hfront
  obtain ⟨hmark, hversion⟩ := hfront
  have hcut : b.take size = b.take 4 ++ Bytes.slice b 4 2 ++ Bytes.slice b 6 2 ++ Bytes.slice b 8 8 ++
      Bytes.slice b 16 8 := by
    have hall : b.take size = Bytes.slice b 0 (4 + 2 + 2 + 8 + 8) := rfl
    rw [hall, Bytes.slice_add, Bytes.slice_add, Bytes.slice_add, Bytes.slice_add]
    rfl
  refine ⟨hlen, ?_⟩
  rw [hcut, hmark, hversion, Bytes.slice_two (Nat.le_trans (by decide) hlen),
    Codec.toByte_of_ofByte? hcodec, Bytes.le_toNat_ofLe (height 8 (by decide)),
    Bytes.le_toNat_ofLe (height 16 (by decide))]

/-- Another byte without meaning. -/
lemma Header.set_toBytes (h : Header) (reserved : UInt8) :
    h.toBytes.set 7 reserved = mark ++ Bytes.le 2 version ++ [h.codec.toByte, reserved] ++
      Bytes.le 8 h.rawLength.toNat ++ Bytes.le 8 h.storedLength.toNat := rfl

/-- Reading undoes writing. A header is read off exactly those bytes that are at least as many and begin
with what the header is written as, once the byte without meaning is set to zero. -/
theorem Header.ofBytes?_eq_ok_iff_toBytes (h : Header) :
    Header.ofBytes? h.toBytes = .ok h ∧
      ∀ b : Bytes, Header.ofBytes? b = .ok h ↔ size ≤ b.length ∧ h.toBytes = (b.take size).set 7 0 := by
  refine ⟨?_, fun b => ⟨fun hread => ?_, ?_⟩⟩
  · have hread := ofBytes?_append h.codec 0 h.rawLength h.storedLength []
    rwa [List.append_nil] at hread
  · obtain ⟨hlong, htake⟩ := take_of_ofBytes? hread
    rw [← set_toBytes] at htake
    refine ⟨hlong, ?_⟩
    rw [htake, List.set_set]
    rfl
  · rintro ⟨hlong, hwritten⟩
    have hbyte : 7 < (b.take size).length := by
      rw [List.length_take_of_le hlong, size]
      omega
    have htake : b.take size = h.toBytes.set 7 ((b.take size)[7]) := by
      rw [hwritten, List.set_set, List.set_getElem_self]
    rw [← List.take_append_drop size b, htake, set_toBytes]
    exact ofBytes?_append _ _ _ _ _

lemma Header.lengths_of_checkSizes {h : Header} {limit : Nat} (hok : h.checkSizes limit = .ok ())
    (hcodec : h.codec = .plain) : h.storedLength.toNat ≤ limit ∧ h.rawLength = h.storedLength := by
  unfold checkSizes at hok
  split at hok
  · cases hok
  next hlimit =>
  split at hok
  · cases hok
  next hsame =>
  rw [not_or] at hlimit
  rw [not_and, not_not] at hsame
  exact ⟨Nat.le_of_not_lt hlimit.2, (hsame hcodec).symm⟩

lemma bind_eq_ok_iff {α β : Type} {x : Except Error α} {f : α → Except Error β} {r : β} :
    x >>= f = .ok r ↔ ∃ a, x = .ok a ∧ f a = .ok r := by
  cases x <;> simp [bind, Except.bind]

lemma liftStorage_eq_ok_iff {α : Type} {x : Except Storage.Fault α} {a : α} :
    liftStorage x = .ok a ↔ x = .ok a := by
  cases x <;> simp [liftStorage]

/-- What a reader makes sure of before it takes a segment for a batch. -/
structure Accepts (hash : Digest.Hash) (header body : Bytes) (h : Header) (batch : Batch) : Prop where
  header_eq : Header.ofBytes? header = .ok h
  sizes_ok : h.checkSizes maxPayload = .ok ()
  length_body : h.storedLength.toNat + checksumSize ≤ body.length
  checksum_ok :
    checksumOk hash header (body.take h.storedLength.toNat) (body.drop h.storedLength.toNat) = true
  codec_eq : h.codec = .plain
  payload_eq : Batch.ofBytes? (body.take h.storedLength.toNat) = some batch

section Reading

variable {σ : Type} {storage : Storage σ} {path : String} {s : σ} {hash : Digest.Hash}

lemma accepts_of_readSegment {offset : Nat} {batch : Batch} {len : Nat}
    (hok : readSegment hash storage s path offset = .ok (batch, len)) :
    ∃ header body h, Accepts hash header body h batch ∧
      storage.readRange path offset Header.size s = .ok header ∧
      storage.readRange path (offset + Header.size) (h.storedLength.toNat + checksumSize) s = .ok body ∧
      len = Header.size + (h.storedLength.toNat + checksumSize) := by
  unfold readSegment at hok
  obtain ⟨header, hheader, hok⟩ := bind_eq_ok_iff.1 hok
  split at hok
  · cases hok
  obtain ⟨h, hread, hok⟩ := bind_eq_ok_iff.1 hok
  obtain ⟨_, hsizes, hok⟩ := bind_eq_ok_iff.1 hok
  obtain ⟨body, hbody, hok⟩ := bind_eq_ok_iff.1 hok
  simp only at hok
  split at hok
  · cases hok
  next hwhole =>
  split at hok
  · cases hok
  next hsum =>
  obtain ⟨payload, hpayload, hok⟩ := bind_eq_ok_iff.1 hok
  split at hok
  · next hbatch =>
    cases hok
    have hplain : h.codec = .plain ∧ payload = body.take h.storedLength.toNat := by
      cases hcodec : h.codec <;> rw [hcodec] at hpayload <;> cases hpayload
      exact ⟨rfl, rfl⟩
    obtain ⟨hcodec, rfl⟩ := hplain
    exact ⟨header, body, h,
      ⟨hread, hsizes, Nat.le_of_not_lt hwhole, by simpa using hsum, hcodec, hbatch⟩,
      liftStorage_eq_ok_iff.1 hheader, liftStorage_eq_ok_iff.1 hbody, rfl⟩
  · cases hok

/-- A segment that is taken is the text of an entry. -/
lemma Accepts.exists_entry {header body : Bytes} {h : Header} {batch : Batch}
    (haccepts : Accepts hash header body h batch) (hheader : header.length = Header.size)
    (hbody : body.length = h.storedLength.toNat + checksumSize) :
    ∃ e : Entry, e.Decodes ∧ e.batch = batch ∧ e.text hash = header ++ body := by
  obtain ⟨hle, hsame⟩ := Header.lengths_of_checkSizes haccepts.sizes_ok haccepts.codec_eq
  obtain ⟨_, hfront⟩ := Header.take_of_ofBytes? haccepts.header_eq
  let e : Entry := ⟨(header[7]?).getD 0, body.take h.storedLength.toNat, batch⟩
  have hlength : e.payload.length = h.storedLength.toNat := by
    rw [List.length_take, hbody]
    omega
  have heq : e.header = header := by
    rw [← hheader, List.take_length, haccepts.codec_eq, hsame, ← hlength] at hfront
    exact hfront.symm
  have hchecksum : (hash (e.header ++ e.payload)).bytes = body.drop h.storedLength.toNat := by
    rw [heq]
    exact of_decide_eq_true haccepts.checksum_ok
  refine ⟨e, ⟨hlength ▸ hle, haccepts.payload_eq⟩, rfl, ?_⟩
  rw [Entry.text, hchecksum, heq, List.append_assoc]
  exact congrArg (header ++ ·) (List.take_append_drop _ _)

variable {b : Bytes}

theorem exists_entry_of_readSegment (hreads : storage.Reads path s b) {offset : Nat}
    (hoffset : offset < b.length) {batch : Batch} {len : Nat}
    (hok : readSegment hash storage s path offset = .ok (batch, len)) :
    ∃ e : Entry, e.Decodes ∧ e.batch = batch ∧ (e.text hash).length = len ∧
      b.drop offset = e.text hash ++ b.drop (offset + len) := by
  obtain ⟨header, body, h, haccepts, hheader, hbody, rfl⟩ := accepts_of_readSegment hok
  rw [hreads.readRange_eq _ _ (Nat.le_of_lt hoffset)] at hheader
  cases hheader
  have hlong := (Header.take_of_ofBytes? haccepts.header_eq).1
  have hroom : offset + Header.size ≤ b.length := by
    rw [Bytes.slice, List.length_take, List.length_drop] at hlong
    omega
  rw [hreads.readRange_eq _ _ hroom] at hbody
  cases hbody
  have hwhole := haccepts.length_body
  have hle : ∀ start len, (Bytes.slice b start len).length ≤ len := fun start len => by
    rw [Bytes.slice, List.length_take]
    exact Nat.min_le_left _ _
  obtain ⟨e, hdecodes, hbatch, htext⟩ :=
    haccepts.exists_entry (Nat.le_antisymm (hle _ _) hlong) (Nat.le_antisymm (hle _ _) hwhole)
  rw [← Bytes.slice_add] at htext
  refine ⟨e, hdecodes, hbatch, ?_, ?_⟩
  · rw [htext, Bytes.slice_add, List.length_append]
    exact congrArg₂ (· + ·) (Nat.le_antisymm (hle _ _) hlong) (Nat.le_antisymm (hle _ _) hwhole)
  · rw [htext, Bytes.slice, ← List.drop_drop, List.take_append_drop]

/-- What is read from an offset on is a row of texts, and their batches are taken in one after the
other. -/
theorem exists_texts_of_readFrom (hreads : storage.Reads path s b) {fuel offset : Nat}
    (hoffset : offset ≤ b.length) (hfuel : b.length ≤ offset + fuel) {c d : Contents}
    (hok : readFrom hash storage s path b.length fuel offset c = .ok d) :
    ∃ entries : List Entry, b.drop offset = entries.flatMap (Entry.text hash) ∧
      (∀ e ∈ entries, e.Decodes) ∧ (entries.map Entry.batch).foldlM Contents.extend c = .ok d := by
  have hend : ∀ {offset : Nat} {c : Contents}, b.length ≤ offset → c = d →
      ∃ entries : List Entry, b.drop offset = entries.flatMap (Entry.text hash) ∧
        (∀ e ∈ entries, e.Decodes) ∧ (entries.map Entry.batch).foldlM Contents.extend c = .ok d := by
    rintro offset c hle rfl
    exact ⟨[], List.drop_eq_nil_of_le hle, nofun, rfl⟩
  -- On the bound: a segment takes more bytes than the one by which the bound falls, so `hfuel` carries over.
  induction fuel generalizing offset c with
  | zero => exact hend hfuel (Except.ok.inj hok)
  | succ fuel ih =>
    rw [readFrom] at hok
    split at hok
    · next hlt =>
      obtain ⟨⟨batch, len⟩, hsegment, htaken⟩ := bind_eq_ok_iff.1 hok
      obtain ⟨next, hextend, hbehind⟩ := bind_eq_ok_iff.1 htaken
      obtain ⟨e, hdecodes, rfl, rfl, hdrop⟩ := exists_entry_of_readSegment hreads hlt hsegment
      have hlength := congrArg List.length hdrop
      rw [List.length_append, List.length_drop, List.length_drop] at hlength
      have hpos := e.length_text hash
      rw [Header.size] at hpos
      obtain ⟨entries, hrest, hall, hfold⟩ := ih (by omega) (by omega) hbehind
      refine ⟨e :: entries, ?_, List.forall_mem_cons.2 ⟨hdecodes, hall⟩, ?_⟩
      · rw [hdrop, hrest, List.flatMap_cons]
      · rw [List.map_cons, List.foldlM_cons, hextend]
        exact hfold
    · next hle => exact hend (Nat.le_of_not_lt hle) (Except.ok.inj hok)

theorem exists_texts_of_read (hreads : storage.Reads path s b) {c : Contents}
    (hok : read hash storage s path = .ok c) :
    ∃ entries : List Entry, b = entries.flatMap (Entry.text hash) ∧ (∀ e ∈ entries, e.Decodes) ∧
      (entries.map Entry.batch).foldlM Contents.extend .empty = .ok c := by
  rw [read, hreads.size_eq] at hok
  exact exists_texts_of_readFrom hreads (Nat.zero_le _) (Nat.le_add_left _ _) hok

/-- The bound on the segments to come never ends the reading: they take a byte each. -/
lemma readFrom_eq_of_le {size fuel fuel' offset : Nat} (h : size ≤ offset + fuel)
    (h' : size ≤ offset + fuel') (c : Contents) :
    readFrom hash storage s path size fuel offset c = readFrom hash storage s path size fuel' offset c := by
  induction fuel generalizing fuel' offset c with
  | zero => exact (readFrom_of_le h fuel' c).symm
  | succ fuel ih =>
    cases fuel' with
    | zero => exact readFrom_of_le h' (fuel + 1) c
    | succ fuel' =>
      rw [readFrom, readFrom]
      split
      · cases hsegment : readSegment hash storage s path offset with
        | error fault => rfl
        | ok segment =>
          obtain ⟨batch, len⟩ := segment
          obtain ⟨_, _, _, _, _, _, hlen⟩ := accepts_of_readSegment hsegment
          rw [Header.size] at hlen
          simp only [bind, Except.bind]
          cases c.extend batch with
          | error fault => rfl
          | ok d => exact ih (by omega) (by omega) d
      · rfl

end Reading

lemma Entry.Decodes.header_inj {e f : Entry} (he : e.Decodes) (hf : f.Decodes)
    (h : e.header = f.header) : e.reserved = f.reserved ∧ e.payload.length = f.payload.length := by
  rw [Entry.header, Entry.header] at h
  obtain ⟨hfront, hlength⟩ := List.append_inj' h (by simp)
  obtain ⟨hfront, _⟩ := List.append_inj' hfront (by simp)
  obtain ⟨_, hbytes⟩ := List.append_inj' hfront rfl
  exact ⟨(List.cons.inj (List.cons.inj hbytes).2).1, Bytes.le_injective
    (lt_size_of_le_maxPayload he.length_le) (lt_size_of_le_maxPayload hf.length_le) hlength⟩

/-- A text can be told from what follows it. -/
lemma Entry.Decodes.text_inj {hash : Digest.Hash} {e f : Entry} (he : e.Decodes) (hf : f.Decodes)
    {back back' : Bytes} (h : e.text hash ++ back = f.text hash ++ back') : e = f ∧ back = back' := by
  rw [Entry.text, Entry.text, List.append_assoc, List.append_assoc, List.append_assoc,
    List.append_assoc] at h
  obtain ⟨hheader, hrest⟩ := List.append_inj h (by rw [length_header, length_header])
  obtain ⟨hreserved, hlength⟩ := he.header_inj hf hheader
  obtain ⟨hpayload, hrest⟩ := List.append_inj hrest hlength
  have hbatch : e.batch = f.batch := by
    have hsome := he.payload_eq
    rw [hpayload, hf.payload_eq] at hsome
    exact (Option.some.inj hsome).symm
  obtain ⟨_, hback⟩ := List.append_inj hrest (by rw [Digest.length_eq, Digest.length_eq])
  obtain ⟨reserved, payload, batch⟩ := e
  cases hreserved
  cases hpayload
  cases hbatch
  exact ⟨rfl, hback⟩

lemma eq_of_flatMap_text_eq {hash : Digest.Hash} {es fs : List Entry} (hes : ∀ e ∈ es, e.Decodes)
    (hfs : ∀ f ∈ fs, f.Decodes) (h : es.flatMap (Entry.text hash) = fs.flatMap (Entry.text hash)) :
    es = fs := by
  -- No text is empty, so neither row ends before the other.
  have hnil : ∀ (f : Entry) (fs : List Entry), (f :: fs).flatMap (Entry.text hash) ≠ [] := by
    intro f fs hempty
    have hlength := congrArg List.length hempty
    rw [List.flatMap_cons, List.length_append, Entry.length_text, Header.size, List.length_nil] at hlength
    omega
  induction es generalizing fs with
  | nil =>
    cases fs with
    | nil => rfl
    | cons f fs => exact absurd h.symm (hnil f fs)
  | cons e es ih =>
    cases fs with
    | nil => exact absurd h (hnil e es)
    | cons f fs =>
      obtain ⟨he, hes⟩ := List.forall_mem_cons.1 hes
      obtain ⟨hf, hfs⟩ := List.forall_mem_cons.1 hfs
      rw [List.flatMap_cons, List.flatMap_cons] at h
      obtain ⟨hfirst, hrest⟩ := he.text_inj hf h
      rw [hfirst, ih hes hfs hrest]

theorem IsLog.unique {hash : Digest.Hash} {run run' : RunId} {b : Bytes} {entries entries' : List Entry}
    (h : IsLog hash run b entries) (h' : IsLog hash run' b entries') : entries = entries' :=
  eq_of_flatMap_text_eq h.decodes h'.decodes (h.bytes_eq.symm.trans h'.bytes_eq)

/-! ### Reading -/

/-- A file is read exactly if it is a log, and then as the contents of its entries, which it determines.
A larger bound on the number of segments changes nothing, so every reading comes to its end. -/
theorem read_eq_ok_iff (hash : Digest.Hash) {σ : Type} {storage : Storage σ} {path : String} {s : σ}
    {b : Bytes} (hreads : storage.Reads path s b) :
    (∀ c, read hash storage s path = .ok c ↔
      ∃ run entries, IsLog hash run b entries ∧ c = contentsOf entries) ∧
    (∀ run run' entries entries', IsLog hash run b entries → IsLog hash run' b entries' →
      entries = entries') ∧
    ∀ fuel, b.length ≤ fuel →
      readFrom hash storage s path b.length fuel 0 .empty = read hash storage s path := by
  have hread : read hash storage s path = readFrom hash storage s path b.length b.length 0 .empty := by
    rw [read, hreads.size_eq]
    rfl
  refine ⟨fun c => ⟨fun hok => ?_, ?_⟩, fun run run' entries entries' => IsLog.unique, fun fuel hfuel => ?_⟩
  · obtain ⟨entries, hbytes, hdecodes, hfold⟩ := exists_texts_of_read hreads hok
    obtain ⟨⟨run, hbatches⟩, rfl⟩ := foldlM_extend_eq_ok_iff.1 hfold
    refine ⟨run, entries, ⟨hbytes, fun i e he => ?_⟩, (contentsOf_eq entries).symm⟩
    have he' := hdecodes e (List.mem_of_getElem? he)
    obtain ⟨hrun, hseq⟩ := hbatches i e.batch (by rw [List.getElem?_map, he]; rfl)
    exact ⟨he'.length_le, he'.payload_eq, hrun, hseq⟩
  · rintro ⟨run, entries, hlog, rfl⟩
    exact read_isLog hash hreads hlog
  · rw [hread]
    exact readFrom_eq_of_le (by omega) (by omega) _

/-- Two segments whose bytes without meaning are not zero. -/
theorem read_eq_ok_of_reserved :
    let hash := Digest.Blake3.digest
    let batches : List Batch := [⟨default, 0, [.root ⟨1⟩, .branch ⟨1⟩ ⟨2⟩ ⟨3⟩ 7 .conditional]⟩,
      ⟨default, 1, [.terminate ⟨2⟩ (some ⟨5⟩) 9 .exit]⟩]
    let entries := batches.map fun batch => (⟨255, batch.toBytes, batch⟩ : Entry)
    let file := entries.flatMap (Entry.text hash)
    Storage.memory.Reads "log" ⟨[("log", file)]⟩ file ∧
      read hash Storage.memory ⟨[("log", file)]⟩ "log" = .ok ⟨some default, 2,
        [.root ⟨1⟩, .branch ⟨1⟩ ⟨2⟩ ⟨3⟩ 7 .conditional, .terminate ⟨2⟩ (some ⟨5⟩) 9 .exit]⟩ := by
  intro hash batches entries file
  have hreads : Storage.memory.Reads "log" ⟨[("log", file)]⟩ file :=
    (Storage.keeps_memory "log").reads rfl
  have hlog : IsLog hash default file entries := by
    refine ⟨rfl, fun i e he => ?_⟩
    have hlt : i < 2 := (List.getElem?_eq_some_iff.1 he).1
    obtain rfl | rfl : i = 0 ∨ i = 1 := by omega
    · cases he
      exact ⟨by decide +kernel, Batch.ofBytes?_toBytes _, rfl, rfl⟩
    · cases he
      exact ⟨by decide +kernel, Batch.ofBytes?_toBytes _, rfl, rfl⟩
  exact ⟨hreads, ((read_eq_ok_iff hash hreads).1 _).2 ⟨default, entries, hlog, rfl⟩⟩

end Log

end ForkTree
