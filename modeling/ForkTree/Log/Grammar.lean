import ForkTree.Log.Reader

/-!
The grammar of logs. A log is the texts of its entries one after the other. An entry is what a reader
needs to know of a segment; its text is written down from the layout alone, and the byte without
meaning may have any value.
-/

namespace ForkTree.Log

structure Entry where
  /-- The byte of the header that has no meaning. -/
  reserved : UInt8
  payload : Bytes
  batch : Batch
  deriving DecidableEq, Repr

namespace Entry

def header (e : Entry) : Bytes :=
  mark ++ Bytes.le 2 version ++ [Codec.plain.toByte, e.reserved] ++ Bytes.le 8 e.payload.length ++
    Bytes.le 8 e.payload.length

def text (hash : Digest.Hash) (e : Entry) : Bytes :=
  e.header ++ e.payload ++ (hash (e.header ++ e.payload)).bytes

/-- An entry that may stand at a position of a run's log. -/
structure Fits (run : RunId) (position : Nat) (e : Entry) : Prop where
  length_le : e.payload.length ≤ maxPayload
  payload_eq : Batch.ofBytes? e.payload = some e.batch
  run_eq : e.batch.run = run
  seq_eq : e.batch.seq.toNat = position

@[simp]
theorem length_header (e : Entry) : e.header.length = Header.size := by
  simp [header, mark, Header.size]

theorem length_text (hash : Digest.Hash) (e : Entry) :
    (e.text hash).length = Header.size + e.payload.length + checksumSize := by
  simp [text, (hash (e.header ++ e.payload)).length_eq, checksumSize, Nat.add_assoc]

end Entry

/-- The bytes are the entries of one run in order. -/
structure IsLog (hash : Digest.Hash) (run : RunId) (b : Bytes) (entries : List Entry) : Prop where
  bytes_eq : b = entries.flatMap (Entry.text hash)
  fits : ∀ (position : Nat) (e : Entry), entries[position]? = some e → e.Fits run position

/-- The contents of a log by its entries. -/
def contentsOf (entries : List Entry) : Contents where
  run := entries.head?.map fun e => e.batch.run
  batches := entries.length
  records := entries.flatMap fun e => e.batch.records

/-- A plain segment is the text of an entry whose byte without meaning is zero. -/
theorem frame_eq_text (hash : Digest.Hash) (batch : Batch) {payload : Bytes}
    (h : payload.length < UInt64.size) :
    frame hash .plain (UInt64.ofNat payload.length) payload = Entry.text hash ⟨0, payload, batch⟩ := by
  have hlen : (UInt64.ofNat payload.length).toNat = payload.length := by
    rw [UInt64.toNat_ofNat']
    exact Nat.mod_eq_of_lt h
  simp only [frame, Entry.text, Entry.header, Header.toBytes, hlen]

end ForkTree.Log
