import ForkTree.Log.Record
import ForkTree.Log.Segment

/-!
Reading a log. Segments are taken off the file one after the other; each must be whole, have its
checksum, and hold the next batch of one and the same run. The first fault ends the reading.
-/

namespace ForkTree.Log

structure Contents where
  /-- The run of the batches; none if there is no batch. -/
  run : Option RunId
  batches : Nat
  records : List Record
  deriving DecidableEq, Repr

namespace Contents

def empty : Contents := ⟨none, 0, []⟩

/-- Take the next batch, if it is of the same run and has the next number. -/
def extend (c : Contents) (b : Batch) : Except Error Contents :=
  let run := c.run.getD b.run
  if run ≠ b.run then .error (.corrupt (.foreignBatch b.seq.toNat b.run run))
  else if b.seq.toNat ≠ c.batches then .error (.corrupt (.misplacedBatch c.batches b.seq.toNat))
  else .ok ⟨some run, c.batches + 1, c.records ++ b.records⟩

end Contents

variable {σ : Type}

/-- The batch in the segment at an offset, and the number of bytes of the segment. -/
def readSegment (hash : Digest.Hash) (storage : Storage σ) (s : σ) (path : String) (offset : Nat) :
    Except Error (Batch × Nat) := do
  let header ← liftStorage (storage.readRange path offset Header.size s)
  if header.length < Header.size then throw (.corrupt (.truncatedHeader offset))
  let h ← Header.ofBytes? header
  h.checkSizes maxPayload
  let bodySize := h.storedLength.toNat + checksumSize
  let body ← liftStorage (storage.readRange path (offset + Header.size) bodySize s)
  if body.length < bodySize then throw (.corrupt (.truncatedSegment offset))
  let stored := body.take h.storedLength.toNat
  if !checksumOk hash header stored (body.drop h.storedLength.toNat) then
    throw (.checksumMismatch offset)
  let payload ← liftCodec (h.codec.unpack stored)
  match Batch.ofBytes? payload with
  | some b => return (b, Header.size + bodySize)
  | none => throw .malformed

/-- Read on from an offset of a file of the given size; `fuel` bounds the segments to come. -/
def readFrom (hash : Digest.Hash) (storage : Storage σ) (s : σ) (path : String) (size : Nat) :
    (fuel : Nat) → (offset : Nat) → Contents → Except Error Contents
  | 0, _, c => .ok c
  | fuel + 1, offset, c =>
    if offset < size then do
      let (b, len) ← readSegment hash storage s path offset
      let c ← c.extend b
      readFrom hash storage s path size fuel (offset + len) c
    else .ok c

/-- The contents of a log. A segment takes at least a byte, so its size bounds the segments. -/
def read (hash : Digest.Hash) (storage : Storage σ) (s : σ) (path : String) :
    Except Error Contents := do
  let size ← liftStorage (storage.size path s)
  readFrom hash storage s path size size 0 .empty

end ForkTree.Log
