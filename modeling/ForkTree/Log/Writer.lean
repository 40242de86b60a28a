import ForkTree.Log.Record
import ForkTree.Log.Segment

/-!
Writing a log. Records wait until a batch is full, a commit is forced or the log is closed, and are
then appended as one segment. A batch whose append fails is lost, and the next one takes its number.
-/

namespace ForkTree.Log

structure Writer where
  path : String
  codec : Codec
  run : RunId
  /-- The number of waiting records at which a batch is committed, at least one. -/
  batchSize : Nat
  pending : List Record
  nextSeq : UInt64
  /-- The number of records in committed batches. Unlike the numbers of batches it is not bounded here. -/
  committed : Nat
  deriving DecidableEq, Repr

namespace Writer

variable {σ : Type}

/-- Start a log on an empty file. -/
def create (storage : Storage σ) (path : String) (codec : Codec) (batchSize : Nat) (run : RunId)
    (s : σ) : Except Error Writer × σ :=
  match storage.create path s with
  | (.ok _, s) => (.ok ⟨path, codec, run, max batchSize 1, [], 0, 0⟩, s)
  | (.error fault, s) => (.error (.storage fault), s)

/-- The batch that the waiting records make. -/
def batch (w : Writer) : Batch := ⟨w.run, w.nextSeq, w.pending⟩

def segment (hash : Digest.Hash) (w : Writer) : Except Error Bytes := do
  let payload := w.batch.toBytes
  let stored ← liftCodec (w.codec.pack payload)
  return frame hash w.codec (UInt64.ofNat payload.length) stored

/-- Whether a commit has something to do. -/
def isDue (w : Writer) (force : Bool) : Bool :=
  !w.pending.isEmpty && (force || w.batchSize ≤ w.pending.length)

/-- Append the waiting records as one segment, unless the batch is neither full nor forced. They no
longer wait afterwards, whether the append succeeded or not. -/
def commit (hash : Digest.Hash) (storage : Storage σ) (force : Bool) (w : Writer) (s : σ) :
    Except Error Unit × Writer × σ :=
  if w.isDue force then
    let emptied := { w with pending := [] }
    match w.segment hash with
    | .error e => (.error e, emptied, s)
    | .ok segment =>
      match storage.append w.path segment s with
      | (.error fault, s) => (.error (.storage fault), emptied, s)
      | (.ok _, s) =>
        (.ok (),
          { emptied with nextSeq := w.nextSeq + 1, committed := w.committed + w.pending.length }, s)
  else (.ok (), w, s)

/-- Let a record wait, and commit if that makes the batch full. -/
def write (hash : Digest.Hash) (storage : Storage σ) (record : Record) (w : Writer) (s : σ) :
    Except Error Unit × Writer × σ :=
  let w := { w with pending := w.pending ++ [record] }
  if w.batchSize ≤ w.pending.length then w.commit hash storage true s else (.ok (), w, s)

/-- Commit what is waiting, for the last time. -/
def close (hash : Digest.Hash) (storage : Storage σ) (w : Writer) (s : σ) : σ :=
  (w.commit hash storage true s).2.2

end Writer

end ForkTree.Log
