import ForkTree.Log.Writer
import Mathlib.Tactic.Lemma

/-!
Runs of a log writer: the requests that are made of it, one after the other, and what a commit that is due
does. It appends all that waits as one segment, and nothing waits behind such an attempt, whatever came of
it (`commit_of_isDue`).
-/

namespace ForkTree.Log

def Batch.segment (hash : Digest.Hash) (b : Batch) : Bytes :=
  frame hash .plain (UInt64.ofNat b.toBytes.length) b.toBytes

/-- An append that a writer tried, and what the storage said to it. -/
structure Attempt where
  batch : Batch
  segment : Bytes
  outcome : Except Storage.Fault Unit

def Attempt.succeeded (a : Attempt) : Bool := a.outcome.isOk

namespace Writer

variable {σ : Type}

/-- What is asked of a writer. -/
inductive Op where
  | write (record : Record)
  | commit (force : Bool)
  deriving DecidableEq

/-- The outcome of one request. -/
def handle (hash : Digest.Hash) (storage : Storage σ) (op : Op) (w : Writer) (s : σ) :
    Except Error Unit × Writer × σ :=
  match op with
  | .write record => w.write hash storage record s
  | .commit force => w.commit hash storage force s

/-- What requests leave behind that are made one after the other. -/
def serve (hash : Digest.Hash) (storage : Storage σ) (ops : List Op) (w : Writer) (s : σ) :
    Writer × σ :=
  ops.foldl (fun (w, s) op => (w.handle hash storage op s).2) (w, s)

lemma serve_append (hash : Digest.Hash) (storage : Storage σ) (before rest : List Op) (w : Writer)
    (s : σ) :
    w.serve hash storage (before ++ rest) s =
      (w.serve hash storage before s).1.serve hash storage rest (w.serve hash storage before s).2 :=
  List.foldl_append

/-- The writer behind an attempt. -/
def settle (w : Writer) (a : Attempt) : Writer :=
  { w with
    pending := []
    nextSeq := if a.succeeded then w.nextSeq + 1 else w.nextSeq
    committed := if a.succeeded then w.committed + a.batch.records.length else w.committed }

variable {hash : Digest.Hash} {storage : Storage σ} {w : Writer} {s : σ} {force : Bool}

lemma segment_of_plain (h : w.codec = .plain) : w.segment hash = .ok (w.batch.segment hash) := by
  rw [segment, h]
  rfl

lemma commit_of_isDue (hcodec : w.codec = .plain) (hdue : w.isDue force = true) :
    w.commit hash storage force s =
      (liftStorage (storage.append w.path (w.batch.segment hash) s).1,
        w.settle ⟨w.batch, w.batch.segment hash, (storage.append w.path (w.batch.segment hash) s).1⟩,
        (storage.append w.path (w.batch.segment hash) s).2) := by
  rw [commit, if_pos hdue, segment_of_plain hcodec]
  simp only
  generalize storage.append w.path (w.batch.segment hash) s = result
  rcases result with ⟨_ | _, t⟩ <;> rfl

lemma commit_of_not_isDue (hdue : w.isDue force = false) :
    w.commit hash storage force s = (.ok (), w, s) := by
  rw [commit, hdue]
  rfl

lemma pending_commit_true (hcodec : w.codec = .plain) :
    (w.commit hash storage true s).2.1.pending = [] := by
  rcases Bool.eq_false_or_eq_true (w.isDue true) with hdue | hdue
  · rw [commit_of_isDue hcodec hdue]
    rfl
  · have hempty : w.pending = [] := by simpa [isDue] using hdue
    rw [commit_of_not_isDue hdue]
    exact hempty

end Writer

end ForkTree.Log
