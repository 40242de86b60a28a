import ForkTree.Log.Record

/-!
Histories: the lists of records that tell how a tree came about. The conditions look at the list as a
whole, at what each record introduces and at what it is about, and not at a tree.
-/

namespace ForkTree.Replay

open Log (Record)

/-- The ids that come up with a record. -/
def introduced : Record → List NodeId
  | .root id => [id]
  | .branch _ left right _ _ => [left, right]
  | .terminate .. => []

/-- The id whose path a record continues or ends. -/
def subject? : Record → Option NodeId
  | .root _ => none
  | .branch id .. => some id
  | .terminate id .. => some id

def isRoot : Record → Bool
  | .root _ => true
  | _ => false

structure IsHistory (records : List Record) : Prop where
  /-- There is one root, and it comes first. -/
  root_first : ∀ first rest, records = first :: rest → isRoot first ∧ ∀ r ∈ rest, !isRoot r
  /-- No id comes up twice. -/
  introduced_nodup : (records.flatMap introduced).Nodup
  /-- What a record is about came up before. -/
  known : ∀ before r after, records = before ++ r :: after →
    ∀ id, subject? r = some id → id ∈ before.flatMap introduced
  /-- No path goes on after it forked or ended. -/
  subject_nodup : (records.filterMap subject?).Nodup

theorem isHistory_nil : IsHistory [] where
  root_first := by intro first rest h; cases h
  introduced_nodup := .nil
  known := by intro before r after h; simp at h
  subject_nodup := .nil

end ForkTree.Replay
