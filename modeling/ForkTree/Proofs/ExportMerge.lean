import ForkTree.Proofs.ExportHistory
import ForkTree.Proofs.SnapshotGrowth

/-!
Merging the exports of one run. An exporter that is never reset only inserts records, so of any two of its
snapshots the later one grew out of the earlier one (`Watch.grows_handleAll`). Merging the later into the
earlier therefore gives the later (`Watch.merge_later`). Merging the earlier into the later brings back the
attributes that paths had then: it leaves the names and the children alone, and changes nothing just if no
path that was shown has changed since (`Watch.merge_earlier`, `Watch.merge_earlier_of_moved`).
-/

namespace ForkTree.Watch

variable {σ : Type}

/-- What happens in a run while the engine uses its paths in some way: a call, which may be refused, or an
export. -/
inductive Event where
  | call (uses : Uses) (call : Session.Call)
  | dump (uses : Uses)

def handle (hash : Digest.Hash) (storage : Storage σ) (w : Watch σ) : Event → Watch σ
  | .call uses call => { w with session := (w.session.step hash storage uses call).2 }
  | .dump uses => w.step hash storage (.dump uses)

def handleAll (hash : Digest.Hash) (storage : Storage σ) (w : Watch σ) (events : List Event) : Watch σ :=
  events.foldl (handle hash storage) w

/-- The snapshot of a new exporter after some events. -/
def snapshotAfter (hash : Digest.Hash) (storage : Storage σ) (session : Session σ) (streams : Bool)
    (events : List Event) : Snapshot :=
  (handleAll hash storage ⟨session, .create streams⟩ events).exporter.snapshot

/-- An event inserts records into the snapshot, those of the live tree or none. -/
lemma exists_insertAll_handle (hash : Digest.Hash) (storage : Storage σ) (w : Watch σ) (event : Event) :
    ∃ records,
      (w.handle hash storage event).exporter.snapshot = w.exporter.snapshot.insertAll records := by
  cases event with
  | call uses call => exact ⟨[], rfl⟩
  | dump uses =>
    cases htree : w.session.tracker.tree? with
    | some t =>
      refine ⟨Exporter.records t w.session.pool uses, ?_⟩
      rw [handle, exporter_dump htree]
      rfl
    | none =>
      obtain ⟨⟨tracker, pool, s⟩, exporter⟩ := w
      cases tracker with
      | idle => exact ⟨[], rfl⟩
      | live | recorded => cases htree

/-- A snapshot grows from any point of a run to any later one, and keeps its names apart. -/
theorem grows_handleAll (hash : Digest.Hash) (storage : Storage σ) (w : Watch σ) (events : List Event)
    (h : w.exporter.snapshot.names.Nodup) :
    w.exporter.snapshot.Grows (w.handleAll hash storage events).exporter.snapshot ∧
      (w.handleAll hash storage events).exporter.snapshot.names.Nodup := by
  induction events generalizing w with
  | nil => exact ⟨.refl _, h⟩
  | cons event events ih =>
    obtain ⟨records, hrecords⟩ := exists_insertAll_handle hash storage w event
    have hnodup : (w.handle hash storage event).exporter.snapshot.names.Nodup := by
      rw [hrecords]
      exact Snapshot.nodup_names_insertAll h records
    obtain ⟨hgrows, hlast⟩ := ih (w.handle hash storage event) hnodup
    refine ⟨Snapshot.Grows.trans ?_ hgrows, hlast⟩
    rw [hrecords]
    exact Snapshot.grows_insertAll _ _

lemma grows_snapshotAfter (hash : Digest.Hash) (storage : Storage σ) (session : Session σ) (streams : Bool)
    (before more : List Event) :
    let earlier := snapshotAfter hash storage session streams before
    let later := snapshotAfter hash storage session streams (before ++ more)
    earlier.names.Nodup ∧ later.names.Nodup ∧ earlier.Grows later := by
  have hearlier := (grows_handleAll hash storage ⟨session, .create streams⟩ before List.nodup_nil).2
  obtain ⟨hgrows, hlater⟩ := grows_handleAll hash storage _ more hearlier
  have hafter : handleAll hash storage ⟨session, .create streams⟩ (before ++ more) =
      (handleAll hash storage ⟨session, .create streams⟩ before).handleAll hash storage more :=
    List.foldl_append
  rw [← hafter] at hgrows hlater
  exact ⟨hearlier, hlater, hgrows⟩

/-- Merging the later of two snapshots of a run into the earlier one gives the later one, and is noticed
exactly if the two differ. -/
theorem merge_later (hash : Digest.Hash) (storage : Storage σ) (session : Session σ) (streams : Bool)
    (before more : List Event) :
    let earlier := snapshotAfter hash storage session streams before
    let later := snapshotAfter hash storage session streams (before ++ more)
    earlier.merge later = (later, decide (earlier ≠ later)) := by
  intro earlier later
  obtain ⟨_, hlater, hgrows⟩ := grows_snapshotAfter hash storage session streams before more
  have hfst : (earlier.merge later).1 = later := hgrows.merge_eq hlater
  have hsnd := earlier.merge_snd_iff hlater
  rw [hfst] at hsnd
  refine Prod.ext hfst (Bool.eq_iff_iff.2 (hsnd.trans ?_))
  rw [decide_eq_true_iff]
  exact ne_comm

/-- Merging the earlier of two snapshots of a run into the later one keeps the later one's records, their
order and their children, and gives a record the attributes that it had in the earlier one, if it had some
there. The merge tells whether any of them differ from the later ones, and changes nothing if none do. -/
theorem merge_earlier (hash : Digest.Hash) (storage : Storage σ) (session : Session σ) (streams : Bool)
    (before more : List Event) :
    let earlier := snapshotAfter hash storage session streams before
    let later := snapshotAfter hash storage session streams (before ++ more)
    (later.merge earlier).1 = later.overwrite earlier ∧
      ((later.merge earlier).2 = true ↔
        ∃ r ∈ earlier.records, ∃ a, r.attributes = some a ∧ later.attributes? r.name ≠ some a) ∧
      (later.merge earlier = (later, false) ↔
        ∀ r ∈ earlier.records, ∀ a, r.attributes = some a → later.attributes? r.name = some a) := by
  intro earlier later
  obtain ⟨hearlier, hlater, hgrows⟩ := grows_snapshotAfter hash storage session streams before more
  have hchanged : (later.merge earlier).2 = true ↔
      ∃ r ∈ earlier.records, ∃ a, r.attributes = some a ∧ later.attributes? r.name ≠ some a := by
    rw [(later.merge_spec earlier).2]
    exact exists_congr fun r => and_congr_right fun hr => hgrows.alters_iff hearlier hr
  have hsame : later.merge earlier = (later, false) ↔ ¬ (later.merge earlier).2 = true := by
    constructor
    · intro h
      rw [h]
      exact Bool.false_ne_true
    · intro h
      have hfst := not_ne_iff.1 fun hne => h ((later.merge_snd_iff hearlier).2 hne)
      exact Prod.ext hfst (Bool.eq_false_iff.2 h)
  refine ⟨hgrows.merge_back hearlier hlater, hchanged, ?_⟩
  rw [hsame, hchanged]
  push Not
  rfl

/-- A path moves on at its leaf between two exports. Merging the first into the second then brings back
where it was. -/
theorem merge_earlier_of_moved :
    let hash : Digest.Hash := fun _ => ⟨List.replicate 32 0, rfl⟩
    let pool : Pool := ⟨#[some (.fresh ⟨1⟩)]⟩
    let session := Session.create hash Storage.memory Config.default true default ⟨0⟩ pool .empty
    let moved := session.pool.modify ⟨0⟩ fun p => { p with pc := "main.c:9" }
    let before : List Event := [.dump .none]
    let more : List Event := [.call .none (.engine moved), .dump .none]
    let earlier := snapshotAfter hash Storage.memory session false before
    let later := snapshotAfter hash Storage.memory session false (before ++ more)
    ¬ later.merge earlier = (later, false) ∧ later.merge earlier = (earlier, true) := by
  decide

end ForkTree.Watch
