import ForkTree.Digest.Blake3
import ForkTree.Proofs.ExportHistory
import ForkTree.Proofs.JsonLines
import ForkTree.Proofs.SnapshotRoundTrip

/-!
What an exporter streams. It compares digests to notice whether an export changed its snapshot, while each
record that is inserted changes the snapshot or does not. The two agree over a whole run (`Exporter.Streams`):
the text behind a digest determines the snapshot (`Snapshot.compact_injective`), and within one export no record
undoes another, since all that is exported under one name is the same (`Exporter.eq_of_name_records`). So an
export is streamed just if it is the first one since a reset or changed something, and the stream is
the texts of these snapshots, a line each (`Exporter.streams_changes`).
-/

namespace ForkTree

open Snapshot (Record)

namespace Digest

/-- The hash function does not collide on the texts. -/
def Separates (hash : Hash) (texts : List String) : Prop :=
  ∀ a ∈ texts, ∀ b ∈ texts, hash (Bytes.ofText a) = hash (Bytes.ofText b) → a = b

/-- Each text has a digest of its own. -/
lemma separates_of_nodup {hash : Hash} {texts : List String}
    (h : (texts.eraseDups.map fun a => hash (Bytes.ofText a)).Nodup) : Separates hash texts :=
  fun _ ha _ hb => List.inj_on_of_nodup_map h (List.mem_eraseDups.2 ha) (List.mem_eraseDups.2 hb)

lemma Separates.mono {hash : Hash} {texts more : List String} (h : Separates hash more) (hsub : texts ⊆ more) :
    Separates hash texts := fun a ha b hb => h a (hsub ha) b (hsub hb)

end Digest

namespace Exporter

/-- Whatever the tree looks like, what is exported under one name is always the same. -/
lemma eq_of_name_records (v : View) ⦃r : Record⦄ (hr : r ∈ records v.tree v.pool v.uses) ⦃q : Record⦄
    (hq : q ∈ records v.tree v.pool v.uses) (h : r.name = q.name) : r = q := by
  obtain ⟨⟨key, n⟩, hn, rfl⟩ := List.mem_map.1 hr
  obtain ⟨⟨key', n'⟩, hn', rfl⟩ := List.mem_map.1 hq
  obtain rfl : key = key' := NodeKey.shown_injective h
  have hlive : v.tree.node? key = some n := Tree.node?_of_mem_preorderRightFirst hn
  have hlive' : v.tree.node? key = some n' := Tree.node?_of_mem_preorderRightFirst hn'
  rw [hlive, Option.some_inj] at hlive'
  rw [hlive']

/-- What happens to an exporter: an export of what is seen, or a reset. -/
inductive Act where
  | dump (v : View)
  | reset

/-- Export what is seen, and tell whether that changed the snapshot. -/
def dump (hash : Digest.Hash) (e : Exporter) (v : View) : Exporter × Bool :=
  e.run hash v.tree v.pool v.uses

def step (hash : Digest.Hash) (e : Exporter) : Act → Exporter
  | .dump v => (e.dump hash v).1
  | .reset => e.reset

def after (hash : Digest.Hash) (e : Exporter) (acts : List Act) : Exporter := acts.foldl (step hash) e

/-- What was exported since the last reset, or ever if there was none. -/
def sinceReset (acts : List Act) : List View :=
  acts.foldl
    (fun seen act =>
      match act with
      | .dump v => seen ++ [v]
      | .reset => [])
    []

/-- The snapshot after each export among some acts, and whether the export told of a change. -/
def outcomes (hash : Digest.Hash) : Exporter → List Act → List (Snapshot × Bool)
  | _, [] => []
  | e, .dump v :: acts =>
    let (e, changed) := e.dump hash v
    (e.snapshot, changed) :: outcomes hash e acts
  | e, .reset :: acts => outcomes hash e.reset acts

/-- The texts of the snapshots after the exports. -/
def texts (outcomes : List (Snapshot × Bool)) : List String := outcomes.map fun outcome => outcome.1.compact

/-- The texts of the snapshots after those exports that told of a change. -/
def told (outcomes : List (Snapshot × Bool)) : List String := texts (outcomes.filter Prod.snd)

variable {hash : Digest.Hash} {e : Exporter} {acts : List Act}

lemma after_concat (hash : Digest.Hash) (e : Exporter) (acts : List Act) (act : Act) :
    e.after hash (acts ++ [act]) = (e.after hash acts).step hash act := List.foldl_append

lemma sinceReset_dump (acts : List Act) (v : View) :
    sinceReset (acts ++ [.dump v]) = sinceReset acts ++ [v] := List.foldl_append

lemma sinceReset_reset (acts : List Act) : sinceReset (acts ++ [.reset]) = [] := List.foldl_append

lemma outcomes_append (hash : Digest.Hash) (e : Exporter) (acts more : List Act) :
    outcomes hash e (acts ++ more) = outcomes hash e acts ++ outcomes hash (e.after hash acts) more := by
  induction acts generalizing e with
  | nil => rfl
  | cons act acts ih =>
    cases act with
    | dump v => exact congrArg (List.cons _) (ih (e.dump hash v).1)
    | reset => exact ih e.reset

lemma outcomes_dump (hash : Digest.Hash) (e : Exporter) (acts : List Act) (v : View) :
    outcomes hash e (acts ++ [.dump v]) = outcomes hash e acts ++
      [(((e.after hash acts).dump hash v).1.snapshot, ((e.after hash acts).dump hash v).2)] :=
  outcomes_append hash e acts [.dump v]

lemma outcomes_reset (hash : Digest.Hash) (e : Exporter) (acts : List Act) :
    outcomes hash e (acts ++ [.reset]) = outcomes hash e acts := by
  rw [outcomes_append]
  exact List.append_nil _

/-- The texts of a run are among those of a longer one. -/
lemma separates_of_append {acts more : List Act}
    (h : Digest.Separates hash (texts (outcomes hash e (acts ++ more)))) :
    Digest.Separates hash (texts (outcomes hash e acts)) := by
  apply h.mono
  rw [outcomes_append, texts, texts, List.map_append]
  exact List.subset_append_left _ _

lemma told_append (xs ys : List (Snapshot × Bool)) : told (xs ++ ys) = told xs ++ told ys := by
  rw [told, List.filter_append, texts, List.map_append]
  rfl

lemma told_subset (outcomes : List (Snapshot × Bool)) : told outcomes ⊆ texts outcomes :=
  List.map_subset _ List.filter_sublist.subset

lemma oneLine_of_mem_told {outcomes : List (Snapshot × Bool)} {line : String} (h : line ∈ told outcomes) :
    Text.OneLine line := by
  obtain ⟨outcome, _, rfl⟩ := List.mem_map.1 h
  exact Json.oneLine_compact _

/-- Where an exporter that streams has come to by some acts. Since the last reset it has the digest of its
snapshot just if it has exported anything, and then the snapshot is what was streamed last. -/
structure Streams (hash : Digest.Hash) (acts : List Act) (e : Exporter) : Prop where
  reached : (create true).after hash acts = e
  digest : e.lastDigest = if sinceReset acts = [] then none else some (e.snapshot.digest hash)
  last : sinceReset acts ≠ [] → (told (outcomes hash (create true) acts)).getLast? = some e.snapshot.compact
  stream : ∃ stream, e.stream = some stream ∧
    stream.text.toList = Text.lines (told (outcomes hash (create true) acts)) ∧
    stream.lines = (told (outcomes hash (create true) acts)).length

namespace Streams

/-- An export tells of a change if it is the first one, or a record changed the snapshot. -/
lemma dump_snd_iff (h : Streams hash acts e) (v : View)
    (hseparates : Digest.Separates hash (texts (outcomes hash (create true) (acts ++ [.dump v])))) :
    (e.dump hash v).2 = true ↔
      sinceReset acts = [] ∨ (e.snapshot.upsertAll false (records v.tree v.pool v.uses)).2 = true := by
  have hchanged :
      (e.dump hash v).2 = decide (e.lastDigest ≠ some ((e.dump hash v).1.snapshot.digest hash)) := rfl
  have hsnapshot : (e.dump hash v).1.snapshot = e.snapshot.insertAll (records v.tree v.pool v.uses) := rfl
  rw [hchanged, decide_eq_true_iff, h.digest, Snapshot.upsertAll_snd_iff _ (eq_of_name_records v),
    ← hsnapshot]
  rw [outcomes_dump, h.reached, texts, List.map_append] at hseparates
  by_cases hfirst : sinceReset acts = []
  · rw [if_pos hfirst]
    exact iff_of_true (by simp) (.inl hfirst)
  · have hmem := told_subset _ (List.mem_of_getLast? (h.last hfirst))
    rw [if_neg hfirst, or_iff_right hfirst, Ne, Option.some_inj, Ne, not_iff_not]
    constructor
    · intro hdigest
      apply Snapshot.compact_injective
      exact hseparates _ (List.mem_append_right _ (List.mem_singleton_self _)) _
        (List.mem_append_left _ hmem) hdigest.symm
    · intro hsame
      rw [hsame]

lemma start (hash : Digest.Hash) : Streams hash [] (create true) where
  reached := rfl
  digest := rfl
  last h := absurd rfl h
  stream := ⟨.empty, rfl, rfl, rfl⟩

lemma reset (h : Streams hash acts e) : Streams hash (acts ++ [.reset]) e.reset where
  reached := by
    rw [after_concat, h.reached]
    rfl
  digest := by
    rw [sinceReset_reset, if_pos rfl]
    rfl
  last hsince := absurd (sinceReset_reset acts) hsince
  stream := by
    rw [outcomes_reset]
    exact h.stream

lemma dump (h : Streams hash acts e) (v : View)
    (hseparates : Digest.Separates hash (texts (outcomes hash (create true) (acts ++ [.dump v])))) :
    Streams hash (acts ++ [.dump v]) (e.dump hash v).1 := by
  obtain ⟨stream, hstream, htext, hlines⟩ := h.stream
  have hreached : (create true).after hash (acts ++ [.dump v]) = (e.dump hash v).1 := by
    rw [after_concat, h.reached]
    rfl
  have hdigest : (e.dump hash v).1.lastDigest =
      if sinceReset (acts ++ [.dump v]) = [] then none else some ((e.dump hash v).1.snapshot.digest hash) := by
    rw [sinceReset_dump, if_neg (List.concat_ne_nil v _)]
    rfl
  have hwritten : (e.dump hash v).1.stream =
      if (e.dump hash v).2 = true then some (stream.write (e.dump hash v).1.snapshot) else some stream := by
    simp only [Exporter.dump, run, hstream, Option.map_some, decide_eq_true_iff]
  have houtcomes := outcomes_dump hash (create true) acts v
  rw [h.reached] at houtcomes
  cases hchanged : (e.dump hash v).2 with
  | true =>
    rw [hchanged] at houtcomes hwritten
    have htold : told (outcomes hash (create true) (acts ++ [.dump v])) =
        told (outcomes hash (create true) acts) ++ [(e.dump hash v).1.snapshot.compact] := by
      rw [houtcomes, told_append]
      rfl
    refine ⟨hreached, hdigest, fun _ => ?_, stream.write (e.dump hash v).1.snapshot, hwritten, ?_, ?_⟩
    · rw [htold, List.getLast?_concat]
    · rw [htold, Text.lines_concat, ← htext, ← String.toList_append, ← String.append_assoc]
      rfl
    · rw [htold, List.length_append, ← hlines]
      rfl
  | false =>
    rw [hchanged] at houtcomes hwritten
    have htold : told (outcomes hash (create true) (acts ++ [.dump v])) =
        told (outcomes hash (create true) acts) := by
      rw [houtcomes, told_append]
      exact List.append_nil _
    have hnot := mt (h.dump_snd_iff v hseparates).2 (Bool.eq_false_iff.1 hchanged)
    rw [not_or, Snapshot.upsertAll_snd_iff _ (eq_of_name_records v), not_ne_iff] at hnot
    have hsnapshot : (e.dump hash v).1.snapshot = e.snapshot := hnot.2
    refine ⟨hreached, hdigest, fun _ => ?_, stream, hwritten, ?_, ?_⟩
    · rw [htold, hsnapshot]
      exact h.last hnot.1
    · rw [htold, htext]
    · rw [htold, hlines]

theorem after (acts : List Act)
    (hseparates : Digest.Separates hash (texts (outcomes hash (create true) acts))) :
    Streams hash acts ((create true).after hash acts) := by
  induction acts using List.reverseRecOn with
  | nil => exact start hash
  | append_singleton acts act ih =>
    have hbefore := ih (separates_of_append hseparates)
    rw [after_concat]
    cases act with
    | dump v => exact hbefore.dump v hseparates
    | reset => exact hbefore.reset

end Streams

/-- A new exporter that streams is told to export trees and to reset, and the hash function does not collide
on the texts of its snapshots. Then an export tells of a change just if it is the first one since the last reset
or one of its records changed the snapshot. The stream is one line for each export that told of a
change, in order, and the last line after an export is the snapshot as it is then. -/
theorem streams_changes (hash : Digest.Hash) (acts : List Act)
    (hseparates : Digest.Separates hash (texts (outcomes hash (create true) acts))) :
    let e := (create true).after hash acts
    let lines := told (outcomes hash (create true) acts)
    (∀ before v rest, acts = before ++ .dump v :: rest →
      let e := (create true).after hash before
      (e.dump hash v).2 = true ↔
        sinceReset before = [] ∨ (e.snapshot.upsertAll false (records v.tree v.pool v.uses)).2 = true) ∧
      (∃ stream, e.stream = some stream ∧
        stream.text.toList.splitOn '\n' = lines.map String.toList ++ [[]] ∧ stream.lines = lines.length) ∧
      ∀ before v, acts = before ++ [.dump v] → lines.getLast? = some e.snapshot.compact := by
  intro e lines
  have hafter := Streams.after acts hseparates
  refine ⟨?_, ?_, ?_⟩
  · rintro before v rest rfl
    rw [List.append_cons] at hseparates
    have hdump := separates_of_append hseparates
    exact (Streams.after before (separates_of_append hdump)).dump_snd_iff v hdump
  · obtain ⟨stream, hstream, htext, hlines⟩ := hafter.stream
    refine ⟨stream, hstream, ?_, hlines⟩
    rw [htext, Text.splitOn_lines fun line hline => oneLine_of_mem_told hline]
  · rintro before v rfl
    apply hafter.last
    rw [sinceReset_dump]
    exact List.concat_ne_nil v _

/-- A leaf is exported twice and then a fork of it, and after a reset the leaf again, while their paths are
being written. All but the second export tell of a change. -/
theorem streams_changes_after_reset :
    let hash := Digest.Blake3.digest
    let start := Tree.start ⟨0⟩ true false ⟨#[some (.fresh ⟨1⟩), some (.fresh ⟨2⟩)]⟩
    let fork := start.1.attach start.2 .none ⟨0, 0⟩ ⟨1⟩ ⟨0⟩ .conditional
    let leaf : View := ⟨start.1, start.2, fun _ => .writing⟩
    let forked : View := ⟨fork.tree, fork.pool, fun _ => .writing⟩
    let before : List Act := [.dump leaf, .dump leaf, .dump forked, .reset]
    let acts := before ++ [.dump leaf]
    let e := (create true).after hash acts
    let lines := told (outcomes hash (create true) acts)
    Digest.Separates hash (texts (outcomes hash (create true) acts)) ∧
      (((create true).after hash (before.take 1)).dump hash leaf).2 = false ∧
      (((create true).after hash (before.take 2)).dump hash forked).2 = true ∧
      (((create true).after hash before).dump hash leaf).2 = true ∧
      (∃ stream, e.stream = some stream ∧
        stream.text.toList.splitOn '\n' = lines.map String.toList ++ [[]] ∧ stream.lines = lines.length) ∧
      lines.getLast? = some e.snapshot.compact := by
  intro hash start fork leaf forked before acts e lines
  have hseparates : Digest.Separates hash (texts (outcomes hash (create true) acts)) :=
    Digest.separates_of_nodup (by decide +kernel)
  obtain ⟨hchanges, hstream, hlast⟩ := streams_changes hash acts hseparates
  have hsecond := hchanges (before.take 1) leaf [.dump forked, .reset, .dump leaf] rfl
  have hthird := hchanges (before.take 2) forked [.reset, .dump leaf] rfl
  have hagain := hchanges before leaf [] rfl
  refine ⟨hseparates, ?_, hthird.2 (.inr (by decide +kernel)), hagain.2 (.inl rfl), hstream,
    hlast before leaf rfl⟩
  refine Bool.eq_false_iff.2 fun hchanged => ?_
  rcases hsecond.1 hchanged with hfirst | hupsert
  · cases hfirst
  · exact absurd hupsert (by decide +kernel)

end Exporter

end ForkTree
