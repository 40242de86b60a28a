import ForkTree.Snapshot.Basic
import Mathlib.Data.List.Nodup
import Mathlib.Tactic.Lemma

/-!
The snapshot as a map from names to records. `get?_insert` says what inserting a record does to every
name, and `get?_insertAll` the same for a list of records of different names, which is what an export
inserts. The children of a name are then all that were inserted under it, each where it came up first
(`addChildren_map`). The names of nodes tell their keys apart (`NodeKey.shown_injective`), so records of
different nodes never meet.
-/

namespace ForkTree

lemma Text.decimal_injective : Function.Injective Text.decimal := by
  intro m n h
  have hvalue := congrArg (fun s => Nat.ofDigitChars 10 (String.toList s) 0) h
  simpa [Text.decimal] using hvalue

/-- The letter that stands before the generation is no digit of the slot. -/
theorem NodeKey.shown_injective : Function.Injective NodeKey.shown := by
  rintro ⟨slot, generation⟩ ⟨slot', generation'⟩ h
  have hdigit : ∀ n, 'g' ∉ Nat.toDigits 10 n := by
    intro n hmem
    have := Nat.isDigit_of_mem_toDigits (by decide) (by decide) hmem
    exact absurd this (by decide)
  have hchars := congrArg String.toList h
  simp only [shown, Text.decimal, String.toList_append, String.toList_ofList] at hchars
  have hsplit : Nat.toDigits 10 slot.toNat ++ 'g' :: Nat.toDigits 10 generation.toNat =
      Nat.toDigits 10 slot'.toNat ++ 'g' :: Nat.toDigits 10 generation'.toNat := by
    simpa using hchars
  obtain ⟨hslot, _, hgeneration⟩ :=
    (List.append_cons_inj_of_notMem (hdigit _) (hdigit _)).1 hsplit
  rw [UInt32.toNat_inj.1 (Text.decimal_injective (congrArg String.ofList hslot)),
    UInt32.toNat_inj.1 (Text.decimal_injective (congrArg String.ofList hgeneration))]

namespace Snapshot

section

variable {α : Type} [DecidableEq α]

lemma eraseDups_of_nodup {xs : List α} (h : xs.Nodup) : xs.eraseDups = xs := by
  induction xs with
  | nil => rfl
  | cons x xs ih =>
    obtain ⟨hx, hxs⟩ := List.nodup_cons.1 h
    have hkeep : xs.filter (fun y => !y == x) = xs :=
      List.filter_eq_self.2 fun y hy => by simpa using ne_of_mem_of_not_mem hy hx
    rw [List.eraseDups_cons, hkeep, ih hxs]

lemma eraseDups_concat (xs : List α) (x : α) :
    (xs ++ [x]).eraseDups = if x ∈ xs then xs.eraseDups else xs.eraseDups ++ [x] := by
  rw [List.eraseDups_append]
  by_cases hx : x ∈ xs <;> simp [hx, List.removeAll, List.eraseDups_cons]

/-- Adding children keeps each at the place where it came up first. -/
lemma addChildren_map {name : α → String} (hname : Function.Injective name) (known more : List α) :
    addChildren (known.eraseDups.map name) (more.map name) =
      (known ++ more).eraseDups.map name := by
  induction more generalizing known with
  | nil => rw [List.append_nil]; rfl
  | cons child more ih =>
    have hmem : name child ∈ known.eraseDups.map name ↔ child ∈ known := by
      rw [List.mem_map_of_injective hname, List.mem_eraseDups]
    have hstep : (if name child ∈ known.eraseDups.map name then known.eraseDups.map name
        else known.eraseDups.map name ++ [name child]) = (known ++ [child]).eraseDups.map name := by
      rw [eraseDups_concat]
      by_cases hchild : child ∈ known <;> simp [hmem, hchild]
    rw [List.append_cons, ← ih, addChildren, addChildren, List.map_cons, List.foldl_cons, hstep]

end

/-- What is kept of a record that is inserted where another one may be held. -/
def Record.onto (r : Record) (held : Option Record) : Record := held.elim r (·.absorb r)

lemma name_of_get? {s : Snapshot} {name : String} {r : Record} (h : s.get? name = some r) :
    r.name = name := by
  simpa using List.find?_some h

lemma isSome_get? {s : Snapshot} {name : String} : (s.get? name).isSome = true ↔ name ∈ s.names := by
  simp [get?, names]

lemma get?_cons (r : Record) (rest : List Record) (name : String) :
    get? ⟨r :: rest⟩ name = if r.name = name then some r else get? ⟨rest⟩ name := by
  by_cases h : r.name = name <;> simp [get?, h]

lemma get?_of_mem {records : List Record} (h : (records.map Record.name).Nodup) {r : Record}
    (hr : r ∈ records) : get? ⟨records⟩ r.name = some r := by
  induction records with
  | nil => cases hr
  | cons q rest ih =>
    obtain ⟨hq, hrest⟩ := List.nodup_cons.1 h
    rw [get?_cons]
    rcases List.mem_cons.1 hr with rfl | hr
    · exact if_pos rfl
    · have hne : q.name ≠ r.name := fun e => hq (e ▸ List.mem_map_of_mem hr)
      rw [if_neg hne, ih hrest hr]

lemma get?_insert (s : Snapshot) (r : Record) (name : String) :
    (s.insert r).get? name = if r.name = name then some (r.onto (s.get? name)) else s.get? name := by
  obtain ⟨records⟩ := s
  induction records with
  | nil => exact get?_cons r [] name
  | cons held rest ih =>
    rw [insert] at ih ⊢
    rw [insertRecord]
    by_cases hheld : held.name = r.name
    · have hname : (held.absorb r).name = r.name := hheld
      rw [if_pos hheld, get?_cons, get?_cons, hname, hheld]
      split <;> rfl
    · rw [if_neg hheld, get?_cons, get?_cons, ih]
      by_cases hname : held.name = name
      · rw [if_pos hname, if_pos hname, if_neg fun e => hheld (hname.trans e.symm)]
      · rw [if_neg hname, if_neg hname]

lemma mem_names_insert {s : Snapshot} {r : Record} {name : String} :
    name ∈ (s.insert r).names ↔ name = r.name ∨ name ∈ s.names := by
  rw [← isSome_get?, get?_insert, ← isSome_get?]
  split
  · next e => exact iff_of_true rfl (.inl e.symm)
  · next hne => rw [or_iff_right (Ne.symm hne)]

lemma nodup_names_insert {s : Snapshot} (h : s.names.Nodup) (r : Record) : (s.insert r).names.Nodup := by
  obtain ⟨records⟩ := s
  induction records with
  | nil => exact List.nodup_singleton _
  | cons held rest ih =>
    obtain ⟨hheld, hrest⟩ := List.nodup_cons.1 h
    rw [insert, insertRecord]
    split
    · exact h
    · next hne =>
      refine List.nodup_cons.2 ⟨fun hmem => ?_, ih hrest⟩
      rcases mem_names_insert.1 hmem with e | hmem
      · exact hne e
      · exact hheld hmem

def insertAll (s : Snapshot) (records : List Record) : Snapshot := records.foldl insert s

lemma insertAll_cons (s : Snapshot) (r : Record) (rest : List Record) :
    s.insertAll (r :: rest) = (s.insert r).insertAll rest := rfl

lemma nodup_names_insertAll {s : Snapshot} (h : s.names.Nodup) (records : List Record) :
    (s.insertAll records).names.Nodup := by
  induction records generalizing s with
  | nil => exact h
  | cons r rest ih => exact ih (nodup_names_insert h r)

lemma get?_insertAll (s : Snapshot) {records : List Record} (h : (records.map Record.name).Nodup)
    (name : String) :
    (s.insertAll records).get? name =
      (get? ⟨records⟩ name).elim (s.get? name) fun r => some (r.onto (s.get? name)) := by
  induction records generalizing s with
  | nil => rfl
  | cons r rest ih =>
    obtain ⟨hr, hrest⟩ := List.nodup_cons.1 h
    rw [insertAll_cons, ih (s.insert r) hrest, get?_insert, get?_cons]
    by_cases hname : r.name = name
    · have hnone : get? ⟨rest⟩ name = none := by
        rw [← Option.not_isSome_iff_eq_none, isSome_get?, ← hname]
        exact hr
      rw [if_pos hname, if_pos hname, hnone]
      rfl
    · rw [if_neg hname, if_neg hname]

lemma mem_names_insertAll {s : Snapshot} {records : List Record} {name : String} :
    name ∈ (s.insertAll records).names ↔ name ∈ s.names ∨ ∃ r ∈ records, r.name = name := by
  induction records generalizing s with
  | nil => simp [insertAll]
  | cons r rest ih =>
    rw [insertAll_cons, ih, mem_names_insert, List.exists_mem_cons_iff, or_assoc, or_left_comm, eq_comm]

end Snapshot

end ForkTree
