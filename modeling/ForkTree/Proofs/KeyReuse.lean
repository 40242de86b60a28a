import ForkTree.Proofs.KeyLife
import Mathlib.Data.Nat.ModEq

/-!
Which keys an arena issues. A run is a list of insertions and removals from the empty arena. Each insertion
has a birth, the slot it fills and how often that slot was used again up to then, and no two insertions of
a run share their birth. The key is the birth in 32 bits each. So two insertions give the same key exactly
if their births agree modulo 2 ^ 32, and a removed key stays dead until its slot was used again 2 ^ 32
times (`issued_keys`). A run that long issues a key again, and the stale key finds the new value
(`stale_key_resolves`).
-/

namespace ForkTree.Arena

variable {α : Type}

/-- A call that may change which keys are live. -/
inductive Call (α : Type) where
  | insert (v : α)
  | remove (key : NodeKey)
  deriving DecidableEq, Repr

def Call.run (a : Arena α) : Call α → Arena α
  | .insert v => (a.insert v).2
  | .remove key => (a.remove key).2

/-- The arena after the first `n` calls of a run. -/
def after (calls : List (Call α)) (n : Nat) : Arena α := (calls.take n).foldl Call.run empty

/-- The slot that is filled next. -/
def place (a : Arena α) : Nat :=
  match a.free with
  | i :: _ => i.toNat
  | [] => a.slots.size

/-- The slot an insertion fills and how often that slot was used again up to then. -/
structure Birth where
  place : Nat
  use : Nat
  deriving DecidableEq, Repr

/-- The birth in the width of a key. -/
def Birth.key (b : Birth) : NodeKey := ⟨UInt32.ofNat b.place, UInt32.ofNat b.use⟩

/-- The birth at call `n`, when that is an insertion. -/
def birth (calls : List (Call α)) (n : Nat) : Birth :=
  ⟨(after calls n).place, reuses (after calls) (after calls n).place (n + 1)⟩

lemma ofNat_eq_iff {m n : Nat} : UInt32.ofNat m = UInt32.ofNat n ↔ Nat.ModEq UInt32.size m n := by
  rw [← UInt32.toNat_inj, UInt32.toNat_ofNat', UInt32.toNat_ofNat']
  rfl

lemma insert_slot (a : Arena α) (v : α) : (a.insert v).1.slot = UInt32.ofNat a.place := by
  cases hfree : a.free <;> simp [insert, place, hfree]

/-- The slot filled next is empty or not there yet. -/
lemma IsValid.life?_place {a : Arena α} (h : a.IsValid) {generation : UInt32} :
    a.life? a.place ≠ some (generation, true) := by
  cases hfree : a.free with
  | nil => simp [place, hfree, life?]
  | cons i free =>
    obtain ⟨s, hslot, hvalue⟩ := (h.mem_free i).1 (by simp [hfree])
    simp [place, hfree, life?, hslot, hvalue]

lemma IsValid.life?_insert_place {a : Arena α} (h : a.IsValid) (v : α) :
    (a.insert v).2.life? a.place = some ((a.insert v).1.generation, true) := by
  cases hfree : a.free with
  | nil => simp [place, Arena.insert, hfree, life?]
  | cons i free =>
    obtain ⟨s, hslot, _⟩ := (h.mem_free i).1 (by simp [hfree])
    have hbound : i.toNat < a.slots.size := (Array.getElem?_eq_some_iff.1 hslot).1
    simp [place, Arena.insert, hfree, life?, hbound]

lemma life?_remove {a : Arena α} {key : NodeKey} (h : a.contains key = true) :
    (a.remove key).2.life? key.slot.toNat = some (key.generation + 1, false) := by
  obtain ⟨v, hv⟩ := Option.isSome_iff_exists.1 h
  rw [life?_of_set (s := ⟨key.generation + 1, none⟩) (get?_eq_some_iff.1 hv) (by rw [remove, hv]),
    if_pos rfl]
  rfl

lemma IsValid.run {a : Arena α} (h : a.IsValid) (call : Call α) : (call.run a).IsValid := by
  cases call with
  | insert v => exact h.insert v
  | remove key => exact h.remove key

lemma IsValid.run_turns {a : Arena α} (h : a.IsValid) (call : Call α) : Turns a (call.run a) := by
  cases call with
  | insert v => exact .inl (fills_insert h v)
  | remove key => exact .inr (empties_remove a key)

section

variable {calls : List (Call α)} {m n : Nat} {v w : α} {key : NodeKey}

lemma after_succ {call : Call α} (h : calls[n]? = some call) :
    after calls (n + 1) = call.run (after calls n) := by
  rw [after, List.take_add_one, h, Option.toList_some, List.foldl_append]
  rfl

lemma after_succ_of_none (h : calls[n]? = none) : after calls (n + 1) = after calls n := by
  rw [after, List.take_add_one, h, Option.toList_none, List.append_nil]
  rfl

lemma isValid_after (calls : List (Call α)) (n : Nat) : (after calls n).IsValid := by
  induction n with
  | zero => exact isValid_empty
  | succ n ih =>
    cases h : calls[n]? with
    | none =>
      rw [after_succ_of_none h]
      exact ih
    | some call =>
      rw [after_succ h]
      exact ih.run call

lemma after_turns (calls : List (Call α)) (n : Nat) : Turns (after calls n) (after calls (n + 1)) := by
  cases h : calls[n]? with
  | none =>
    rw [after_succ_of_none h]
    exact .inr (empties_refl _)
  | some call =>
    rw [after_succ h]
    exact (isValid_after calls n).run_turns call

/-- The generation of a full slot counts how often the slot was used again. -/
lemma generation_eq {i : Nat} {generation : UInt32}
    (h : (after calls n).life? i = some (generation, true)) :
    generation = UInt32.ofNat (reuses (after calls) i n) := by
  have hbirths := births_eq (after_turns calls) i n
  have hnone : (after calls 0).births i = 0 := by simp [after, births, life?, empty]
  rw [hnone, UInt32.zero_add] at hbirths
  simpa only [births, h] using hbirths

lemma insert_key (h : calls[n]? = some (.insert v)) :
    ((after calls n).insert v).1 = (birth calls n).key := by
  have hfull := (isValid_after calls n).life?_insert_place v
  rw [show ((after calls n).insert v).2 = after calls (n + 1) from (after_succ h).symm] at hfull
  have hslot := insert_slot (after calls n) v
  have hgeneration := generation_eq hfull
  generalize ((after calls n).insert v).1 = key at hslot hgeneration
  obtain ⟨slot, generation⟩ := key
  rw [Birth.key, birth]
  exact NodeKey.mk.injEq .. ▸ ⟨hslot, hgeneration⟩

/-- A later insertion into the same slot uses the slot once more. -/
lemma birth_ne (hmn : m < n) (hm : calls[m]? = some (.insert v)) (hn : calls[n]? = some (.insert w)) :
    birth calls m ≠ birth calls n := by
  intro hsame
  simp only [birth, Birth.mk.injEq] at hsame
  obtain ⟨hplace, huse⟩ := hsame
  rw [hplace] at huse
  have hborn := (isValid_after calls m).life?_insert_place v
  rw [show ((after calls m).insert v).2 = after calls (m + 1) from (after_succ hm).symm, hplace] at hborn
  have hfull := (isValid_after calls n).life?_insert_place w
  rw [show ((after calls n).insert w).2 = after calls (n + 1) from (after_succ hn).symm] at hfull
  obtain ⟨⟨generation, full⟩, hlife⟩ := Option.isSome_iff_exists.1
    (isSome_life?_of_le (after_turns calls) hmn (by rw [hborn]; rfl))
  have hempty : full = false := by
    cases full with
    | false => rfl
    | true => exact absurd hlife (isValid_after calls n).life?_place
  have hrefills : refills (after calls n) (after calls (n + 1)) (after calls n).place = true := by
    rw [refills, hlife, hfull, hempty]
    rfl
  have hcount := reuses_succ (after calls) (after calls n).place n
  rw [hrefills, if_pos rfl] at hcount
  have hmono := reuses_mono (after calls) (after calls n).place (m := m + 1) hmn
  omega

/-- A removed key is dead until its slot was used again as often as there are generations. -/
lemma get?_eq_none_of_removed (hnm : n < m) (h : calls[n]? = some (.remove key))
    (hlive : (after calls n).contains key = true)
    (hfew : reuses (after calls) key.slot.toNat m <
      reuses (after calls) key.slot.toNat n + UInt32.size) :
    (after calls m).get? key = none := by
  refine Option.eq_none_iff_forall_ne_some.2 fun v hv => ?_
  have hagain := contains_iff.1 (Option.isSome_iff_exists.2 ⟨v, hv⟩)
  have hborn := contains_iff.1 hlive
  have hmono := reuses_mono (after calls) key.slot.toNat (Nat.le_succ n)
  have hmono' := reuses_mono (after calls) key.slot.toNat hnm
  -- Both counts give the key's generation, so they agree.
  have hsame : reuses (after calls) key.slot.toNat m = reuses (after calls) key.slot.toNat n := by
    have hgeneration := (generation_eq hborn).symm.trans (generation_eq hagain)
    rw [ofNat_eq_iff] at hgeneration
    have hle := Nat.le_trans hmono hmono'
    have hdvd := (Nat.modEq_iff_dvd' hle).1 hgeneration
    have hzero := Nat.eq_zero_of_dvd_of_lt hdvd (by omega)
    omega
  -- The slot is empty right after the removal, and stays so until it is used again.
  have hempty : (after calls (n + 1)).life? key.slot.toNat = some (key.generation + 1, false) := by
    rw [after_succ h]
    exact life?_remove hlive
  rw [life?_eq_of_reuses_eq (after_turns calls) hnm hempty (by omega)] at hagain
  simp at hagain

/-- Insertions of one run have different births and give their births in 32 bits each as keys. A removed
key is dead until its slot was used again as often as there are generations. -/
theorem issued_keys (calls : List (Call α)) :
    (∀ m n v w, m < n → calls[m]? = some (.insert v) → calls[n]? = some (.insert w) →
      birth calls m ≠ birth calls n ∧
      (((after calls m).insert v).1 = ((after calls n).insert w).1 ↔
        Nat.ModEq UInt32.size (birth calls m).place (birth calls n).place ∧
        Nat.ModEq UInt32.size (birth calls m).use (birth calls n).use)) ∧
    ∀ m n key, m < n → calls[m]? = some (.remove key) → (after calls m).contains key = true →
      reuses (after calls) key.slot.toNat n < reuses (after calls) key.slot.toNat m + UInt32.size →
      (after calls n).get? key = none := by
  refine ⟨fun m n v w hmn hm hn => ⟨birth_ne hmn hm hn, ?_⟩,
    fun m n key hmn hm hlive hfew => get?_eq_none_of_removed hmn hm hlive hfew⟩
  rw [insert_key hm, insert_key hn, Birth.key, Birth.key, NodeKey.mk.injEq, ofNat_eq_iff, ofNat_eq_iff]

/-- The slot of a removed value is used again at once, under a new key. -/
theorem issued_keys_used_again :
    ((after [.insert 'a', .remove ⟨0, 0⟩, .insert 'b'] 0).insert 'a').1 ≠
        ((after [.insert 'a', .remove ⟨0, 0⟩, .insert 'b'] 2).insert 'b').1 ∧
      (after [.insert 'a', .remove ⟨0, 0⟩, .insert 'b'] 3).get? ⟨0, 0⟩ = none := by
  obtain ⟨hkeys, hdead⟩ := issued_keys [.insert 'a', .remove ⟨0, 0⟩, .insert 'b']
  refine ⟨fun hsame => ?_, hdead 1 3 ⟨0, 0⟩ (by decide) rfl (by decide) (by decide)⟩
  have huse := ((hkeys 0 2 'a' 'b' (by decide) rfl rfl).2.1 hsame).2
  exact absurd huse (by decide)

end

/-! ### A run that is too long -/

/-- Insert a value and remove it, so many times. -/
def rounds (v : α) (n : Nat) : List (Call α) :=
  (List.range n).flatMap fun i => [.insert v, .remove ⟨0, UInt32.ofNat i⟩]

lemma rounds_succ (v : α) (n : Nat) :
    rounds v (n + 1) = rounds v n ++ [.insert v, .remove ⟨0, UInt32.ofNat n⟩] := by
  simp [rounds, List.range_succ]

lemma rounds_succ_eq_cons (v : α) (n : Nat) :
    ∃ rest, rounds v (n + 1) = .insert v :: .remove ⟨0, 0⟩ :: rest := by
  rw [rounds, List.range_succ_eq_map]
  exact ⟨_, rfl⟩

lemma length_rounds (v : α) (n : Nat) : (rounds v n).length = 2 * n := by
  induction n with
  | zero => rfl
  | succ n ih =>
    rw [rounds_succ, List.length_append, ih]
    rfl

/-- Each round leaves the only slot empty and one generation on. -/
lemma foldl_rounds (v : α) (n : Nat) :
    (rounds v (n + 1)).foldl Call.run empty = ⟨#[⟨UInt32.ofNat (n + 1), none⟩], [0], 0⟩ := by
  induction n with
  | zero => rfl
  | succ n ih =>
    rw [rounds_succ, List.foldl_append, ih]
    simp [Call.run, insert, remove, get?, slot?, Option.filter, UInt32.ofNat_add]

/-- After a round for each generation the first key is issued again, and finds the new value. -/
theorem stale_key_resolves :
    let calls := rounds "a" UInt32.size ++ [.insert "b"]
    calls[0]? = some (.insert "a") ∧ ((after calls 0).insert "a").1 = ⟨0, 0⟩ ∧
      calls[1]? = some (.remove ⟨0, 0⟩) ∧ (after calls 1).contains ⟨0, 0⟩ = true ∧
      calls[2 * UInt32.size]? = some (.insert "b") ∧
      ((after calls (2 * UInt32.size)).insert "b").1 = ⟨0, 0⟩ ∧
      (after calls (2 * UInt32.size + 1)).get? ⟨0, 0⟩ = some "b" := by
  intro calls
  obtain ⟨n, hn⟩ : ∃ n, UInt32.size = n + 1 := ⟨UInt32.size - 1, rfl⟩
  obtain ⟨rest, hrest⟩ := rounds_succ_eq_cons "a" n
  have hcalls : calls = rounds "a" (n + 1) ++ [.insert "b"] := by rw [← hn]
  have hlength := length_rounds "a" (n + 1)
  have hlast : calls[2 * (n + 1)]? = some (.insert "b") := by
    rw [hcalls, ← hlength, List.getElem?_concat_length]
  have hafter : after calls (2 * (n + 1)) = ⟨#[⟨0, none⟩], [0], 0⟩ := by
    rw [after, hcalls, ← hlength, List.take_left, foldl_rounds, ← hn]
    rfl
  have hfirst : calls = .insert "a" :: .remove ⟨0, 0⟩ :: (rest ++ [.insert "b"]) := by
    rw [hcalls, hrest]
    rfl
  rw [hn]
  refine ⟨by rw [hfirst]; rfl, rfl, by rw [hfirst]; rfl, ?_, hlast, ?_, ?_⟩
  · rw [hfirst]
    rfl
  · rw [hafter]
    rfl
  · rw [after_succ hlast, hafter]
    rfl

end ForkTree.Arena
