import ForkTree.Arena
import Mathlib.Tactic.Lemma

/-!
The arena as a finite map. `get?_insert`, `get?_remove` and `get?_modify` say what each operation does
to the live keys. An arena is valid when its free list names exactly its empty slots; a new key is then
none of the live ones, as long as there are no more slots than slot numbers.
-/

namespace ForkTree.Arena

variable {α : Type}

/-- The free list names exactly the empty slots, each once. -/
structure IsValid (a : Arena α) : Prop where
  free_nodup : a.free.Nodup
  mem_free : ∀ i : UInt32, i ∈ a.free ↔ ∃ s, a.slots[i.toNat]? = some s ∧ s.value = none

lemma isValid_empty : (empty : Arena α).IsValid where
  free_nodup := .nil
  mem_free := by
    intro i
    simp [empty]

lemma get?_eq_some_iff {a : Arena α} {key : NodeKey} {v : α} :
    a.get? key = some v ↔ a.slots[key.slot.toNat]? = some ⟨key.generation, some v⟩ := by
  unfold get? slot?
  cases h : a.slots[key.slot.toNat]? with
  | none => simp
  | some s =>
    obtain ⟨generation, value⟩ := s
    by_cases hg : generation = key.generation <;> simp [Option.filter, hg]

/-- What a slot holds decides what its keys look up. -/
lemma get?_congr {a b : Arena α} {key : NodeKey}
    (h : a.slots[key.slot.toNat]? = b.slots[key.slot.toNat]?) : a.get? key = b.get? key := by
  unfold get? slot?
  rw [h]

lemma get?_remove (a : Arena α) (key other : NodeKey) :
    (a.remove key).2.get? other = if other = key then none else a.get? other := by
  unfold remove
  cases h : a.get? key with
  | none =>
    by_cases hk : other = key
    · rw [if_pos hk, hk, h]
    · rw [if_neg hk]
  | some v =>
    have hslot := get?_eq_some_iff.1 h
    by_cases hs : key.slot.toNat = other.slot.toNat
    · have hnone : ∀ w, ¬ (a.remove key).2.get? other = some w := by
        intro w hw
        have := get?_eq_some_iff.1 hw
        have hbound := (Array.getElem?_eq_some_iff.1 hslot).1
        simp only [remove, h, hs, Array.getElem?_setIfInBounds, if_true] at this hbound
        simp [hbound] at this
      have hold : other ≠ key → a.get? other = none := by
        intro hne
        refine Option.eq_none_iff_forall_ne_some.2 fun w hw => hne ?_
        have := get?_eq_some_iff.1 hw
        rw [← hs, hslot] at this
        simp only [Option.some.injEq, Slot.mk.injEq] at this
        obtain ⟨slot, generation⟩ := key
        obtain ⟨slot', generation'⟩ := other
        simp only [NodeKey.mk.injEq]
        exact ⟨(UInt32.toNat_inj.1 hs).symm, this.1.symm⟩
      have hnew := Option.eq_none_iff_forall_ne_some.2 hnone
      simp only [remove, h] at hnew
      rw [hnew]
      by_cases hk : other = key
      · rw [if_pos hk]
      · rw [if_neg hk, hold hk]
    · have hk : other ≠ key := fun e => hs (by rw [e])
      rw [if_neg hk]
      apply get?_congr
      simp [hs]

lemma get?_modify (a : Arena α) (key other : NodeKey) (change : α → α) :
    (a.modify key change).get? other =
      if other = key then (a.get? key).map change else a.get? other := by
  unfold modify
  cases h : a.get? key with
  | none =>
    by_cases hk : other = key
    · rw [if_pos hk, hk, h, Option.map_none]
    · rw [if_neg hk]
  | some v =>
    have hslot := get?_eq_some_iff.1 h
    have hbound : key.slot.toNat < a.slots.size := (Array.getElem?_eq_some_iff.1 hslot).1
    by_cases hk : other = key
    · rw [if_pos hk, hk, Option.map_some]
      exact get?_eq_some_iff.2 (by simp [hbound])
    · rw [if_neg hk]
      by_cases hs : key.slot.toNat = other.slot.toNat
      · have hg : key.generation ≠ other.generation := by
          intro hg
          apply hk
          obtain ⟨slot, generation⟩ := key
          obtain ⟨slot', generation'⟩ := other
          simp only [NodeKey.mk.injEq]
          exact ⟨(UInt32.toNat_inj.1 hs).symm, hg.symm⟩
        unfold get? slot?
        rw [← hs, hslot]
        simp [hbound, Option.filter, hg]
      · apply get?_congr
        simp [hs]

/-- The slot of a new key is empty or not there yet. -/
lemma get?_insert_of_eq {a : Arena α} (h : a.IsValid) (v : α)
    (hsmall : (a.insert v).2.slots.size ≤ UInt32.size) (key : NodeKey)
    (hs : key.slot = (a.insert v).1.slot) : a.get? key = none := by
  refine Option.eq_none_iff_forall_ne_some.2 fun w hw => ?_
  have hslot := get?_eq_some_iff.1 hw
  have hbound : key.slot.toNat < a.slots.size := (Array.getElem?_eq_some_iff.1 hslot).1
  cases hfree : a.free with
  | nil =>
    simp only [insert, hfree, Array.size_push] at hsmall hs
    rw [hs, UInt32.toNat_ofNat_of_lt' (by omega)] at hbound
    exact Nat.lt_irrefl _ hbound
  | cons i free =>
    simp only [insert, hfree] at hs
    have hi : i ∈ a.free := by simp [hfree]
    obtain ⟨s, hget, hvalue⟩ := (h.mem_free i).1 hi
    rw [hs, hget] at hslot
    simp only [Option.some.injEq] at hslot
    rw [hslot] at hvalue
    cases hvalue

lemma get?_insert {a : Arena α} (h : a.IsValid) (v : α)
    (hsmall : (a.insert v).2.slots.size ≤ UInt32.size) (key : NodeKey) :
    (a.insert v).2.get? key = if key = (a.insert v).1 then some v else a.get? key := by
  by_cases hs : key.slot = (a.insert v).1.slot
  · have hold := get?_insert_of_eq h v hsmall key hs
    have hnew : (a.insert v).2.slots[key.slot.toNat]? =
        some ⟨(a.insert v).1.generation, some v⟩ := by
      cases hfree : a.free with
      | nil =>
        simp only [insert, hfree, Array.size_push] at hsmall hs ⊢
        rw [hs, UInt32.toNat_ofNat_of_lt' (by omega)]
        simp
      | cons i free =>
        have hi : i ∈ a.free := by simp [hfree]
        obtain ⟨s, hget, _⟩ := (h.mem_free i).1 hi
        have hbound : i.toNat < a.slots.size := (Array.getElem?_eq_some_iff.1 hget).1
        simp only [insert, hfree] at hs ⊢
        rw [hs]
        simp [hbound]
    by_cases hk : key = (a.insert v).1
    · rw [if_pos hk]
      exact get?_eq_some_iff.2 (by rw [hnew, ← hk])
    · rw [if_neg hk, hold]
      refine Option.eq_none_iff_forall_ne_some.2 fun w hw => hk ?_
      have := get?_eq_some_iff.1 hw
      rw [hnew] at this
      simp only [Option.some.injEq, Slot.mk.injEq] at this
      obtain ⟨slot, generation⟩ := key
      exact NodeKey.mk.injEq .. ▸ ⟨hs, this.1.symm⟩
  · have hk : key ≠ (a.insert v).1 := fun e => hs (by rw [e])
    rw [if_neg hk]
    apply get?_congr
    cases hfree : a.free with
    | nil =>
      simp only [insert, hfree, Array.size_push] at hsmall hs ⊢
      have hne : key.slot.toNat ≠ a.slots.size := by
        intro e
        apply hs
        apply UInt32.toNat_inj.1
        rw [UInt32.toNat_ofNat_of_lt' (by omega), e]
      rw [Array.getElem?_push, if_neg hne]
    | cons i free =>
      simp only [insert, hfree] at hs ⊢
      have hne : i.toNat ≠ key.slot.toNat := fun e => hs (UInt32.toNat_inj.1 e).symm
      simp [hne]

/-- A new key was not live. -/
lemma get?_insert_key {a : Arena α} (h : a.IsValid) (v : α)
    (hsmall : (a.insert v).2.slots.size ≤ UInt32.size) : a.get? (a.insert v).1 = none :=
  get?_insert_of_eq h v hsmall _ rfl

/-! ### Validity -/

lemma IsValid.insert {a : Arena α} (h : a.IsValid) (v : α) : (a.insert v).2.IsValid := by
  cases hfree : a.free with
  | nil =>
    have hsome : ∀ (i : UInt32) s, a.slots[i.toNat]? = some s → s.value ≠ none := by
      intro i s hs hvalue
      have := (h.mem_free i).2 ⟨s, hs, hvalue⟩
      simp [hfree] at this
    simp only [Arena.insert, hfree]
    refine ⟨.nil, fun i => ⟨fun hi => (List.not_mem_nil hi).elim, ?_⟩⟩
    rintro ⟨s, hs, hvalue⟩
    rw [Array.getElem?_push] at hs
    by_cases hi : i.toNat = a.slots.size
    · rw [if_pos hi] at hs
      cases hs
      cases hvalue
    · rw [if_neg hi] at hs
      exact absurd hvalue (hsome i s hs)
  | cons i free =>
    have hnodup := h.free_nodup
    rw [hfree, List.nodup_cons] at hnodup
    obtain ⟨s, hget, _⟩ := (h.mem_free i).1 (by simp [hfree])
    have hbound : i.toNat < a.slots.size := (Array.getElem?_eq_some_iff.1 hget).1
    simp only [Arena.insert, hfree]
    refine ⟨hnodup.2, fun j => ?_⟩
    have hj := h.mem_free j
    rw [hfree, List.mem_cons] at hj
    by_cases hij : j = i
    · subst hij
      refine ⟨fun hmem => absurd hmem hnodup.1, ?_⟩
      rintro ⟨s, hs, hvalue⟩
      simp only [Array.getElem?_setIfInBounds, if_true, hbound] at hs
      cases hs
      cases hvalue
    · have hne : ¬ i.toNat = j.toNat := fun e => hij (UInt32.toNat_inj.1 e).symm
      simp only [Array.getElem?_setIfInBounds, hne, if_false]
      rw [← hj, or_iff_right hij]

lemma IsValid.remove {a : Arena α} (h : a.IsValid) (key : NodeKey) : (a.remove key).2.IsValid := by
  unfold Arena.remove
  cases hget : a.get? key with
  | none => exact h
  | some v =>
    have hslot := get?_eq_some_iff.1 hget
    have hbound : key.slot.toNat < a.slots.size := (Array.getElem?_eq_some_iff.1 hslot).1
    have hnot : key.slot ∉ a.free := by
      intro hmem
      obtain ⟨s, hs, hvalue⟩ := (h.mem_free _).1 hmem
      rw [hslot] at hs
      cases hs
      cases hvalue
    refine ⟨List.nodup_cons.2 ⟨hnot, h.free_nodup⟩, fun i => ?_⟩
    simp only [List.mem_cons, Array.getElem?_setIfInBounds]
    by_cases hi : i = key.slot
    · simp [hi, hbound]
    · have hne : ¬ key.slot.toNat = i.toNat := fun e => hi (UInt32.toNat_inj.1 e).symm
      simp only [hi, false_or, hne, if_false]
      exact h.mem_free i

lemma IsValid.modify {a : Arena α} (h : a.IsValid) (key : NodeKey) (change : α → α) :
    (a.modify key change).IsValid := by
  unfold Arena.modify
  cases hget : a.get? key with
  | none => exact h
  | some v =>
    have hslot := get?_eq_some_iff.1 hget
    have hbound : key.slot.toNat < a.slots.size := (Array.getElem?_eq_some_iff.1 hslot).1
    refine ⟨h.free_nodup, fun i => ?_⟩
    simp only [Array.getElem?_setIfInBounds]
    rw [h.mem_free i]
    by_cases hi : key.slot.toNat = i.toNat
    · rw [← hi, hslot]
      simp [hbound]
    · simp [hi]

lemma size_insert (a : Arena α) (v : α) : (a.insert v).2.size = a.size + 1 := by
  unfold insert
  split <;> rfl

lemma size_remove {a : Arena α} {key : NodeKey} {v : α} (h : a.get? key = some v) :
    (a.remove key).2.size = a.size - 1 := by
  simp [remove, h]

@[simp]
lemma size_modify (a : Arena α) (key : NodeKey) (change : α → α) :
    (a.modify key change).size = a.size := by
  unfold modify
  split <;> rfl

lemma slots_size_insert (a : Arena α) (v : α) : a.slots.size ≤ (a.insert v).2.slots.size := by
  unfold insert
  split <;> simp

@[simp]
lemma slots_size_remove (a : Arena α) (key : NodeKey) :
    (a.remove key).2.slots.size = a.slots.size := by
  unfold remove
  split <;> simp

@[simp]
lemma slots_size_modify (a : Arena α) (key : NodeKey) (change : α → α) :
    (a.modify key change).slots.size = a.slots.size := by
  unfold modify
  split <;> simp

end ForkTree.Arena
