import ForkTree.Proofs.Session
import Mathlib.Data.Nat.Count

/-!
The life of a key. One call on the live tree only fills slots or only empties them (`onTree_turns`), and a
slot that is filled again has gone on to its next generation. So the generation counts how often a slot
was used again, modulo 2 ^ 32 (`births_eq`), and as long as that was less often than there are
generations, a key that is live at two points was live all the time in between, as the same node
(`contains_between`).
-/

namespace ForkTree

namespace Arena

variable {α : Type} {a b c : Arena α} {i : Nat}

/-- The generation of a slot, and whether it is full. -/
def life? (a : Arena α) (i : Nat) : Option (UInt32 × Bool) :=
  (a.slots[i]?).map fun s => (s.generation, s.value.isSome)

/-- Slots were filled and none was emptied. -/
def Fills (a b : Arena α) : Prop :=
  ∀ i, b.life? i = a.life? i ∨ a.life? i = none ∧ b.life? i = some (0, true) ∨
    ∃ generation, a.life? i = some (generation, false) ∧ b.life? i = some (generation, true)

/-- Slots were emptied and none was filled. -/
def Empties (a b : Arena α) : Prop :=
  ∀ i, b.life? i = a.life? i ∨
    ∃ generation, a.life? i = some (generation, true) ∧ b.life? i = some (generation + 1, false)

def Turns (a b : Arena α) : Prop := Fills a b ∨ Empties a b

/-- A slot that was emptied before is full again. -/
def refills (a b : Arena α) (i : Nat) : Bool :=
  (a.life? i).any (fun life => !life.2) && (b.life? i).any fun life => life.2

/-- How often a slot was used again when its last value was put there, modulo 2 ^ 32. -/
def births (a : Arena α) (i : Nat) : UInt32 :=
  match a.life? i with
  | none => 0
  | some (generation, true) => generation
  | some (generation, false) => generation - 1

lemma contains_iff {key : NodeKey} :
    a.contains key = true ↔ a.life? key.slot.toNat = some (key.generation, true) := by
  rw [contains, Option.isSome_iff_exists]
  constructor
  · rintro ⟨v, hv⟩
    rw [life?, get?_eq_some_iff.1 hv]
    rfl
  · intro h
    rw [life?, Option.map_eq_some_iff] at h
    obtain ⟨⟨generation, value⟩, hslot, hlife⟩ := h
    obtain ⟨rfl, hvalue⟩ := Prod.mk.inj hlife
    obtain ⟨v, rfl⟩ := Option.isSome_iff_exists.1 hvalue
    exact ⟨v, get?_eq_some_iff.2 hslot⟩

lemma Fills.trans (h : Fills a b) (h' : Fills b c) : Fills a c := by
  intro i
  rcases h i with hab | ⟨ha, hb⟩ | ⟨g, ha, hb⟩
  · rw [← hab]
    exact h' i
  · rcases h' i with hbc | ⟨hb', _⟩ | ⟨g', hb', _⟩
    · exact .inr (.inl ⟨ha, hbc.trans hb⟩)
    · rw [hb] at hb'
      cases hb'
    · rw [hb] at hb'
      cases hb'
  · rcases h' i with hbc | ⟨hb', _⟩ | ⟨g', hb', _⟩
    · exact .inr (.inr ⟨g, ha, hbc.trans hb⟩)
    · rw [hb] at hb'
      cases hb'
    · rw [hb] at hb'
      cases hb'

lemma Empties.trans (h : Empties a b) (h' : Empties b c) : Empties a c := by
  intro i
  rcases h i with hab | ⟨g, ha, hb⟩
  · rw [← hab]
    exact h' i
  · rcases h' i with hbc | ⟨g', hb', _⟩
    · exact .inr ⟨g, ha, hbc.trans hb⟩
    · rw [hb] at hb'
      cases hb'

lemma empties_refl (a : Arena α) : Empties a a := fun _ => .inl rfl

/-- Writing a slot changes what is said of it and nothing else. -/
lemma life?_of_set {j : Nat} {s : Slot α} {held : Slot α} (hslot : a.slots[j]? = some held)
    (h : b.slots = a.slots.setIfInBounds j s) (i : Nat) :
    b.life? i = if i = j then some (s.generation, s.value.isSome) else a.life? i := by
  have hbound : j < a.slots.size := (Array.getElem?_eq_some_iff.1 hslot).1
  rw [life?, h, Array.getElem?_setIfInBounds]
  by_cases hi : i = j
  · rw [if_pos hi, if_pos hi.symm, if_pos hbound]
    rfl
  · rw [if_neg hi, if_neg (Ne.symm hi), life?]

lemma life?_modify (a : Arena α) (key : NodeKey) (change : α → α) (i : Nat) :
    (a.modify key change).life? i = a.life? i := by
  cases h : a.get? key with
  | none => rw [modify, h]
  | some v =>
    have hslot := get?_eq_some_iff.1 h
    rw [life?_of_set hslot (by rw [modify, h])]
    split
    · next e => rw [e, life?, hslot]; rfl
    · rfl

lemma fills_modify (a : Arena α) (key : NodeKey) (change : α → α) : Fills a (a.modify key change) :=
  fun i => .inl (life?_modify a key change i)

lemma empties_modify (a : Arena α) (key : NodeKey) (change : α → α) : Empties a (a.modify key change) :=
  fun i => .inl (life?_modify a key change i)

lemma fills_insert (h : a.IsValid) (v : α) : Fills a (a.insert v).2 := by
  intro i
  cases hfree : a.free with
  | nil =>
    simp only [insert, hfree, life?, Array.getElem?_push]
    by_cases hi : i = a.slots.size
    · subst hi
      exact .inr (.inl ⟨by simp, by simp⟩)
    · exact .inl (by rw [if_neg hi])
  | cons slot free =>
    obtain ⟨⟨generation, value⟩, hslot, rfl⟩ := (h.mem_free slot).1 (by simp [hfree])
    have hset := life?_of_set (b := (a.insert v).2) (s := ⟨generation, some v⟩) hslot
      (by simp [insert, hfree, hslot]) i
    by_cases hi : i = slot.toNat
    · rw [if_pos hi] at hset
      exact .inr (.inr ⟨generation, by rw [hi, life?, hslot]; rfl, hset⟩)
    · rw [if_neg hi] at hset
      exact .inl hset

lemma empties_remove (a : Arena α) (key : NodeKey) : Empties a (a.remove key).2 := by
  intro i
  cases h : a.get? key with
  | none => exact .inl (by rw [remove, h])
  | some v =>
    have hslot := get?_eq_some_iff.1 h
    have hset := life?_of_set (b := (a.remove key).2) (s := ⟨key.generation + 1, none⟩) hslot
      (by rw [remove, h]) i
    by_cases hi : i = key.slot.toNat
    · rw [if_pos hi] at hset
      exact .inr ⟨key.generation, by rw [hi, life?, hslot]; rfl, hset⟩
    · rw [if_neg hi] at hset
      exact .inl hset

lemma Turns.births_eq (h : Turns a b) (i : Nat) :
    b.births i = a.births i + if refills a b i then 1 else 0 := by
  rcases h with h | h
  · rcases h i with e | ⟨ha, hb⟩ | ⟨g, ha, hb⟩
    · cases hl : a.life? i with
      | none => simp [births, refills, e, hl]
      | some life => obtain ⟨g, full⟩ := life; cases full <;> simp [births, refills, e, hl]
    · simp [births, refills, ha, hb]
    · simp [births, refills, ha, hb]
  · rcases h i with e | ⟨g, ha, hb⟩
    · cases hl : a.life? i with
      | none => simp [births, refills, e, hl]
      | some life => obtain ⟨g, full⟩ := life; cases full <;> simp [births, refills, e, hl]
    · simp [births, refills, ha, hb]

/-- No slot goes away. -/
lemma Turns.isSome_life? (h : Turns a b) (ha : (a.life? i).isSome = true) :
    (b.life? i).isSome = true := by
  rcases h with h | h
  · rcases h i with e | ⟨_, hb⟩ | ⟨g, _, hb⟩
    · rwa [e]
    · rw [hb]
      rfl
    · rw [hb]
      rfl
  · rcases h i with e | ⟨g, _, hb⟩
    · rwa [e]
    · rw [hb]
      rfl

/-- An empty slot stays as it is until it is used again. -/
lemma Turns.life?_eq_of_empty (h : Turns a b) {generation : UInt32}
    (ha : a.life? i = some (generation, false)) (hnot : refills a b i = false) :
    b.life? i = some (generation, false) := by
  rcases h with h | h
  · rcases h i with e | ⟨ha', _⟩ | ⟨g, ha', hb⟩
    · exact e.trans ha
    · rw [ha] at ha'
      cases ha'
    · rw [refills, ha, hb] at hnot
      cases hnot
  · rcases h i with e | ⟨g, ha', _⟩
    · exact e.trans ha
    · rw [ha] at ha'
      cases ha'

section

variable {arena : Nat → Arena α} {m n : Nat}

/-- How often a slot is used again in the first `n` steps. -/
def reuses (arena : Nat → Arena α) (i n : Nat) : Nat :=
  Nat.count (fun k => refills (arena k) (arena (k + 1)) i = true) n

lemma reuses_succ (arena : Nat → Arena α) (i n : Nat) :
    reuses arena i (n + 1) = reuses arena i n + if refills (arena n) (arena (n + 1)) i then 1 else 0 :=
  Nat.count_succ _ n

lemma reuses_mono (arena : Nat → Arena α) (i : Nat) (hmn : m ≤ n) : reuses arena i m ≤ reuses arena i n :=
  Nat.count_monotone _ hmn

lemma reuses_le (arena : Nat → Arena α) (i n : Nat) : reuses arena i n ≤ n := Nat.count_le _

lemma births_eq (h : ∀ k, Turns (arena k) (arena (k + 1))) (i n : Nat) :
    (arena n).births i = (arena 0).births i + UInt32.ofNat (reuses arena i n) := by
  induction n with
  | zero => simp [reuses]
  | succ n ih =>
    rw [(h n).births_eq, ih, reuses_succ, UInt32.ofNat_add, UInt32.add_assoc]
    split <;> rfl

lemma isSome_life?_of_le (h : ∀ k, Turns (arena k) (arena (k + 1))) (hmn : m ≤ n)
    (hm : ((arena m).life? i).isSome = true) : ((arena n).life? i).isSome = true := by
  induction n, hmn using Nat.le_induction with
  | base => exact hm
  | succ n _ ih => exact (h n).isSome_life? ih

lemma life?_eq_of_reuses_eq (h : ∀ k, Turns (arena k) (arena (k + 1))) (hmn : m ≤ n) {generation : UInt32}
    (hm : (arena m).life? i = some (generation, false))
    (hsame : reuses arena i n = reuses arena i m) : (arena n).life? i = some (generation, false) := by
  induction n, hmn using Nat.le_induction with
  | base => exact hm
  | succ n hmn ih =>
    have hfirst := reuses_mono arena i hmn
    have hsucc := reuses_succ arena i n
    cases hrefills : refills (arena n) (arena (n + 1)) i with
    | false =>
      rw [hrefills] at hsucc
      exact (h n).life?_eq_of_empty (ih (by simpa [hsucc] using hsame)) hrefills
    | true =>
      rw [hrefills, if_pos rfl] at hsucc
      omega

/-- While no slot is used again as often as there are generations, a key is live without a break. -/
theorem contains_between (h : ∀ k, Turns (arena k) (arena (k + 1))) {key : NodeKey} {first last : Nat}
    (hfirst : first ≤ m) (hlast : m ≤ last) (hn : last ≤ n)
    (hfew : reuses arena key.slot.toNat n < UInt32.size)
    (hborn : (arena first).contains key = true) (hlive : (arena last).contains key = true) :
    (arena m).contains key = true := by
  rw [contains_iff] at hborn hlive ⊢
  have hbefore := reuses_mono arena key.slot.toNat hfirst
  have hafter := reuses_mono arena key.slot.toNat hlast
  have hbound := reuses_mono arena key.slot.toNat hn
  -- The key's generation is the number of times its slot was used again, which is the same at both ends.
  have hsame : reuses arena key.slot.toNat first = reuses arena key.slot.toNat last := by
    have hbirths : (arena first).births key.slot.toNat = (arena last).births key.slot.toNat := by
      simp only [births, hborn, hlive]
    rw [births_eq h _ first, births_eq h _ last, UInt32.add_right_inj, ← UInt32.toNat_inj,
      UInt32.toNat_ofNat_of_lt' (by omega), UInt32.toNat_ofNat_of_lt' (by omega)] at hbirths
    exact hbirths
  obtain ⟨⟨generation, full⟩, hlife⟩ := Option.isSome_iff_exists.1
    (isSome_life?_of_le h hfirst (i := key.slot.toNat) (by rw [hborn]; rfl))
  cases full with
  | false =>
    rw [life?_eq_of_reuses_eq h hlast hlife (by omega)] at hlive
    cases hlive
  | true =>
    have hbirths : (arena first).births key.slot.toNat = (arena m).births key.slot.toNat := by
      rw [births_eq h _ first, births_eq h _ m, show reuses arena key.slot.toNat first =
        reuses arena key.slot.toNat m by omega]
    simp only [births, hborn, hlife] at hbirths
    rw [hlife, hbirths]

end

end Arena

/-! ### Calls -/

namespace Tree

open Arena

lemma empties_erase (t : Tree) (key : NodeKey) : Empties t.nodes (t.erase key).nodes :=
  empties_remove t.nodes key

lemma empties_prune (fuel : Nat) (t : Tree) (key : NodeKey) :
    Empties t.nodes (prune fuel t key).2.nodes := by
  induction fuel generalizing t key with
  | zero => exact empties_refl _
  | succ fuel ih =>
    have herase := empties_erase t key
    unfold prune
    simp only
    split
    · exact herase
    · next p _ =>
      split
      · exact herase
      · have hmodify := fun change => herase.trans (empties_modify _ p change)
        split
        · exact (hmodify _).trans (ih _ _)
        · exact hmodify _

lemma empties_splice (t : Tree) (key : NodeKey) : Empties t.nodes (t.splice key).2.nodes := by
  have herase := empties_erase t key
  unfold splice
  simp only
  split
  · exact empties_refl _
  · split
    · exact empties_refl _
    · split
      · exact herase
      · next child _ =>
        have hmodify := fun change => herase.trans (empties_modify _ child change)
        split
        · exact hmodify _
        · next p _ =>
          split
          · exact hmodify _
          · exact (hmodify _).trans (empties_modify _ p _)

lemma empties_takeOut (t : Tree) (key : NodeKey) : Empties t.nodes (t.takeOut key).2.nodes := by
  have hprune := empties_prune t.size t key
  unfold takeOut
  generalize prune t.size t key = pruned at *
  rcases pruned with ⟨_ | _ | survivor, u⟩
  · exact hprune
  · exact hprune
  · change Empties t.nodes u.nodes at hprune
    simp only
    split
    · exact hprune.trans (empties_splice u survivor)
    · exact hprune

/-- A call on a tree fills slots or empties slots, but not both. -/
theorem onTree_turns {t : Tree} (h : t.nodes.IsValid) (pool : Pool) (call : Session.Call) :
    Turns t.nodes (call.onTree .none t pool).tree.nodes := by
  cases call with
  | attach key left right reason =>
    rw [Session.Call.onTree]
    cases hrefused : t.attachRefusal? pool key right with
    | some fault =>
      rw [attach_refused hrefused]
      exact .inr (empties_refl _)
    | none =>
      rw [attach_eq hrefused]
      exact .inl (((fills_insert h _).trans (fills_insert (h.insert _) _)).trans (fills_modify _ key _))
  | remove key =>
    rw [Session.Call.onTree]
    cases hrefused : t.removeRefusal? key with
    | some fault =>
      rw [remove_refused hrefused]
      exact .inr (empties_refl _)
    | none =>
      obtain ⟨n, live, hleaf⟩ := removeRefusal?_eq_none hrefused
      rw [remove_eq live hleaf]
      exact .inr ((empties_modify _ key _).trans (empties_takeOut _ key))
  | setKind path kind =>
    rw [Session.Call.onTree, setKind]
    split
    · next key _ => exact .inr (empties_modify _ key _)
    · exact .inr (empties_refl _)
  | claimMask | commit | dump | engine => exact .inr (empties_refl _)

end Tree

end ForkTree
