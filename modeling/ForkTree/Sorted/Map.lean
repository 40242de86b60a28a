/-!
Maps as lists of entries sorted by their keys. The view of a map is `get?`: `get?_alter` says what a
change does to it, and `ext_get?` that it determines the map, because the order is part of the type.
-/

namespace ForkTree

/-- A map: its entries in ascending order of their keys. -/
structure SortedMap (α β : Type) [LT α] where
  entries : List (α × β)
  sorted : entries.Pairwise fun a b => a.1 < b.1
  deriving DecidableEq, Repr

namespace SortedMap

variable {α β : Type}

section Lists

variable [DecidableEq α]

/-- The value of a key in a list of entries. -/
def lookup (key : α) (l : List (α × β)) : Option β := (l.find? (·.1 = key)).map Prod.snd

theorem lookup_nil (key : α) : lookup key ([] : List (α × β)) = none := rfl

theorem lookup_cons (key : α) (entry : α × β) (rest : List (α × β)) :
    lookup key (entry :: rest) = if key = entry.1 then some entry.2 else lookup key rest := by
  by_cases h : entry.1 = key
  · simp [lookup, h]
  · have h' : ¬key = entry.1 := fun e => h e.symm
    simp [lookup, h, h']

theorem lookup_eq_none {key : α} {l : List (α × β)} (h : ∀ entry ∈ l, entry.1 ≠ key) :
    lookup key l = none := by
  induction l with
  | nil => rfl
  | cons entry rest ih =>
    have hne : ¬key = entry.1 := fun e => h entry List.mem_cons_self e.symm
    rw [lookup_cons, if_neg hne]
    exact ih fun other hother => h other (List.mem_cons_of_mem _ hother)

variable [LT α] [DecidableLT α]

/-- Change the value of a key in a list of ascending keys, or put it in its place. -/
def place (key : α) (value : Option β → β) : List (α × β) → List (α × β)
  | [] => [(key, value none)]
  | (other, held) :: rest =>
    if key < other then (key, value none) :: (other, held) :: rest
    else if key = other then (other, value (some held)) :: rest
    else (other, held) :: place key value rest

theorem mem_keys_place {key z : α} {value : Option β → β} {l : List (α × β)} :
    z ∈ (place key value l).map Prod.fst ↔ z = key ∨ z ∈ l.map Prod.fst := by
  induction l with
  | nil => simp [place]
  | cons entry rest ih =>
    obtain ⟨other, held⟩ := entry
    unfold place
    split
    · simp
    · split
      · next h => simp [h]
      · rw [List.map_cons, List.mem_cons, ih, List.map_cons, List.mem_cons, or_left_comm]

variable [LE α] [Std.IsLinearOrder α] [Std.LawfulOrderLT α]

theorem pairwise_place (key : α) (value : Option β → β) {l : List (α × β)}
    (h : l.Pairwise fun a b => a.1 < b.1) :
    (place key value l).Pairwise fun a b => a.1 < b.1 := by
  induction l with
  | nil => simp [place]
  | cons entry rest ih =>
    obtain ⟨other, held⟩ := entry
    have hother := List.pairwise_cons.1 h
    unfold place
    split
    · next hlt =>
      refine List.pairwise_cons.2 ⟨fun z hz => ?_, h⟩
      rcases List.mem_cons.1 hz with rfl | hz
      · exact hlt
      · exact Std.lt_trans hlt (hother.1 z hz)
    · next hlt =>
      split
      · exact List.pairwise_cons.2 ⟨hother.1, hother.2⟩
      · next hne =>
        refine List.pairwise_cons.2 ⟨fun z hz => ?_, ih hother.2⟩
        rcases mem_keys_place.1 (List.mem_map_of_mem (f := Prod.fst) hz) with hz | hz
        · rw [hz]
          exact Std.lt_of_le_of_ne (Std.not_lt.1 hlt) fun e => hne e.symm
        · obtain ⟨entry, hentry, hkey⟩ := List.mem_map.1 hz
          rw [← hkey]
          exact hother.1 entry hentry

omit [DecidableLT α] [Std.IsLinearOrder α] in
/-- A key below all others has no value among them. -/
theorem lookup_of_lt {key : α} {l : List (α × β)} (h : ∀ entry ∈ l, key < entry.1) :
    lookup key l = none :=
  lookup_eq_none fun entry hentry e => Std.lt_irrefl (e ▸ h entry hentry)

theorem lookup_place {key z : α} {value : Option β → β} {l : List (α × β)}
    (h : l.Pairwise fun a b => a.1 < b.1) :
    lookup z (place key value l) = if z = key then some (value (lookup key l)) else lookup z l := by
  induction l with
  | nil => rw [place, lookup_cons, lookup_nil, lookup_nil]
  | cons entry rest ih =>
    obtain ⟨other, held⟩ := entry
    have hother := List.pairwise_cons.1 h
    unfold place
    split
    · next hlt =>
      have hnone : lookup key ((other, held) :: rest) = none := by
        refine lookup_of_lt fun entry hentry => ?_
        rcases List.mem_cons.1 hentry with rfl | hentry
        · exact hlt
        · exact Std.lt_trans hlt (hother.1 entry hentry)
      rw [lookup_cons, hnone]
    · split
      · next heq =>
        subst heq
        by_cases hz : z = key <;> simp [lookup_cons, hz]
      · next hne =>
        rw [lookup_cons, ih hother.2]
        by_cases hz : z = key
        · subst hz
          simp [lookup_cons, hne]
        · simp [lookup_cons, hz]

omit [DecidableLT α] [Std.IsLinearOrder α] in
/-- In ascending keys every entry is what its key is looked up as. -/
theorem lookup_eq_some_iff {key : α} {value : β} {l : List (α × β)}
    (h : l.Pairwise fun a b => a.1 < b.1) : lookup key l = some value ↔ (key, value) ∈ l := by
  induction l with
  | nil => simp [lookup_nil]
  | cons entry rest ih =>
    obtain ⟨other, held⟩ := entry
    have hother := List.pairwise_cons.1 h
    rw [lookup_cons, List.mem_cons, Prod.mk.injEq]
    by_cases hkey : key = other
    · subst hkey
      have hrest : (key, value) ∉ rest := fun hmem =>
        Std.lt_irrefl (hother.1 (key, value) hmem)
      rw [if_pos rfl, or_iff_left hrest, Option.some_inj]
      exact ⟨fun e => ⟨rfl, e.symm⟩, fun e => e.2.symm⟩
    · rw [if_neg hkey, ih hother.2]
      exact ⟨.inr, fun hmem => hmem.resolve_left fun e => hkey e.1⟩

/-- A key above all others goes to the end. -/
theorem place_of_lt {key : α} {value : Option β → β} {l : List (α × β)}
    (h : ∀ entry ∈ l, entry.1 < key) : place key value l = l ++ [(key, value none)] := by
  induction l with
  | nil => rfl
  | cons entry rest ih =>
    have hlt : entry.1 < key := h entry List.mem_cons_self
    have hne : key ≠ entry.1 := fun e => Std.lt_irrefl (e ▸ hlt)
    have hgt : ¬ key < entry.1 := fun hgt => Std.lt_irrefl (Std.lt_trans hlt hgt)
    rw [place, if_neg hgt, if_neg hne, ih fun other hother => h other (List.mem_cons_of_mem _ hother)]
    rfl

/-- Ascending lists in which every key has the same value are equal. -/
theorem eq_of_lookup_eq {l m : List (α × β)} (hl : l.Pairwise fun a b => a.1 < b.1)
    (hm : m.Pairwise fun a b => a.1 < b.1) (h : ∀ key, lookup key l = lookup key m) : l = m := by
  induction l generalizing m with
  | nil =>
    cases m with
    | nil => rfl
    | cons entry rest =>
      have := h entry.1
      simp [lookup_nil, lookup_cons] at this
  | cons a l ih =>
    have ha := List.pairwise_cons.1 hl
    cases m with
    | nil =>
      have := h a.1
      simp [lookup_nil, lookup_cons] at this
    | cons b m =>
      have hb := List.pairwise_cons.1 hm
      have hkey : a.1 = b.1 := by
        by_cases hlt : a.1 < b.1
        · have hnone : lookup a.1 (b :: m) = none := lookup_of_lt fun entry hentry => by
            rcases List.mem_cons.1 hentry with rfl | hentry
            · exact hlt
            · exact Std.lt_trans hlt (hb.1 entry hentry)
          have := h a.1
          simp [hnone, lookup_cons] at this
        · by_cases hgt : b.1 < a.1
          · have hnone : lookup b.1 (a :: l) = none := lookup_of_lt fun entry hentry => by
              rcases List.mem_cons.1 hentry with rfl | hentry
              · exact hgt
              · exact Std.lt_trans hgt (ha.1 entry hentry)
            have := h b.1
            simp [hnone, lookup_cons] at this
          · exact Std.le_antisymm (Std.not_lt.1 hgt) (Std.not_lt.1 hlt)
      have hvalue : a.2 = b.2 := by
        have := h a.1
        simpa [lookup_cons, hkey] using this
      have hrest : l = m := by
        refine ih ha.2 hb.2 fun key => ?_
        by_cases hk : key = a.1
        · rw [hk, lookup_of_lt ha.1, hkey, lookup_of_lt hb.1]
        · have := h key
          simpa [lookup_cons, hk, ← hkey] using this
      rw [hrest, Prod.ext hkey hvalue]

end Lists

variable [LT α]

def empty : SortedMap α β := ⟨[], .nil⟩

instance : Inhabited (SortedMap α β) := ⟨empty⟩

def size (m : SortedMap α β) : Nat := m.entries.length

variable [DecidableEq α]

def get? (m : SortedMap α β) (key : α) : Option β := lookup key m.entries

def contains (m : SortedMap α β) (key : α) : Bool := (m.get? key).isSome

@[simp]
theorem get?_empty (key : α) : (empty : SortedMap α β).get? key = none := rfl

variable [DecidableLT α] [LE α] [Std.IsLinearOrder α] [Std.LawfulOrderLT α]

/-- Change the value of a key, which may have none yet. -/
def alter (m : SortedMap α β) (key : α) (value : Option β → β) : SortedMap α β :=
  ⟨place key value m.entries, pairwise_place key value m.sorted⟩

def insert (m : SortedMap α β) (key : α) (value : β) : SortedMap α β := m.alter key fun _ => value

/-- The map of the given entries; of several with one key the last counts. -/
def ofList (l : List (α × β)) : SortedMap α β :=
  l.foldl (fun m (key, value) => m.insert key value) empty

theorem get?_alter (m : SortedMap α β) (key z : α) (value : Option β → β) :
    (m.alter key value).get? z = if z = key then some (value (m.get? key)) else m.get? z :=
  lookup_place m.sorted

theorem get?_insert (m : SortedMap α β) (key z : α) (value : β) :
    (m.insert key value).get? z = if z = key then some value else m.get? z :=
  get?_alter m key z fun _ => value

omit [DecidableLT α] [Std.IsLinearOrder α] in
theorem mem_entries_iff {m : SortedMap α β} {key : α} {value : β} :
    (key, value) ∈ m.entries ↔ m.get? key = some value :=
  (lookup_eq_some_iff m.sorted).symm

/-- Entries in ascending order, above those that are there, are added as they come. -/
theorem entries_foldl_insert {m : SortedMap α β} {l : List (α × β)}
    (h : (m.entries ++ l).Pairwise fun a b => a.1 < b.1) :
    (l.foldl (fun m (key, value) => m.insert key value) m).entries = m.entries ++ l := by
  induction l generalizing m with
  | nil => exact (List.append_nil _).symm
  | cons entry rest ih =>
    have hlt : ∀ other ∈ m.entries, other.1 < entry.1 := fun other hother =>
      (List.pairwise_append.1 h).2.2 other hother entry List.mem_cons_self
    have hinsert : (m.insert entry.1 entry.2).entries = m.entries ++ [entry] := place_of_lt hlt
    have hcons : m.entries ++ entry :: rest = (m.entries ++ [entry]) ++ rest := by simp
    rw [hcons, ← hinsert] at h ⊢
    exact ih h

theorem ofList_entries (m : SortedMap α β) : ofList m.entries = m := by
  obtain ⟨l, hl⟩ := m
  have hentries : (ofList l).entries = l := entries_foldl_insert (m := empty) hl
  cases hm : ofList l with
  | mk entries sorted =>
    rw [hm] at hentries
    cases hentries
    rfl

theorem ext_get? {m n : SortedMap α β} (h : ∀ key, m.get? key = n.get? key) : m = n := by
  obtain ⟨l, hl⟩ := m
  obtain ⟨k, hk⟩ := n
  have : l = k := eq_of_lookup_eq hl hk h
  subst this
  rfl

end SortedMap

end ForkTree
