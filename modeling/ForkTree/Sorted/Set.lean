/-!
Sets as sorted lists. Two sets with the same members are the same value, because the order is part of
the type.
-/

namespace ForkTree

/-- A set: its members in ascending order. -/
structure SortedSet (α : Type) [LT α] where
  items : List α
  sorted : items.Pairwise (· < ·)
  deriving DecidableEq, Repr

namespace SortedSet

variable {α : Type} [LT α]

def empty : SortedSet α := ⟨[], .nil⟩

instance : Inhabited (SortedSet α) := ⟨empty⟩

variable [DecidableEq α] [DecidableLT α]

/-- Put a member in its place in an ascending list. -/
def place (x : α) : List α → List α
  | [] => [x]
  | y :: rest =>
    if x < y then x :: y :: rest
    else if x = y then y :: rest
    else y :: place x rest

theorem mem_place {x z : α} {l : List α} : z ∈ place x l ↔ z = x ∨ z ∈ l := by
  induction l with
  | nil => simp [place]
  | cons y rest ih =>
    unfold place
    split
    · simp
    · split
      · next h => simp [h]
      · simp [ih, or_left_comm]

variable [LE α] [Std.IsLinearOrder α] [Std.LawfulOrderLT α]

theorem pairwise_place (x : α) {l : List α} (h : l.Pairwise (· < ·)) :
    (place x l).Pairwise (· < ·) := by
  induction l with
  | nil => simp [place]
  | cons y rest ih =>
    have hy := List.pairwise_cons.1 h
    unfold place
    split
    · next hxy =>
      refine List.pairwise_cons.2 ⟨fun z hz => ?_, h⟩
      rcases List.mem_cons.1 hz with rfl | hz
      · exact hxy
      · exact Std.lt_trans hxy (hy.1 z hz)
    · next hxy =>
      split
      · exact h
      · next hne =>
        refine List.pairwise_cons.2 ⟨fun z hz => ?_, ih hy.2⟩
        rcases mem_place.1 hz with rfl | hz
        · exact Std.lt_of_le_of_ne (Std.not_lt.1 hxy) fun e => hne e.symm
        · exact hy.1 z hz

def insert (s : SortedSet α) (x : α) : SortedSet α := ⟨place x s.items, pairwise_place x s.sorted⟩

def ofList (l : List α) : SortedSet α := l.foldl insert empty

/-- A member above all others goes to the end. -/
theorem place_of_lt {x : α} {l : List α} (h : ∀ y ∈ l, y < x) : place x l = l ++ [x] := by
  induction l with
  | nil => rfl
  | cons y rest ih =>
    have hlt : y < x := h y List.mem_cons_self
    have hne : x ≠ y := fun e => Std.lt_irrefl (e ▸ hlt)
    have hgt : ¬ x < y := fun hgt => Std.lt_irrefl (Std.lt_trans hlt hgt)
    rw [place, if_neg hgt, if_neg hne, ih fun z hz => h z (List.mem_cons_of_mem _ hz)]
    rfl

/-- Members in ascending order, above those that are there, are added as they come. -/
theorem items_foldl_insert {s : SortedSet α} {l : List α} (h : (s.items ++ l).Pairwise (· < ·)) :
    (l.foldl insert s).items = s.items ++ l := by
  induction l generalizing s with
  | nil => exact (List.append_nil _).symm
  | cons x rest ih =>
    have hlt : ∀ y ∈ s.items, y < x := fun y hy =>
      (List.pairwise_append.1 h).2.2 y hy x List.mem_cons_self
    have hinsert : (s.insert x).items = s.items ++ [x] := place_of_lt hlt
    have hcons : s.items ++ x :: rest = (s.items ++ [x]) ++ rest := by simp
    rw [hcons, ← hinsert] at h ⊢
    exact ih h

theorem ofList_items (s : SortedSet α) : ofList s.items = s := by
  obtain ⟨l, hl⟩ := s
  have hitems : (ofList l).items = l := items_foldl_insert (s := empty) hl
  cases hs : ofList l with
  | mk items sorted =>
    rw [hs] at hitems
    cases hitems
    rfl

end SortedSet

end ForkTree
