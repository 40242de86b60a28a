import ForkTree.Shape
import Mathlib.Data.List.Perm.Basic
import Mathlib.Tactic.Lemma

/-!
Shapes with a hole. The way from the root down to a place is a list of frames, the lowest one first,
and `plug` fills the hole at its end. A walk that climbs from a leaf takes the frames off one by one,
so a context is what such a walk has still above it.
-/

namespace ForkTree

inductive Side where
  | left
  | right
  deriving DecidableEq

def Side.other : Side → Side
  | left => right
  | right => left

namespace Shape

variable {α β : Type}

/-- A node with a hole on one side. -/
structure Frame (α : Type) where
  side : Side
  item : α
  beside : Shape α

def Frame.close (f : Frame α) (s : Shape α) : Shape α :=
  match f.side with
  | .left => node f.item s f.beside
  | .right => node f.item f.beside s

/-- Fill the hole below the frames. -/
def plug : List (Frame α) → Shape α → Shape α
  | [], s => s
  | f :: above, s => plug above (f.close s)

/-- What stands around the hole. -/
def around (above : List (Frame α)) : List α := above.flatMap fun f => f.item :: f.beside.preorder

@[simp]
lemma around_nil : around ([] : List (Frame α)) = [] := rfl

@[simp]
lemma around_cons (f : Frame α) (above : List (Frame α)) :
    around (f :: above) = f.item :: f.beside.preorder ++ around above := rfl

@[simp]
lemma preorder_leaf (a : α) : (leaf a).preorder = [a] := rfl

@[simp]
lemma leaves_leaf (a : α) : (leaf a).leaves = [a] := rfl

@[simp]
lemma isEmpty_empty : (empty : Shape α).isEmpty = true := rfl

@[simp]
lemma isEmpty_node (a : α) (left right : Shape α) : (node a left right).isEmpty = false := rfl

@[simp]
lemma isEmpty_leaf (a : α) : (leaf a).isEmpty = false := rfl

@[simp]
lemma isEmpty_close (f : Frame α) (s : Shape α) : (f.close s).isEmpty = false := by
  unfold Frame.close
  split <;> rfl

lemma preorder_close (f : Frame α) (s : Shape α) :
    (f.close s).preorder.Perm (f.item :: f.beside.preorder ++ s.preorder) := by
  unfold Frame.close
  split
  · exact List.Perm.cons _ List.perm_append_comm
  · exact List.Perm.refl _

lemma preorder_plug (above : List (Frame α)) (s : Shape α) :
    (plug above s).preorder.Perm (s.preorder ++ around above) := by
  induction above generalizing s with
  | nil => simp [plug]
  | cons f above ih =>
    have hclose := (preorder_close f s).append_right (around above)
    have hswap : (f.item :: f.beside.preorder ++ s.preorder ++ around above).Perm
        (s.preorder ++ around (f :: above)) := by
      rw [around_cons, ← List.append_assoc]
      exact List.perm_append_comm.append_right _
    exact (ih (f.close s)).trans (hclose.trans hswap)

lemma size_eq_length (s : Shape α) : s.size = s.preorder.length := by
  induction s with
  | empty => rfl
  | node a left right hleft hright =>
    simp only [size, preorder, List.length_cons, List.length_append]
    omega

lemma height_le_size (s : Shape α) : s.height ≤ s.size := by
  induction s with
  | empty => exact Nat.le_refl _
  | node a left right hleft hright =>
    simp only [height, size]
    omega

lemma size_plug (above : List (Frame α)) (s : Shape α) :
    (plug above s).size = s.size + (around above).length := by
  rw [size_eq_length, (preorder_plug above s).length_eq, List.length_append, size_eq_length]

lemma length_le_length_around (above : List (Frame α)) : above.length ≤ (around above).length := by
  induction above with
  | nil => exact Nat.le_refl _
  | cons f above ih =>
    simp only [around_cons, List.length_cons, List.length_append]
    omega

lemma leaves_sublist_preorder (s : Shape α) : s.leaves.Sublist s.preorder := by
  induction s with
  | empty => exact List.Sublist.refl _
  | node a left right hleft hright =>
    rw [leaves, preorder]
    split
    · exact (List.nil_sublist _).cons_cons a
    · exact (hleft.append hright).cons a

lemma leaves_subset_preorder (s : Shape α) : s.leaves ⊆ s.preorder := (leaves_sublist_preorder s).subset

lemma preorder_prune_sublist (keep : α → Bool) (s : Shape α) :
    (s.prune keep).preorder.Sublist s.preorder := by
  induction s with
  | empty => exact List.Sublist.refl _
  | node a left right hleft hright =>
    rw [prune]
    split
    · split
      · exact List.Sublist.cons_cons a (List.nil_sublist _)
      · exact List.nil_sublist _
    · split
      · exact List.nil_sublist _
      · exact List.Sublist.cons_cons a (hleft.append hright)

lemma preorder_contract_sublist (s : Shape α) : s.contract.preorder.Sublist s.preorder := by
  induction s with
  | empty => exact List.Sublist.refl _
  | node a left right hleft hright =>
    rw [contract]
    split
    · exact List.Sublist.cons_cons a (List.nil_sublist _)
    · split
      · exact (hright.trans (List.sublist_append_right _ _)).cons a
      · split
        · exact (hleft.trans (List.sublist_append_left _ _)).cons a
        · exact List.Sublist.cons_cons a (hleft.append hright)

lemma plug_append (inner outer : List (Frame α)) (s : Shape α) :
    plug (inner ++ outer) s = plug outer (plug inner s) := by
  induction inner generalizing s with
  | nil => rfl
  | cons f inner ih => exact ih (f.close s)

/-- Every node of a shape stands below some frames. -/
lemma exists_plug_of_mem {s : Shape α} {a : α} (h : a ∈ s.preorder) :
    ∃ above left right, s = plug above (node a left right) := by
  induction s with
  | empty => cases h
  | node b left right hleft hright =>
    rcases List.mem_cons.1 h with rfl | h
    · exact ⟨[], left, right, rfl⟩
    · rcases List.mem_append.1 h with h | h
      · obtain ⟨above, l, r, hs⟩ := hleft h
        refine ⟨above ++ [⟨.left, b, right⟩], l, r, ?_⟩
        rw [plug_append, ← hs]
        rfl
      · obtain ⟨above, l, r, hs⟩ := hright h
        refine ⟨above ++ [⟨.right, b, left⟩], l, r, ?_⟩
        rw [plug_append, ← hs]
        rfl

/-- Every leaf of a shape fills a hole in it. -/
lemma exists_plug_of_mem_leaves {s : Shape α} {a : α} (h : a ∈ s.leaves) :
    ∃ above, s = plug above (leaf a) := by
  induction s with
  | empty => cases h
  | node b left right hleft hright =>
    rw [leaves] at h
    split at h
    · next hempty =>
      rw [Bool.and_eq_true, isEmpty_iff, isEmpty_iff] at hempty
      rw [List.mem_singleton.1 h, hempty.1, hempty.2]
      exact ⟨[], rfl⟩
    · rcases List.mem_append.1 h with h | h
      · obtain ⟨above, hs⟩ := hleft h
        refine ⟨above ++ [⟨.left, b, right⟩], ?_⟩
        rw [plug_append, ← hs]
        rfl
      · obtain ⟨above, hs⟩ := hright h
        refine ⟨above ++ [⟨.right, b, left⟩], ?_⟩
        rw [plug_append, ← hs]
        rfl

/-! ### Cutting a leaf off -/

lemma prune_eq_self {keep : α → Bool} {s : Shape α} (h : ∀ a ∈ s.leaves, keep a = true) :
    s.prune keep = s := by
  induction s with
  | empty => rfl
  | node a left right hleft hright =>
    rw [leaves] at h
    rw [prune]
    split
    · next hempty =>
      rw [if_pos hempty] at h
      rw [Bool.and_eq_true, isEmpty_iff, isEmpty_iff] at hempty
      rw [if_pos (h a (List.mem_singleton.2 rfl)), hempty.1, hempty.2]
      rfl
    · next hempty =>
      rw [if_neg hempty] at h
      rw [hleft fun b hb => h b (List.mem_append_left _ hb),
        hright fun b hb => h b (List.mem_append_right _ hb), if_neg hempty]

lemma prune_close (keep : α → Bool) (f : Frame α) {s : Shape α} (hs : s.isEmpty = false)
    (hf : f.beside.prune keep = f.beside) :
    (f.close s).prune keep =
      if (s.prune keep).isEmpty && f.beside.isEmpty then empty else f.close (s.prune keep) := by
  unfold Frame.close
  cases f.side with
  | left => simp [prune, hs, hf]
  | right => simp [prune, hs, hf, Bool.and_comm]

/-- Once everything in the hole is cut off, so are the frames that have nothing beside the hole. -/
lemma prune_plug (keep : α → Bool) (above : List (Frame α)) {s : Shape α} (hs : s.isEmpty = false)
    (h : ∀ a ∈ around above, keep a = true) :
    (plug above s).prune keep =
      if (s.prune keep).isEmpty then plug (above.dropWhile fun f => f.beside.isEmpty) empty
      else plug above (s.prune keep) := by
  induction above generalizing s with
  | nil =>
    simp only [plug, List.dropWhile_nil]
    split
    · next hempty => exact isEmpty_iff.1 hempty
    · rfl
  | cons f above ih =>
    have hf : f.beside.prune keep = f.beside := by
      refine prune_eq_self fun a ha => h a ?_
      simp [leaves_subset_preorder _ ha]
    have habove : ∀ a ∈ around above, keep a = true := by
      intro a ha
      exact h a (by simp [ha])
    rw [plug, ih (isEmpty_close f s) habove, prune_close keep f hs hf]
    cases hempty : (s.prune keep).isEmpty with
    | false => simp [plug]
    | true =>
      cases hbeside : f.beside.isEmpty with
      | false => simp [plug, hbeside, isEmpty_iff.1 hempty]
      | true => simp [hbeside]

lemma contract_of_isFull {s : Shape α} (h : s.IsFull) : s.contract = s := by
  induction s with
  | empty => rfl
  | node a left right hleft hright =>
    obtain ⟨hsame, hfull, hfull'⟩ := h
    rw [contract, hleft hfull, hright hfull']
    cases hl : left.isEmpty with
    | false => simp [← hsame, hl]
    | true =>
      have hr : right.isEmpty = true := hsame ▸ hl
      rw [hr, isEmpty_iff.1 hl, isEmpty_iff.1 hr]
      rfl

lemma isFull_close (f : Frame α) {s : Shape α} (hs : s.isEmpty = false) :
    (f.close s).IsFull ↔ s.IsFull ∧ f.beside.isEmpty = false ∧ f.beside.IsFull := by
  unfold Frame.close
  cases f.side with
  | left =>
    rw [IsFull, hs]
    tauto
  | right =>
    rw [IsFull, hs]
    tauto

lemma isFull_plug (above : List (Frame α)) {s : Shape α} (hs : s.isEmpty = false) :
    (plug above s).IsFull ↔
      s.IsFull ∧ ∀ f ∈ above, f.beside.isEmpty = false ∧ f.beside.IsFull := by
  induction above generalizing s with
  | nil => simp [plug]
  | cons f above ih =>
    rw [plug, ih (isEmpty_close f s), isFull_close f hs]
    simp [and_assoc]

/-- In a full shape there is something beside every hole. -/
lemma dropWhile_of_isFull {above : List (Frame α)} {s : Shape α} (hs : s.isEmpty = false)
    (h : (plug above s).IsFull) : (above.dropWhile fun f => f.beside.isEmpty) = above := by
  cases above with
  | nil => rfl
  | cons f above =>
    rw [List.dropWhile_cons, (((isFull_plug _ hs).1 h).2 f List.mem_cons_self).1]
    rfl

lemma contract_plug {above : List (Frame α)} {s : Shape α} (hs : s.isEmpty = false)
    (h : ∀ f ∈ above, f.beside.isEmpty = false ∧ f.beside.IsFull) :
    (plug above s).contract = plug above s.contract := by
  induction above generalizing s with
  | nil => rfl
  | cons f above ih =>
    obtain ⟨hbeside, hfull⟩ := h f List.mem_cons_self
    rw [plug, ih (isEmpty_close f s) fun g hg => h g (List.mem_cons_of_mem _ hg), plug]
    congr 1
    unfold Frame.close
    cases f.side <;> simp [contract, hs, hbeside, contract_of_isFull hfull]

/-- In a full shape the node above a leaf that was cut off has one child left, which `contract` puts in
its place. -/
lemma contract_plug_empty {f : Frame α} {above : List (Frame α)} {a : α}
    (h : (plug (f :: above) (leaf a)).IsFull) :
    (plug (f :: above) empty).contract = plug above f.beside := by
  rw [isFull_plug _ (isEmpty_leaf a)] at h
  obtain ⟨_, hframes⟩ := h
  obtain ⟨hbeside, hfull⟩ := hframes f List.mem_cons_self
  have habove : ∀ g ∈ above, g.beside.isEmpty = false ∧ g.beside.IsFull := by
    intro g hg
    exact hframes g (List.mem_cons_of_mem _ hg)
  rw [plug, contract_plug (isEmpty_close f empty) habove]
  congr 1
  unfold Frame.close
  cases f.side <;> simp [contract, hbeside, contract_of_isFull hfull]

end Shape

end ForkTree
