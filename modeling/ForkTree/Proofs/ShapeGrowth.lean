import ForkTree.Proofs.ShapeContext

/-!
Shapes that grow at their leaves. `grow` puts a shape in the place of each leaf, so it is how a fork
changes a shape, and `prune` is how an end does. The laws say how the two go together with each other,
with `contract` and with `map`; a node that `contract` elides makes no difference to later steps
(`contract_prune_contract`, `contract_grow`).
-/

namespace ForkTree.Shape

variable {α β : Type}

/-- Put a shape in the place of each leaf. -/
def grow (f : α → Shape α) : Shape α → Shape α
  | empty => empty
  | node a left right =>
    if left.isEmpty && right.isEmpty then f a else node a (left.grow f) (right.grow f)

lemma forall_leaves_node {P : α → Prop} {a : α} {left right : Shape α}
    (h : ∀ b ∈ (node a left right).leaves, P b)
    (hne : ¬ (left.isEmpty && right.isEmpty) = true) :
    (∀ b ∈ left.leaves, P b) ∧ ∀ b ∈ right.leaves, P b := by
  rw [leaves, if_neg hne] at h
  exact ⟨fun b hb => h b (List.mem_append_left _ hb), fun b hb => h b (List.mem_append_right _ hb)⟩

lemma mem_leaves_node {a : α} {left right : Shape α}
    (hempty : (left.isEmpty && right.isEmpty) = true) : a ∈ (node a left right).leaves := by
  rw [leaves, if_pos hempty]
  exact List.mem_singleton.2 rfl

@[simp]
lemma grow_leaf (f : α → Shape α) (a : α) : (leaf a).grow f = f a := rfl

lemma isEmpty_grow {f : α → Shape α} {s : Shape α} (h : ∀ a ∈ s.leaves, (f a).isEmpty = false) :
    (s.grow f).isEmpty = s.isEmpty := by
  cases s with
  | empty => rfl
  | node a left right =>
    rw [grow]
    split
    · next hempty => exact h a (mem_leaves_node hempty)
    · rfl

lemma leaves_grow {f : α → Shape α} {s : Shape α} (h : ∀ a ∈ s.leaves, (f a).isEmpty = false) :
    (s.grow f).leaves = s.leaves.flatMap fun a => (f a).leaves := by
  induction s with
  | empty => rfl
  | node a left right hleft hright =>
    rw [grow, leaves]
    split
    · simp
    · next hne =>
      obtain ⟨hl, hr⟩ := forall_leaves_node h hne
      rw [leaves, isEmpty_grow hl, isEmpty_grow hr, if_neg hne, hleft hl, hright hr,
        List.flatMap_append]

lemma grow_congr {f g : α → Shape α} {s : Shape α} (h : ∀ a ∈ s.leaves, f a = g a) :
    s.grow f = s.grow g := by
  induction s with
  | empty => rfl
  | node a left right hleft hright =>
    rw [grow, grow]
    split
    · next hempty => exact h a (mem_leaves_node hempty)
    · next hne =>
      obtain ⟨hl, hr⟩ := forall_leaves_node h hne
      rw [hleft hl, hright hr]

lemma grow_eq_self {f : α → Shape α} {s : Shape α} (h : ∀ a ∈ s.leaves, f a = leaf a) :
    s.grow f = s := by
  induction s with
  | empty => rfl
  | node a left right hleft hright =>
    rw [grow]
    split
    · next hempty =>
      rw [h a (mem_leaves_node hempty)]
      rw [Bool.and_eq_true, isEmpty_iff, isEmpty_iff] at hempty
      rw [hempty.1, hempty.2]
      rfl
    · next hne =>
      obtain ⟨hl, hr⟩ := forall_leaves_node h hne
      rw [hleft hl, hright hr]

lemma grow_close (f : α → Shape α) (g : Frame α) {s : Shape α} (hs : s.isEmpty = false)
    (hg : ∀ a ∈ g.beside.leaves, f a = leaf a) : (g.close s).grow f = g.close (s.grow f) := by
  unfold Frame.close
  cases g.side <;> simp [grow, hs, grow_eq_self hg]

/-- To grow one leaf is to fill the hole that it leaves with something else. -/
lemma grow_plug (f : α → Shape α) {above : List (Frame α)} {s : Shape α} (hs : s.isEmpty = false)
    (h : ∀ a ∈ around above, f a = leaf a) : (plug above s).grow f = plug above (s.grow f) := by
  induction above generalizing s with
  | nil => rfl
  | cons g above ih =>
    have hg : ∀ a ∈ g.beside.leaves, f a = leaf a := by
      intro a ha
      exact h a (by simp [leaves_subset_preorder _ ha])
    have habove : ∀ a ∈ around above, f a = leaf a := by
      intro a ha
      exact h a (by simp [ha])
    rw [plug, ih (isEmpty_close g s) habove, grow_close f g hs hg, plug]

@[simp]
lemma isEmpty_map (h : α → β) (s : Shape α) : (s.map h).isEmpty = s.isEmpty := by cases s <;> rfl

@[simp]
lemma map_leaf (h : α → β) (a : α) : (leaf a).map h = leaf (h a) := rfl

lemma preorder_map (h : α → β) (s : Shape α) : (s.map h).preorder = s.preorder.map h := by
  induction s with
  | empty => rfl
  | node a left right hleft hright => simp [map, preorder, hleft, hright]

lemma leaves_map (h : α → β) (s : Shape α) : (s.map h).leaves = s.leaves.map h := by
  induction s with
  | empty => rfl
  | node a left right hleft hright =>
    rw [map, leaves, leaves, isEmpty_map, isEmpty_map, hleft, hright]
    split
    · rfl
    · rw [List.map_append]

lemma size_map (h : α → β) (s : Shape α) : (s.map h).size = s.size := by
  rw [size_eq_length, preorder_map, List.length_map, size_eq_length]

lemma map_map {γ : Type} (g : β → γ) (h : α → β) (s : Shape α) :
    (s.map h).map g = s.map fun a => g (h a) := by
  induction s with
  | empty => rfl
  | node a left right hleft hright => simp [map, hleft, hright]

lemma map_congr {g h : α → β} {s : Shape α} (heq : ∀ a ∈ s.preorder, g a = h a) :
    s.map g = s.map h := by
  induction s with
  | empty => rfl
  | node a left right hleft hright =>
    simp only [preorder, List.mem_cons, List.mem_append] at heq
    rw [map, map, heq a (.inl rfl), hleft fun b hb => heq b (.inr (.inl hb)),
      hright fun b hb => heq b (.inr (.inr hb))]

lemma map_eq_self {h : α → α} {s : Shape α} (heq : ∀ a ∈ s.preorder, h a = a) : s.map h = s := by
  induction s with
  | empty => rfl
  | node a left right hleft hright =>
    simp only [preorder, List.mem_cons, List.mem_append] at heq
    rw [map, heq a (.inl rfl), hleft fun b hb => heq b (.inr (.inl hb)),
      hright fun b hb => heq b (.inr (.inr hb))]

/-- A map that only changes what is in the hole. -/
lemma map_plug {h : α → α} {above : List (Frame α)} (s : Shape α)
    (heq : ∀ a ∈ around above, h a = a) : (plug above s).map h = plug above (s.map h) := by
  induction above generalizing s with
  | nil => rfl
  | cons f above ih =>
    have hitem : h f.item = f.item := heq _ (by simp)
    have hbeside : f.beside.map h = f.beside := map_eq_self fun a ha => heq a (by simp [ha])
    have hclose : (f.close s).map h = f.close (s.map h) := by
      unfold Frame.close
      cases f.side <;> simp [map, hitem, hbeside]
    rw [plug, ih _ fun a ha => heq a (by simp [ha]), hclose, plug]

lemma isFull_map (h : α → β) (s : Shape α) : (s.map h).IsFull ↔ s.IsFull := by
  induction s with
  | empty => rfl
  | node a left right hleft hright => rw [map, IsFull, IsFull, isEmpty_map, isEmpty_map, hleft, hright]

lemma map_grow {h : α → β} {f : α → Shape α} {g : β → Shape β} {s : Shape α}
    (heq : ∀ a ∈ s.leaves, (f a).map h = g (h a)) : (s.grow f).map h = (s.map h).grow g := by
  induction s with
  | empty => rfl
  | node a left right hleft hright =>
    rw [grow, map, grow, isEmpty_map, isEmpty_map]
    split
    · next hempty => exact heq a (mem_leaves_node hempty)
    · next hne =>
      obtain ⟨hl, hr⟩ := forall_leaves_node heq hne
      rw [map, hleft hl, hright hr]

lemma map_prune {h : α → β} {keep : α → Bool} {keep' : β → Bool} {s : Shape α}
    (heq : ∀ a ∈ s.leaves, keep a = keep' (h a)) :
    (s.prune keep).map h = (s.map h).prune keep' := by
  induction s with
  | empty => rfl
  | node a left right hleft hright =>
    rw [prune, map, prune, isEmpty_map, isEmpty_map]
    split
    · next hempty =>
      rw [heq a (mem_leaves_node hempty)]
      split <;> rfl
    · next hne =>
      obtain ⟨hl, hr⟩ := forall_leaves_node heq hne
      rw [← hleft hl, ← hright hr, isEmpty_map, isEmpty_map]
      split <;> rfl

lemma map_contract (h : α → β) (s : Shape α) : s.contract.map h = (s.map h).contract := by
  induction s with
  | empty => rfl
  | node a left right hleft hright =>
    rw [contract, map, contract, isEmpty_map, isEmpty_map]
    cases left.isEmpty <;> cases right.isEmpty <;> simp [map, hleft, hright]

/-! ### Cutting back -/

lemma isEmpty_eq_of_leaves_eq {s : Shape α} {t : Shape β}
    (h : s.leaves.length = t.leaves.length) : s.isEmpty = t.isEmpty := by
  cases hs : s.isEmpty <;> cases ht : t.isEmpty
  · rfl
  · have := length_leaves_pos hs
    rw [h, leaves_of_isEmpty ht] at this
    cases this
  · have := length_leaves_pos ht
    rw [← h, leaves_of_isEmpty hs] at this
    cases this
  · rfl

lemma prune_prune (keep keep' : α → Bool) (s : Shape α) :
    (s.prune keep).prune keep' = s.prune fun a => keep a && keep' a := by
  induction s with
  | empty => rfl
  | node a left right hleft hright =>
    rw [prune, prune]
    split
    · cases hk : keep a <;> cases hk' : keep' a <;> simp [prune, leaf, hk']
    · split
      · next hempty =>
        rw [Bool.and_eq_true] at hempty
        have hl : (left.prune fun a => keep a && keep' a).isEmpty = true := by
          rw [← hleft, isEmpty_iff.1 hempty.1]
          rfl
        have hr : (right.prune fun a => keep a && keep' a).isEmpty = true := by
          rw [← hright, isEmpty_iff.1 hempty.2]
          rfl
        rw [hl, hr]
        rfl
      · next hne => rw [prune, if_neg hne, hleft, hright]

/-- What is cut back in a grown shape: the leaves that are not kept, and what grew out of the others. -/
lemma prune_grow {f g : α → Shape α} {keep keep' : α → Bool} {s : Shape α}
    (hf : ∀ a ∈ s.leaves, (f a).isEmpty = false)
    (hg : ∀ a ∈ s.leaves, keep a = true → (g a).isEmpty = false)
    (h : ∀ a ∈ s.leaves, (f a).prune keep' = if keep a then g a else empty) :
    (s.grow f).prune keep' = (s.prune keep).grow g := by
  have hempty : ∀ t : Shape α, (∀ a ∈ t.leaves, keep a = true → (g a).isEmpty = false) →
      ((t.prune keep).grow g).isEmpty = (t.prune keep).isEmpty := by
    intro t ht
    apply isEmpty_grow
    intro a ha
    rw [leaves_prune, List.mem_filter] at ha
    exact ht a ha.1 ha.2
  induction s with
  | empty => rfl
  | node a left right hleft hright =>
    rw [grow, prune]
    split
    · next hleaf =>
      rw [h a (mem_leaves_node hleaf)]
      split <;> rfl
    · next hne =>
      obtain ⟨hfl, hfr⟩ := forall_leaves_node hf hne
      obtain ⟨hgl, hgr⟩ := forall_leaves_node hg hne
      obtain ⟨hl, hr⟩ := forall_leaves_node h hne
      rw [prune, isEmpty_grow hfl, isEmpty_grow hfr, if_neg hne, hleft hfl hgl hl, hright hfr hgr hr,
        hempty left hgl, hempty right hgr]
      split
      · rfl
      · next hkept => rw [grow, if_neg hkept]

lemma contract_grow {f : α → Shape α} {s : Shape α} (h : ∀ a ∈ s.leaves, (f a).isEmpty = false) :
    (s.grow f).contract = s.contract.grow fun a => (f a).contract := by
  induction s with
  | empty => rfl
  | node a left right hleft hright =>
    rw [grow, contract]
    split
    · rfl
    · next hne =>
      obtain ⟨hl, hr⟩ := forall_leaves_node h hne
      rw [contract, isEmpty_grow hl, isEmpty_grow hr, if_neg hne, hleft hl, hright hr]
      cases hel : left.isEmpty <;> cases her : right.isEmpty <;>
        simp [grow, isEmpty_contract, hel]

/-- To elide single children before a cut makes no difference to what is left after it. -/
lemma contract_prune_contract (keep : α → Bool) (s : Shape α) :
    (s.contract.prune keep).contract = (s.prune keep).contract := by
  have hempty : ∀ t : Shape α, (t.contract.prune keep).isEmpty = (t.prune keep).isEmpty := by
    intro t
    apply isEmpty_eq_of_leaves_eq
    rw [leaves_prune, leaves_prune, leaves_contract]
  induction s with
  | empty => rfl
  | node a left right hleft hright =>
    rw [contract, prune]
    cases hel : left.isEmpty <;> cases her : right.isEmpty
    · simp only [Bool.and_false, Bool.false_eq_true, if_false, prune, isEmpty_contract, hel, her,
        hempty]
      cases hpl : (left.prune keep).isEmpty <;> cases hpr : (right.prune keep).isEmpty <;>
        simp [contract, hempty, hpl, hpr, hleft, hright]
    · rw [isEmpty_iff.1 her]
      cases hpl : (left.prune keep).isEmpty <;> simp [prune, contract, hpl, hleft]
      rw [isEmpty_iff.1 hpl]
      rfl
    · rw [isEmpty_iff.1 hel]
      cases hpr : (right.prune keep).isEmpty <;> simp [prune, contract, hpr, hright]
      rw [isEmpty_iff.1 hpr]
      rfl
    · rfl

end ForkTree.Shape
