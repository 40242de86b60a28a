import ForkTree.Proofs.ShapeGrowth

/-!
Marks on a shape. Some leaves are tracked, and the marked nodes should be those at or below which a
tracked leaf stands (`IsMarked`). Growing, cutting back and eliding single children keep that. So do the
two ways to change what is tracked, which climb from a leaf and stop as early as they can
(`MarkedAround.mark`, `MarkedAround.unmark`). `draw` walks down to a tracked leaf by coins. It finds
every tracked leaf and no other one, and single children make no difference to it (`draw_contract`).
-/

namespace ForkTree.Shape

variable {α β : Type}

/-- The marked nodes are those at or below which there is a tracked leaf. -/
def IsMarked (marked tracks : α → Bool) : Shape α → Prop
  | empty => True
  | node a left right =>
    marked a = (node a left right).leaves.any tracks ∧ left.IsMarked marked tracks ∧
      right.IsMarked marked tracks

/-- The same of what stands around a hole, given whether there is a tracked leaf in the hole. -/
def MarkedAround (marked tracks : α → Bool) : List (Frame α) → (below : Bool) → Prop
  | [], _ => True
  | f :: above, below =>
    marked f.item = (below || f.beside.leaves.any tracks) ∧ f.beside.IsMarked marked tracks ∧
      MarkedAround marked tracks above (below || f.beside.leaves.any tracks)

/-- Whether the topmost node is marked. -/
def topMarked (marked : α → Bool) : Shape α → Bool
  | empty => false
  | node a _ _ => marked a

/-- Change the nodes above a hole upwards, until it stops at one. -/
def climb (stops : Frame α → Bool) (change : α → α) : List (Frame α) → List (Frame α)
  | [] => []
  | f :: above =>
    if stops f then f :: above else { f with item := change f.item } :: climb stops change above

/-- Walk down to a tracked leaf, after `asked` coins. Where there is one on both sides a coin decides,
and heads go left. -/
def draw (tracks : α → Bool) (coin : Nat → Bool) : Shape α → (asked : Nat) → Option α × Nat
  | empty, asked => (none, asked)
  | node a left right, asked =>
    if left.isEmpty && right.isEmpty then (some a, asked)
    else
      match left.leaves.any tracks, right.leaves.any tracks with
      | true, true =>
        if coin asked then left.draw tracks coin (asked + 1) else right.draw tracks coin (asked + 1)
      | true, false => left.draw tracks coin asked
      | false, true => right.draw tracks coin asked
      | false, false => (none, asked)

section Marks

variable {marked tracks tracks' : α → Bool} {s : Shape α}

lemma any_congr_mem {l : List α} (h : ∀ a ∈ l, tracks' a = tracks a) : l.any tracks' = l.any tracks := by
  rw [Bool.eq_iff_iff, List.any_eq_true, List.any_eq_true]
  exact exists_congr fun a => and_congr_right fun ha => by rw [h a ha]

lemma any_leaves_node (a : α) (left right : Shape α) :
    (node a left right).leaves.any tracks =
      if left.isEmpty && right.isEmpty then tracks a
      else left.leaves.any tracks || right.leaves.any tracks := by
  rw [leaves]
  split
  · rw [List.any_cons, List.any_nil, Bool.or_false]
  · rw [List.any_append]

lemma any_leaves_close (f : Frame α) (hs : s.isEmpty = false) :
    (f.close s).leaves.any tracks = (s.leaves.any tracks || f.beside.leaves.any tracks) := by
  unfold Frame.close
  cases f.side with
  | left => simp [any_leaves_node, hs]
  | right => simp [any_leaves_node, hs, Bool.or_comm]

lemma IsMarked.topMarked_eq (h : s.IsMarked marked tracks) :
    s.topMarked marked = s.leaves.any tracks := by
  cases s with
  | empty => rfl
  | node a left right => exact h.1

lemma IsMarked.congr (h : s.IsMarked marked tracks) (htracks : ∀ a ∈ s.leaves, tracks' a = tracks a) :
    s.IsMarked marked tracks' := by
  induction s with
  | empty => trivial
  | node a left right hleft hright =>
    obtain ⟨hself, hl, hr⟩ := h
    refine ⟨by rw [hself, any_congr_mem htracks], ?_⟩
    by_cases hinner : (left.isEmpty && right.isEmpty) = true
    · rw [Bool.and_eq_true, isEmpty_iff, isEmpty_iff] at hinner
      rw [hinner.1, hinner.2]
      exact ⟨trivial, trivial⟩
    · obtain ⟨htl, htr⟩ := forall_leaves_node htracks hinner
      exact ⟨hleft hl htl, hright hr htr⟩

lemma isMarked_map {h : α → β} {marked' tracked' : β → Bool} (hmarked : ∀ a, marked' (h a) = marked a)
    (htracks : ∀ a, tracked' (h a) = tracks a) :
    (s.map h).IsMarked marked' tracked' ↔ s.IsMarked marked tracks := by
  have hany : ∀ u : Shape α, (u.map h).leaves.any tracked' = u.leaves.any tracks := by
    intro u
    rw [leaves_map, List.any_map]
    exact any_congr_mem fun a _ => htracks a
  induction s with
  | empty => rfl
  | node a left right hleft hright =>
    have hself := hany (node a left right)
    rw [map] at hself
    rw [map, IsMarked, IsMarked, hmarked, hself]
    exact and_congr_right fun _ => and_congr hleft hright

lemma MarkedAround.congr {above : List (Frame α)} {below : Bool}
    (h : MarkedAround marked tracks above below)
    (htracks : ∀ a ∈ around above, tracks' a = tracks a) : MarkedAround marked tracks' above below := by
  induction above generalizing below with
  | nil => trivial
  | cons f above ih =>
    obtain ⟨hself, hbeside, habove⟩ := h
    simp only [around_cons, List.cons_append, List.mem_cons, List.mem_append] at htracks
    have hleaves : ∀ a ∈ f.beside.leaves, tracks' a = tracks a := fun a ha =>
      htracks a (.inr (.inl (leaves_subset_preorder _ ha)))
    rw [← any_congr_mem hleaves] at hself habove
    exact ⟨hself, hbeside.congr hleaves, ih habove fun a ha => htracks a (.inr (.inr ha))⟩

lemma isMarked_close (f : Frame α) (hs : s.isEmpty = false) :
    (f.close s).IsMarked marked tracks ↔
      marked f.item = (s.leaves.any tracks || f.beside.leaves.any tracks) ∧
        s.IsMarked marked tracks ∧ f.beside.IsMarked marked tracks := by
  have hany : (f.close s).leaves.any tracks = _ := any_leaves_close f hs
  obtain ⟨side, a, beside⟩ := f
  cases side with
  | left =>
    rw [← hany]
    rfl
  | right =>
    rw [← hany, and_comm (a := s.IsMarked marked tracks)]
    rfl

lemma isMarked_plug {above : List (Frame α)} (hs : s.isEmpty = false) :
    (plug above s).IsMarked marked tracks ↔
      s.IsMarked marked tracks ∧ MarkedAround marked tracks above (s.leaves.any tracks) := by
  induction above generalizing s with
  | nil => simp [plug, MarkedAround]
  | cons f above ih =>
    rw [plug, ih (isEmpty_close f s), isMarked_close f hs, any_leaves_close f hs, MarkedAround]
    tauto

/-- A shape that grows stays marked if what grows out of a leaf is tracked as the leaf was. -/
lemma IsMarked.grow {f : α → Shape α} (h : s.IsMarked marked tracks)
    (hf : ∀ a ∈ s.leaves, marked a = tracks a → (f a).IsMarked marked tracks')
    (hany : ∀ a ∈ s.leaves, (f a).leaves.any tracks' = tracks a)
    (hne : ∀ a ∈ s.leaves, (f a).isEmpty = false) : (s.grow f).IsMarked marked tracks' := by
  have hleaves : ∀ u : Shape α, (∀ a ∈ u.leaves, (f a).leaves.any tracks' = tracks a) →
      (∀ a ∈ u.leaves, (f a).isEmpty = false) → (u.grow f).leaves.any tracks' = u.leaves.any tracks := by
    intro u hu hne
    rw [leaves_grow hne, List.any_flatMap]
    exact any_congr_mem hu
  induction s with
  | empty => trivial
  | node a left right hleft hright =>
    have hself := hleaves _ hany hne
    obtain ⟨hmark, hl, hr⟩ := h
    rw [Shape.grow] at hself ⊢
    split
    · next hempty =>
      have ha := mem_leaves_node (a := a) hempty
      refine hf a ha ?_
      rw [hmark, any_leaves_node, if_pos hempty]
    · next hinner =>
      rw [if_neg hinner] at hself
      obtain ⟨hfl, hfr⟩ := forall_leaves_node hf hinner
      obtain ⟨hanyl, hanyr⟩ := forall_leaves_node hany hinner
      obtain ⟨hnel, hner⟩ := forall_leaves_node hne hinner
      exact ⟨by rw [hmark, hself], hleft hl hfl hanyl hnel, hright hr hfr hanyr hner⟩

/-- Leaves that are not tracked can be cut off. -/
lemma IsMarked.prune (h : s.IsMarked marked tracks) {keep : α → Bool}
    (hkeep : ∀ a ∈ s.leaves, tracks a = true → keep a = true) :
    (s.prune keep).IsMarked marked tracks := by
  have hleaves : ∀ u : Shape α, (∀ a ∈ u.leaves, tracks a = true → keep a = true) →
      (u.prune keep).leaves.any tracks = u.leaves.any tracks := by
    intro u hu
    rw [leaves_prune, List.any_filter]
    refine any_congr_mem fun a ha => ?_
    cases ht : tracks a with
    | false => exact Bool.and_false _
    | true => rw [hu a ha ht, Bool.true_and]
  induction s with
  | empty => trivial
  | node a left right hleft hright =>
    have hself := hleaves _ hkeep
    obtain ⟨hmark, hl, hr⟩ := h
    rw [← hself] at hmark
    rw [Shape.prune] at hmark ⊢
    split
    · next hempty =>
      rw [if_pos hempty] at hmark
      split
      · next hk => exact ⟨by rw [hmark, if_pos hk]; rfl, trivial, trivial⟩
      · trivial
    · next hinner =>
      rw [if_neg hinner] at hmark
      obtain ⟨hkl, hkr⟩ := forall_leaves_node hkeep hinner
      split
      · trivial
      · next hkept => exact ⟨by rw [hmark, if_neg hkept], hleft hl hkl, hright hr hkr⟩

/-- A single child brings its own mark, which is that of its parent. -/
lemma IsMarked.contract (h : s.IsMarked marked tracks) : s.contract.IsMarked marked tracks := by
  induction s with
  | empty => trivial
  | node a left right hleft hright =>
    obtain ⟨hmark, hl, hr⟩ := h
    have hany : marked a = (node a left right).contract.leaves.any tracks := by
      rw [leaves_contract, hmark]
    rw [Shape.contract] at hany ⊢
    split
    · next hempty =>
      rw [if_pos hempty] at hany
      exact ⟨hany, trivial, trivial⟩
    · next hinner =>
      rw [if_neg hinner] at hany
      split
      · exact hright hr
      · next hle =>
        split
        · exact hleft hl
        · next hre =>
          rw [if_neg hle, if_neg hre] at hany
          exact ⟨hany, hleft hl, hright hr⟩

end Marks

section Climb

variable {marked tracks tracks' : α → Bool} {stops : Frame α → Bool} {change : α → α}

def Frame.map (h : α → β) (f : Frame α) : Frame β := ⟨f.side, h f.item, f.beside.map h⟩

lemma map_plug_map (h : α → β) (above : List (Frame α)) (s : Shape α) :
    (plug above s).map h = plug (above.map (Frame.map h)) (s.map h) := by
  induction above generalizing s with
  | nil => rfl
  | cons f above ih =>
    have hclose : (f.close s).map h = (f.map h).close (s.map h) := by
      obtain ⟨side, a, beside⟩ := f
      cases side <;> rfl
    rw [plug, ih, hclose, List.map_cons, plug]

/-- What a change leaves alone is the same after a climb. -/
lemma map_climb {h : α → β} (hchange : ∀ a, h (change a) = h a) (above : List (Frame α)) :
    (climb stops change above).map (Frame.map h) = above.map (Frame.map h) := by
  induction above with
  | nil => rfl
  | cons f above ih =>
    rw [climb]
    split
    · rfl
    · rw [List.map_cons, List.map_cons, ih]
      simp [Frame.map, hchange]

/-- A climb that has nothing to do with some marks leaves them right. -/
lemma MarkedAround.climb {above : List (Frame α)} {below : Bool}
    (h : MarkedAround marked tracks above below) (hchange : ∀ a, marked (change a) = marked a) :
    MarkedAround marked tracks (climb stops change above) below := by
  induction above generalizing below with
  | nil => trivial
  | cons f above ih =>
    obtain ⟨hself, hbeside, habove⟩ := h
    rw [Shape.climb]
    split
    · exact ⟨hself, hbeside, habove⟩
    · exact ⟨(hchange f.item).trans hself, hbeside, ih habove⟩

/-- Once a leaf in the hole is tracked, the nodes above it have to be marked up to the first one that
is. -/
lemma MarkedAround.mark {above : List (Frame α)} {below : Bool}
    (h : MarkedAround marked tracks above below) (hchange : ∀ a, marked (change a) = true) :
    MarkedAround marked tracks (Shape.climb (fun f => marked f.item) change above) true := by
  induction above generalizing below with
  | nil => trivial
  | cons f above ih =>
    obtain ⟨hself, hbeside, habove⟩ := h
    rw [Shape.climb]
    split
    · next hmarked =>
      rw [← hself, hmarked] at habove
      exact ⟨by rw [hmarked, Bool.true_or], hbeside, by rwa [Bool.true_or]⟩
    · exact ⟨by rw [hchange, Bool.true_or], hbeside, by rw [Bool.true_or]; exact ih habove⟩

/-- Once no leaf in the hole is tracked, the nodes above it lose their marks up to the first one with
another marked child. -/
lemma MarkedAround.unmark {above : List (Frame α)} {below : Bool}
    (h : MarkedAround marked tracks above below) (hchange : ∀ a, marked (change a) = false) :
    MarkedAround marked tracks (Shape.climb (fun f => f.beside.topMarked marked) change above) false := by
  induction above generalizing below with
  | nil => trivial
  | cons f above ih =>
    obtain ⟨hself, hbeside, habove⟩ := h
    have htop := hbeside.topMarked_eq
    rw [Shape.climb]
    split
    · next hmarked =>
      rw [htop] at hmarked
      rw [hmarked, Bool.or_true] at hself habove
      exact ⟨by rw [hself, hmarked, Bool.or_true], hbeside, by rwa [hmarked, Bool.or_true]⟩
    · next hmarked =>
      rw [htop, Bool.not_eq_true] at hmarked
      exact ⟨by rw [hchange, hmarked]; rfl, hbeside, by rw [hmarked]; exact ih habove⟩

/-- A leaf as the node to start climbing at. -/
def Frame.ofLeaf (a : α) : Frame α := ⟨.left, a, .empty⟩

lemma isMarked_plug_leaf {above : List (Frame α)} {a : α} :
    (plug above (leaf a)).IsMarked marked tracks ↔
      marked a = tracks a ∧ MarkedAround marked tracks above (tracks a) := by
  rw [isMarked_plug (isEmpty_leaf a), leaves_leaf, List.any_cons, List.any_nil, Bool.or_false]
  simp [leaf, IsMarked, any_leaves_node]

theorem IsMarked.markLeaf {above : List (Frame α)} {a : α}
    (h : (plug above (leaf a)).IsMarked marked tracks) (hchange : ∀ b, marked (change b) = true)
    (haround : ∀ b ∈ around above, tracks' b = tracks b) (ha : tracks' a = true)
    (ha' : tracks' (change a) = true) :
    (plug (Shape.climb (fun f => marked f.item) change (.ofLeaf a :: above)) .empty).IsMarked marked
      tracks' := by
  obtain ⟨hself, habove⟩ := isMarked_plug_leaf.1 h
  have hcongr := habove.congr haround
  rw [Shape.climb]
  split
  · next hmarked =>
    change marked a = true at hmarked
    rw [← hself, hmarked, ← ha] at hcongr
    exact isMarked_plug_leaf.2 ⟨hmarked.trans ha.symm, hcongr⟩
  · have hmark := hcongr.mark hchange
    rw [← ha'] at hmark
    exact isMarked_plug_leaf.2 ⟨(hchange a).trans ha'.symm, hmark⟩

theorem IsMarked.unmarkLeaf {above : List (Frame α)} {a : α}
    (h : (plug above (leaf a)).IsMarked marked tracks) (hchange : ∀ b, marked (change b) = false)
    (haround : ∀ b ∈ around above, tracks' b = tracks b) (ha : tracks' (change a) = false) :
    (plug (Shape.climb (fun f => f.beside.topMarked marked) change (.ofLeaf a :: above))
      .empty).IsMarked marked tracks' := by
  obtain ⟨_, habove⟩ := isMarked_plug_leaf.1 h
  have hunmark := (habove.congr haround).unmark hchange
  rw [← ha] at hunmark
  exact isMarked_plug_leaf.2 ⟨(hchange a).trans ha.symm, hunmark⟩

/-- Marks that a climb has nothing to do with stay right. -/
theorem IsMarked.climbLeaf {above : List (Frame α)} {a : α}
    (h : (plug above (leaf a)).IsMarked marked tracks) (hchange : ∀ b, marked (change b) = marked b)
    (ha : tracks (change a) = tracks a) (stops : Frame α → Bool) :
    (plug (Shape.climb stops change (.ofLeaf a :: above)) .empty).IsMarked marked tracks := by
  obtain ⟨hself, habove⟩ := isMarked_plug_leaf.1 h
  rw [Shape.climb]
  split
  · exact h
  · have hclimb : MarkedAround marked tracks (Shape.climb stops change above) _ :=
      habove.climb hchange
    rw [← ha] at hclimb
    exact isMarked_plug_leaf.2 ⟨(hchange a).trans (hself.trans ha.symm), hclimb⟩

end Climb

/-! ### Walking down -/

section Draw

variable {tracks : α → Bool} {coin coin' : Nat → Bool} {s : Shape α} {asked : Nat}

/-- A walk ends at a tracked leaf if there is one. -/
theorem exists_draw_eq (h : s.leaves.any tracks = true) :
    ∃ a ∈ s.leaves, tracks a = true ∧ (s.draw tracks coin asked).1 = some a := by
  induction s generalizing asked with
  | empty => cases h
  | node a left right hleft hright =>
    rw [any_leaves_node] at h
    rw [leaves, draw]
    split
    · next hempty =>
      rw [if_pos hempty] at h
      exact ⟨a, List.mem_singleton.2 rfl, h, rfl⟩
    · next hinner =>
      rw [if_neg hinner] at h
      have goLeft : ∀ n, left.leaves.any tracks = true → ∃ b ∈ left.leaves ++ right.leaves,
          tracks b = true ∧ (left.draw tracks coin n).1 = some b := by
        intro n hl
        obtain ⟨b, hb, htracked, hdraw⟩ := @hleft n hl
        exact ⟨b, List.mem_append_left _ hb, htracked, hdraw⟩
      have goRight : ∀ n, right.leaves.any tracks = true → ∃ b ∈ left.leaves ++ right.leaves,
          tracks b = true ∧ (right.draw tracks coin n).1 = some b := by
        intro n hr
        obtain ⟨b, hb, htracked, hdraw⟩ := @hright n hr
        exact ⟨b, List.mem_append_right _ hb, htracked, hdraw⟩
      cases hl : left.leaves.any tracks <;> cases hr : right.leaves.any tracks
      · rw [hl, hr] at h
        cases h
      · exact goRight _ hr
      · exact goLeft _ hl
      · simp only
        split
        · exact goLeft _ hl
        · exact goRight _ hr

/-- A walk does not look at coins that were thrown before. -/
lemma draw_congr (h : ∀ i, asked ≤ i → coin i = coin' i) :
    s.draw tracks coin asked = s.draw tracks coin' asked := by
  induction s generalizing asked with
  | empty => rfl
  | node a left right hleft hright =>
    have hl := @hleft asked h
    have hr := @hright asked h
    have hl' := @hleft (asked + 1) fun i hi => h i (Nat.le_of_succ_le hi)
    have hr' := @hright (asked + 1) fun i hi => h i (Nat.le_of_succ_le hi)
    rw [draw, draw, hl, hr, hl', hr', h asked (Nat.le_refl _)]

/-- The coins that lead to a tracked leaf. -/
theorem exists_coin_draw_eq {a : α} (ha : a ∈ s.leaves) (htracked : tracks a = true) (asked : Nat) :
    ∃ coin, (s.draw tracks coin asked).1 = some a := by
  induction s generalizing asked with
  | empty => cases ha
  | node b left right hleft hright =>
    rw [leaves] at ha
    split at ha
    · next hempty =>
      refine ⟨fun _ => true, ?_⟩
      rw [draw, if_pos hempty, List.mem_singleton.1 ha]
    · next hinner =>
      -- One more coin in front leads to the side of the leaf, if one is asked for at all.
      have hcoin : ∀ (u : Shape α) (c : Nat → Bool) (heads : Bool),
          u.draw tracks (Function.update c asked heads) (asked + 1) = u.draw tracks c (asked + 1) := by
        intro u c heads
        exact draw_congr fun i hi => Function.update_of_ne (Nat.ne_of_gt hi) _ _
      rcases List.mem_append.1 ha with ha | ha
      · have hl : left.leaves.any tracks = true := List.any_eq_true.2 ⟨a, ha, htracked⟩
        cases hr : right.leaves.any tracks with
        | false =>
          obtain ⟨c, hc⟩ := hleft ha asked
          exact ⟨c, by rw [draw, if_neg hinner, hl, hr]; exact hc⟩
        | true =>
          obtain ⟨c, hc⟩ := hleft ha (asked + 1)
          refine ⟨Function.update c asked true, ?_⟩
          rw [draw, if_neg hinner, hl, hr]
          simp only [Function.update_self, if_true, hcoin, hc]
      · have hr : right.leaves.any tracks = true := List.any_eq_true.2 ⟨a, ha, htracked⟩
        cases hl : left.leaves.any tracks with
        | false =>
          obtain ⟨c, hc⟩ := hright ha asked
          exact ⟨c, by rw [draw, if_neg hinner, hl, hr]; exact hc⟩
        | true =>
          obtain ⟨c, hc⟩ := hright ha (asked + 1)
          refine ⟨Function.update c asked false, ?_⟩
          rw [draw, if_neg hinner, hl, hr]
          simp only [Function.update_self, Bool.false_eq_true, if_false, hcoin, hc]

/-- A node with a single child asks for no coin, so a walk does not notice whether it is elided. -/
theorem draw_contract (h : s.leaves.any tracks = true) :
    s.contract.draw tracks coin asked = s.draw tracks coin asked := by
  induction s generalizing asked with
  | empty => rfl
  | node a left right hleft hright =>
    rw [any_leaves_node] at h
    rw [contract]
    cases hle : left.isEmpty <;> cases hre : right.isEmpty
    · simp only [hle, hre, Bool.false_and, Bool.false_eq_true, if_false] at h ⊢
      rw [draw, draw, leaves_contract, leaves_contract, isEmpty_contract, isEmpty_contract]
      simp only [hle, hre, Bool.false_and, Bool.false_eq_true, if_false]
      cases hl : left.leaves.any tracks <;> cases hr : right.leaves.any tracks <;>
        simp only [hl, hr, hleft, hright]
    · have hr := leaves_of_isEmpty hre
      simp only [hle, hre, hr, Bool.false_and, Bool.false_eq_true, if_false, if_true, List.any_nil,
        Bool.or_false] at h ⊢
      rw [hleft h, draw]
      simp [hle, hr, h]
    · have hl := leaves_of_isEmpty hle
      simp only [hle, hre, hl, Bool.true_and, Bool.false_eq_true, if_false, if_true, List.any_nil,
        Bool.false_or] at h ⊢
      rw [hright h, draw]
      simp [hre, hl, h]
    · rw [draw]
      simp [hle, hre, leaf, draw]

lemma draw_map {h : α → β} {tracks' : β → Bool} (heq : ∀ a ∈ s.leaves, tracks' (h a) = tracks a) :
    (s.map h).draw tracks' coin asked =
      ((s.draw tracks coin asked).1.map h, (s.draw tracks coin asked).2) := by
  have hany : ∀ u : Shape α, (∀ a ∈ u.leaves, tracks' (h a) = tracks a) →
      (u.map h).leaves.any tracks' = u.leaves.any tracks := by
    intro u hu
    rw [leaves_map, List.any_map]
    exact any_congr_mem hu
  induction s generalizing asked with
  | empty => rfl
  | node a left right hleft hright =>
    rw [map, draw, draw, isEmpty_map, isEmpty_map]
    split
    · rfl
    · next hinner =>
      obtain ⟨hl, hr⟩ := forall_leaves_node heq hinner
      rw [hany left hl, hany right hr]
      cases left.leaves.any tracks <;> cases right.leaves.any tracks
      · rfl
      · exact hright hr
      · exact hleft hl
      · simp only
        split
        · exact hleft hl
        · exact hright hr

end Draw

end ForkTree.Shape
