import ForkTree.Proofs.Session

/-!
Calls that come while the engine uses some of its paths. A fork needs the right path for reading, to see
where it is, and then both paths for writing, one after the other, so it may stop with leaves behind that
belong to nothing (`attach_left_used`, `attach_right_used`). An end needs the path at a recorded leaf for
reading, and stops without its bookmark if it cannot have it (`remove_blocked`). No other call depends on
the use of paths but for whom it tells of an end (`onTree_using`), so a call that succeeds keeps the
invariant of a live tree as if no path were in use (`Shows.onTree_using`). The arena stays valid whatever
comes of a call (`keepsArena_onTree`).
-/

namespace ForkTree

namespace Tree

variable {t : Tree} {pool : Pool} {uses : Uses} {key : NodeKey} {left right : PathRef}
  {reason : BranchReason}

lemma addLeaf_idle (h : uses left = .idle) (parent : Option NodeKey) :
    t.addLeaf pool uses parent left =
      ⟨.ok (t.insertLeaf parent left).1, (t.insertLeaf parent left).2,
        pool.setNode left (some (t.insertLeaf parent left).1)⟩ := by
  simp only [addLeaf, h]

lemma addLeaf_used (h : uses left ≠ .idle) (parent : Option NodeKey) :
    t.addLeaf pool uses parent left = ⟨.error .busy, (t.insertLeaf parent left).2, pool⟩ := by
  simp only [addLeaf]

/-- A fork whose precondition does not hold changes nothing, whatever is in use. -/
lemma attach_refused_using {fault : Fault} (h : t.attachRefusal? pool key right = some fault)
    (uses : Uses) (left : PathRef) (reason : BranchReason) :
    ∃ fault', t.attach pool uses key left right reason = ⟨.error fault', t, pool⟩ ∧
      (fault' = .busy ∨ fault' = fault) := by
  unfold attachRefusal? at h
  split at h
  · next live =>
    cases h
    exact ⟨.dead key, by simp only [attach, live], .inr rfl⟩
  · next n live =>
    split at h
    · next hleaf =>
      cases h
      exact ⟨.attachToInner key, by simp only [attach, live, hleaf, if_true], .inr rfl⟩
    · next hleaf =>
      split at h
      · next hright =>
        cases h
        by_cases hwriting : uses right = .writing
        · refine ⟨.busy, ?_, .inl rfl⟩
          simp only [attach, live, hleaf, hwriting, Bool.false_eq_true, if_false, if_true]
        · refine ⟨.foreignRight, ?_, .inr rfl⟩
          simp only [attach, live, hleaf, hwriting, Bool.false_eq_true, if_false]
          rw [if_pos hright]
      · cases h

/-- Where the right path is cannot be seen while it is being written. -/
lemma attach_right_written (h : t.attachRefusal? pool key right = none) (hright : uses right = .writing)
    (left : PathRef) (reason : BranchReason) :
    t.attach pool uses key left right reason = ⟨.error .busy, t, pool⟩ := by
  obtain ⟨n, live, hleaf, _⟩ := attachRefusal?_eq_none h
  simp only [attach, live, hleaf, hright, Bool.not_true, Bool.false_eq_true, if_false, if_true]

/-- A fork adds its leaves one after the other, and stops at a path that is in use. -/
lemma attach_unwritten (h : t.attachRefusal? pool key right = none) (hright : uses right ≠ .writing)
    (left : PathRef) (reason : BranchReason) :
    t.attach pool uses key left right reason =
      match t.addLeaf pool uses (some key) left with
      | ⟨.error fault, u, pool⟩ => ⟨.error fault, u, pool⟩
      | ⟨.ok l, u, pool'⟩ =>
        match u.addLeaf pool' uses (some key) right with
        | ⟨.error fault, v, pool⟩ => ⟨.error fault, v, pool⟩
        | ⟨.ok r, v, pool''⟩ =>
          ⟨.ok (l, r), v.modify key (forked l r (t.incomingTag key) reason (pool.lineOf right)), pool''⟩ := by
  obtain ⟨n, live, hleaf, hat⟩ := attachRefusal?_eq_none h
  simp only [attach, live, hleaf, hright, hat, Bool.not_true, Bool.false_eq_true, if_false,
    ne_eq, not_true_eq_false]
  rfl

lemma attach_left_used (h : t.attachRefusal? pool key right = none) (hright : uses right ≠ .writing)
    (hleft : uses left ≠ .idle) (reason : BranchReason) :
    t.attach pool uses key left right reason =
      ⟨.error .busy, (t.insertLeaf (some key) left).2, pool⟩ := by
  rw [attach_unwritten h hright, addLeaf_used hleft]

lemma attach_right_used (h : t.attachRefusal? pool key right = none) (hleft : uses left = .idle)
    (hright : uses right = .reading) (reason : BranchReason) :
    let u := (t.insertLeaf (some key) left).2
    t.attach pool uses key left right reason =
      ⟨.error .busy, (u.insertLeaf (some key) right).2,
        pool.setNode left (some (t.insertLeaf (some key) left).1)⟩ := by
  rw [attach_unwritten h (by rw [hright]; decide), addLeaf_idle hleft]
  simp only
  rw [addLeaf_used (by rw [hright]; decide)]

lemma attach_unused (h : t.attachRefusal? pool key right = none) (hleft : uses left = .idle)
    (hright : uses right = .idle) (reason : BranchReason) :
    t.attach pool uses key left right reason = t.attach pool .none key left right reason := by
  have hnone : ∀ path, Uses.none path = .idle := fun _ => rfl
  have hunwritten : Uses.none right ≠ .writing := nofun
  rw [attach_unwritten h (by rw [hright]; decide), attach_unwritten h hunwritten, addLeaf_idle hleft,
    addLeaf_idle (hnone left)]
  simp only
  rw [addLeaf_idle hright, addLeaf_idle (hnone right)]

/-- What a fork comes to: it is refused, it cannot see where the right path is, it stops at the left path or
at the right one, or no path that it needs is in use. -/
theorem attach_cases (t : Tree) (pool : Pool) (uses : Uses) (key : NodeKey) (left right : PathRef)
    (reason : BranchReason) :
    let o := t.attach pool uses key left right reason
    let u := (t.insertLeaf (some key) left).2
    (∃ asserted fault, t.attachRefusal? pool key right = some asserted ∧
      (fault = .busy ∨ fault = asserted) ∧ o = ⟨.error fault, t, pool⟩) ∨
    t.attachRefusal? pool key right = none ∧
      (uses right = .writing ∧ o = ⟨.error .busy, t, pool⟩ ∨
        uses right ≠ .writing ∧ uses left ≠ .idle ∧ o = ⟨.error .busy, u, pool⟩ ∨
        uses right = .reading ∧ uses left = .idle ∧
          o = ⟨.error .busy, (u.insertLeaf (some key) right).2,
            pool.setNode left (some (t.insertLeaf (some key) left).1)⟩ ∨
        uses right = .idle ∧ uses left = .idle ∧ o = t.attach pool .none key left right reason) := by
  intro o u
  cases hrefused : t.attachRefusal? pool key right with
  | some asserted =>
    obtain ⟨fault, heq, hfault⟩ := attach_refused_using hrefused uses left reason
    exact .inl ⟨asserted, fault, rfl, hfault, heq⟩
  | none =>
    refine .inr ⟨rfl, ?_⟩
    -- The right path is looked at first, but only to see where it is; the leaf of the left one is added first.
    by_cases hleft : uses left = .idle
    · cases hright : uses right with
      | writing => exact .inl ⟨rfl, attach_right_written hrefused hright left reason⟩
      | reading => exact .inr (.inr (.inl ⟨rfl, hleft, attach_right_used hrefused hleft hright reason⟩))
      | idle => exact .inr (.inr (.inr ⟨rfl, hleft, attach_unused hrefused hleft hright reason⟩))
    · by_cases hright : uses right = .writing
      · exact .inl ⟨hright, attach_right_written hrefused hright left reason⟩
      · exact .inr (.inl ⟨hright, hleft, attach_left_used hrefused hright hleft reason⟩)

lemma remove_blocked (h : t.isBlocked pool uses key = true) :
    t.removeRefusal? key = none ∧
      t.remove pool uses key = ⟨.error .busy, t.modify key ({ · with bookmark := none }), pool⟩ := by
  unfold isBlocked at h
  cases live : t.node? key with
  | none =>
    rw [live] at h
    cases h
  | some n =>
    rw [live, Option.any_some, Bool.and_eq_true] at h
    obtain ⟨hleaf, hread⟩ := h
    constructor
    · simp only [removeRefusal?, live, hleaf, Bool.not_true, Bool.false_eq_true, if_false]
    · simp only [remove, live, hleaf, hread, Bool.not_true, Bool.false_eq_true, if_false, if_true]

/-- What an end comes to: it may not read its path, it is refused, or it takes its leaf out. -/
theorem remove_cases (t : Tree) (pool : Pool) (uses : Uses) (key : NodeKey) :
    let o := t.remove pool uses key
    t.isBlocked pool uses key = true ∧ t.removeRefusal? key = none ∧
      o = ⟨.error .busy, t.modify key ({ · with bookmark := none }), pool⟩ ∨
    (∃ fault, t.removeRefusal? key = some fault ∧ o = ⟨.error fault, t, pool⟩) ∨
    ∃ n, t.node? key = some n ∧ n.isLeaf = true ∧ t.removeRefusal? key = none ∧
      let taken := (t.modify key ({ · with bookmark := none })).takeOut key
      o = ⟨taken.1.map fun _ => finalNote n.note (n.bookmark.bind pool.get?), taken.2,
        n.bookmark.elim pool (release pool uses key)⟩ := by
  intro o
  cases hblocked : t.isBlocked pool uses key with
  | true => exact .inl ⟨rfl, remove_blocked hblocked⟩
  | false =>
    cases hrefused : t.removeRefusal? key with
    | some fault => exact .inr (.inl ⟨fault, rfl, remove_refused_using hrefused pool uses⟩)
    | none =>
      obtain ⟨n, live, hleaf⟩ := removeRefusal?_eq_none hrefused
      exact .inr (.inr ⟨n, live, hleaf, rfl, remove_using live hleaf hblocked⟩)

/-- Unless a path in use stops it, a call does to the tree what it does while no path is in use. -/
theorem onTree_using {call : Session.Call} (h : (call.onTree uses t pool).result ≠ .error .busy) :
    (call.onTree uses t pool).result = (call.onTree .none t pool).result ∧
      (call.onTree uses t pool).tree = (call.onTree .none t pool).tree := by
  cases call with
  | attach key left right reason =>
    simp only [Session.Call.onTree] at h ⊢
    rcases t.attach_cases pool uses key left right reason with
      ⟨asserted, fault, hrefused, rfl | rfl, heq⟩ | ⟨_, ⟨_, heq⟩ | ⟨_, _, heq⟩ | ⟨_, _, heq⟩ | ⟨_, _, heq⟩⟩
    · exact absurd (by rw [heq]; rfl) h
    · rw [heq, attach_refused hrefused]
      exact ⟨rfl, rfl⟩
    · exact absurd (by rw [heq]; rfl) h
    · exact absurd (by rw [heq]; rfl) h
    · exact absurd (by rw [heq]; rfl) h
    · rw [heq]
      exact ⟨rfl, rfl⟩
  | remove key =>
    simp only [Session.Call.onTree] at h ⊢
    rcases t.remove_cases pool uses key with
      ⟨_, _, heq⟩ | ⟨fault, hrefused, heq⟩ | ⟨n, live, hleaf, _, heq⟩
    · exact absurd (by rw [heq]; rfl) h
    · rw [heq, remove_refused hrefused]
      exact ⟨rfl, rfl⟩
    · rw [heq, remove_eq live hleaf]
      exact ⟨rfl, rfl⟩
  | setKind | claimMask | commit | dump | engine => exact ⟨rfl, rfl⟩

/-- A call that succeeds keeps the invariant, whatever is in use. -/
lemma Shows.onTree_using {s : Shape Cell} (h : t.Shows s) {call : Session.Call}
    (hok : (call.onTree uses t pool).result = .ok ())
    (hsmall : (call.onTree uses t pool).tree.nodes.slots.size ≤ UInt32.size) :
    ∃ s, (call.onTree uses t pool).tree.Shows s := by
  obtain ⟨hresult, htree⟩ := Tree.onTree_using (by rw [hok]; nofun)
  rw [htree] at hsmall ⊢
  cases hrefused : call.refusal? t pool with
  | some fault =>
    rw [hok, onTree_refused hrefused] at hresult
    cases hresult
  | none => exact (h.onTree hrefused hsmall).2.2

/-! ### The arena -/

/-- What every operation on a tree does with its arena. -/
structure KeepsArena (t u : Tree) : Prop where
  valid : t.nodes.IsValid → u.nodes.IsValid
  slots_le : t.nodes.slots.size ≤ u.nodes.slots.size

namespace KeepsArena

lemma refl (t : Tree) : t.KeepsArena t := ⟨id, Nat.le_refl _⟩

lemma trans {t u v : Tree} (h : t.KeepsArena u) (h' : u.KeepsArena v) : t.KeepsArena v :=
  ⟨h'.valid ∘ h.valid, Nat.le_trans h.slots_le h'.slots_le⟩

lemma modify (t : Tree) (key : NodeKey) (change : Node → Node) : t.KeepsArena (t.modify key change) :=
  ⟨fun h => h.modify key change, Nat.le_of_eq (Arena.slots_size_modify _ _ _).symm⟩

lemma insertLeaf (t : Tree) (parent : Option NodeKey) (path : PathRef) :
    t.KeepsArena (t.insertLeaf parent path).2 :=
  ⟨fun h => h.insert _, slots_size_insertLeaf t parent path⟩

lemma takeOut (t : Tree) (key : NodeKey) : t.KeepsArena (t.takeOut key).2 :=
  ⟨(takesOut_takeOut t key).valid,
    Nat.le_of_eq (congrArg (·.2.2.2.2) (takesOut_takeOut t key).settings_eq).symm⟩

/-- Two leaves are added one after the other. -/
lemma insertLeaf_insertLeaf (t : Tree) (parent : Option NodeKey) (left right : PathRef) :
    t.KeepsArena ((t.insertLeaf parent left).2.insertLeaf parent right).2 :=
  (insertLeaf t parent left).trans (insertLeaf _ parent right)

end KeepsArena

/-- A call keeps the arena valid and takes no slots away, whatever is in use and whether it succeeds or
not. -/
theorem keepsArena_onTree (uses : Uses) (t : Tree) (pool : Pool) (call : Session.Call) :
    t.KeepsArena (call.onTree uses t pool).tree := by
  cases call with
  | attach key left right reason =>
    simp only [Session.Call.onTree]
    rcases t.attach_cases pool uses key left right reason with
      ⟨_, _, _, _, heq⟩ | ⟨hallowed, ⟨_, heq⟩ | ⟨_, _, heq⟩ | ⟨_, _, heq⟩ | ⟨_, _, heq⟩⟩
    · rw [heq]
      exact .refl t
    · rw [heq]
      exact .refl t
    · rw [heq]
      exact .insertLeaf t (some key) left
    · rw [heq]
      exact .insertLeaf_insertLeaf t (some key) left right
    · rw [heq, attach_eq hallowed]
      exact (KeepsArena.insertLeaf_insertLeaf t (some key) left right).trans (.modify _ key _)
  | remove key =>
    simp only [Session.Call.onTree]
    rcases t.remove_cases pool uses key with ⟨_, _, heq⟩ | ⟨_, _, heq⟩ | ⟨n, _, _, _, heq⟩
    · rw [heq]
      exact .modify t key _
    · rw [heq]
      exact .refl t
    · rw [heq]
      exact (KeepsArena.modify t key _).trans (.takeOut _ key)
  | setKind path kind =>
    simp only [Session.Call.onTree, setKind]
    split
    · exact .modify t _ _
    · exact .refl t
  | claimMask => exact ⟨id, Nat.le_refl _⟩
  | commit | dump | engine => exact .refl t

end Tree

end ForkTree
