import ForkTree.Proofs.StoppedCalls

/-!
A recorded tree next to one that is not recorded. Without its notes a recorded tree is a tree like any
other (`Tree.unrecorded`), and taking the notes away commutes with each step of each call, so the two take
the same calls in the same way, whatever paths are in use and whatever becomes of the log
(`Session.shadows_afterUsing`). There is one exception: the end of a recorded path has to read the path,
and stops if it may not, where a tree that is not recorded has nothing to read
(`Session.end_of_written_path`).
-/

namespace ForkTree

namespace Arena

variable {α β : Type} {f : α → β} {a : Arena α}

def map (f : α → β) (a : Arena α) : Arena β :=
  ⟨a.slots.map fun s => ⟨s.generation, s.value.map f⟩, a.free, a.size⟩

lemma get?_map (key : NodeKey) : (a.map f).get? key = (a.get? key).map f := by
  simp only [get?, slot?, map, Array.getElem?_map]
  cases a.slots[key.slot.toNat]? with
  | none => rfl
  | some s =>
    by_cases h : s.generation = key.generation
    · simp [Option.filter, h]
    · simp [Option.filter, h]

lemma insert_map (v : α) :
    (a.map f).insert (f v) = ((a.insert v).1, (a.insert v).2.map f) := by
  obtain ⟨slots, free, size⟩ := a
  cases free with
  | nil => simp [insert, map]
  | cons i free =>
    simp only [insert, map, Array.getElem?_map]
    cases slots[i.toNat]? <;> simp

lemma remove_map (key : NodeKey) :
    (a.map f).remove key = ((a.remove key).1.map f, (a.remove key).2.map f) := by
  simp only [remove, get?_map]
  cases a.get? key with
  | none => rfl
  | some v => simp [map]

lemma modify_map {change : α → α} {change' : β → β} (h : ∀ v, change' (f v) = f (change v))
    (key : NodeKey) : (a.map f).modify key change' = (a.modify key change).map f := by
  simp only [modify, get?_map]
  cases a.get? key with
  | none => rfl
  | some v => simp [map, h]

end Arena

namespace Node

def unnoted (n : Node) : Node := { n with note := none }

@[simp]
lemma isLeaf_unnoted (n : Node) : n.unnoted.isLeaf = n.isLeaf := by cases n; rfl

@[simp]
lemma hasSingleChild_unnoted (n : Node) : n.unnoted.hasSingleChild = n.hasSingleChild := by cases n; rfl

@[simp]
lemma modifyEdgeTo_unnoted (n : Node) (child : NodeKey) (change : Edge → Edge) :
    n.unnoted.modifyEdgeTo child change = (n.modifyEdgeTo child change).unnoted := by
  have hleft : n.unnoted.left = n.left := rfl
  have hright : n.unnoted.right = n.right := rfl
  rw [modifyEdgeTo, modifyEdgeTo, hleft, hright]
  split
  · rfl
  · split <;> rfl

end Node

namespace Tree

variable {t : Tree} {pool : Pool} {uses : Uses} {key : NodeKey}

/-- The tree as it is where nothing is recorded. -/
def unrecorded (t : Tree) : Tree :=
  { t with nodes := t.nodes.map Node.unnoted, recorded := false, nextId := 1 }

def Outcome.unrecorded {α : Type} (o : Outcome α) : Outcome α := { o with tree := o.tree.unrecorded }

@[simp]
lemma node?_unrecorded : t.unrecorded.node? key = (t.node? key).map Node.unnoted := Arena.get?_map key

@[simp]
lemma erase_unrecorded : t.unrecorded.erase key = (t.erase key).unrecorded := by
  simp only [erase, unrecorded, Arena.remove_map]

lemma modify_unrecorded (change : Node → Node) {change' : Node → Node}
    (h : ∀ n, change' n.unnoted = (change n).unnoted) :
    t.unrecorded.modify key change' = (t.modify key change).unrecorded := by
  simp only [modify, unrecorded, Arena.modify_map h]

lemma insertLeaf_unrecorded (parent : Option NodeKey) (path : PathRef) :
    t.unrecorded.insertLeaf parent path =
      ((t.insertLeaf parent path).1, (t.insertLeaf parent path).2.unrecorded) := by
  have h := Arena.insert_map (f := Node.unnoted) (a := t.nodes)
    (.leaf parent path (if t.recorded then some (.fresh ⟨t.nextId⟩) else none))
  simp only [insertLeaf, unrecorded, Bool.false_eq_true, if_false]
  change (t.nodes.map Node.unnoted).insert (.leaf parent path none) = _ at h
  rw [h]

lemma incomingTag_unrecorded : t.unrecorded.incomingTag key = t.incomingTag key := by
  have hedge : ∀ n : Node, n.unnoted.edgeTo? key = n.edgeTo? key := fun _ => rfl
  simp only [incomingTag, incoming?, node?_unrecorded]
  cases t.node? key with
  | none => rfl
  | some n =>
    have hparent : n.unnoted.parent = n.parent := rfl
    simp only [Option.map_some, hparent]
    cases n.parent with
    | none => rfl
    | some p =>
      simp only
      cases t.node? p with
      | none => rfl
      | some m => simp only [Option.map_some, Option.bind_some, hedge]

lemma addLeaf_unrecorded (parent : Option NodeKey) (path : PathRef) :
    t.unrecorded.addLeaf pool uses parent path = (t.addLeaf pool uses parent path).unrecorded := by
  simp only [addLeaf, insertLeaf_unrecorded]
  cases uses path <;> rfl

lemma forked_unnoted (left right : NodeKey) (tag : Mask) (reason : BranchReason) (line : UInt64)
    (n : Node) :
    forked left right tag reason line n.unnoted = (forked left right tag reason line n).unnoted :=
  rfl

lemma attach_unrecorded (left right : PathRef) (reason : BranchReason) :
    t.unrecorded.attach pool uses key left right reason =
      (t.attach pool uses key left right reason).unrecorded := by
  simp only [attach, node?_unrecorded, incomingTag_unrecorded, addLeaf_unrecorded]
  cases t.node? key with
  | none => rfl
  | some n =>
    simp only [Option.map_some, Node.isLeaf_unnoted]
    by_cases hleaf : (!n.isLeaf) = true
    · rw [if_pos hleaf, if_pos hleaf]
      rfl
    rw [if_neg hleaf, if_neg hleaf]
    by_cases hwritten : uses right = .writing
    · rw [if_pos hwritten, if_pos hwritten]
      rfl
    rw [if_neg hwritten, if_neg hwritten]
    by_cases hforeign : (pool.get? right).bind PathState.node ≠ some key
    · rw [if_pos hforeign, if_pos hforeign]
      rfl
    rw [if_neg hforeign, if_neg hforeign]
    -- Notes do not choose the slots, so both leaves get the keys that they get without them.
    generalize t.addLeaf pool uses (some key) left = added
    rcases added with ⟨_ | l, u, q⟩
    · rfl
    simp only [Outcome.unrecorded, addLeaf_unrecorded]
    generalize u.addLeaf q uses (some key) right = added
    rcases added with ⟨_ | r, v, q'⟩
    · rfl
    simp only
    rw [modify_unrecorded _ (forked_unnoted l r (t.incomingTag key) reason _)]

/-- The same result, with the notes taken away from the tree that is left. -/
lemma prune_unrecorded (fuel : Nat) (t : Tree) (key : NodeKey) :
    t.unrecorded.prune fuel key = ((t.prune fuel key).1, (t.prune fuel key).2.unrecorded) := by
  induction fuel generalizing t key with
  | zero => rfl
  | succ fuel ih =>
    have hparent : ((t.node? key).map Node.unnoted).bind Node.parent =
        (t.node? key).bind Node.parent := by cases t.node? key <;> rfl
    simp only [Tree.prune, node?_unrecorded, erase_unrecorded, hparent]
    cases (t.node? key).bind Node.parent with
    | none => rfl
    | some p =>
      simp only
      cases (t.erase key).node? p with
      | none => rfl
      | some n =>
        simp only [Option.map_some, Node.modifyEdgeTo_unnoted, Node.isLeaf_unnoted]
        rw [modify_unrecorded (fun _ => n.modifyEdgeTo key fun _ => .null) fun _ => rfl]
        split
        · exact ih _ p
        · rfl

lemma splice_unrecorded (t : Tree) (key : NodeKey) :
    t.unrecorded.splice key = ((t.splice key).1, (t.splice key).2.unrecorded) := by
  simp only [Tree.splice, node?_unrecorded, erase_unrecorded]
  cases t.node? key with
  | none => rfl
  | some n =>
    have hedge : (if n.unnoted.left.isNull then n.unnoted.right else n.unnoted.left) =
        if n.left.isNull then n.right else n.left := rfl
    have hparent : n.unnoted.parent = n.parent := rfl
    simp only [Option.map_some, Node.hasSingleChild_unnoted, hedge, hparent]
    by_cases hchildren : (!n.hasSingleChild) = true
    · rw [if_pos hchildren, if_pos hchildren]
    rw [if_neg hchildren, if_neg hchildren]
    cases (if n.left.isNull then n.right else n.left).target with
    | none => rfl
    | some child =>
      simp only
      rw [modify_unrecorded ({ · with parent := n.parent }) fun _ => rfl]
      cases n.parent with
      | none => rfl
      | some p =>
        simp only [node?_unrecorded]
        cases ((t.erase key).modify child ({ · with parent := some p })).node? p with
        | none => rfl
        | some m =>
          simp only [Option.map_some]
          rw [modify_unrecorded _ fun m => m.modifyEdgeTo_unnoted key _]

lemma takeOut_unrecorded (t : Tree) (key : NodeKey) :
    t.unrecorded.takeOut key = ((t.takeOut key).1, (t.takeOut key).2.unrecorded) := by
  have hsize : t.unrecorded.size = t.size := rfl
  simp only [Tree.takeOut, hsize, prune_unrecorded]
  rcases Tree.prune t.size t key with ⟨_ | _ | survivor, u⟩
  · rfl
  · rfl
  · have hcompress : u.unrecorded.compress = u.compress := rfl
    simp only [hcompress, splice_unrecorded]
    split <;> rfl

lemma isBlocked_unrecorded (t : Tree) (pool : Pool) (uses : Uses) (key : NodeKey) :
    t.unrecorded.isBlocked pool uses key = false := by
  rw [isBlocked, node?_unrecorded]
  cases t.node? key with
  | none => rfl
  | some n => exact Bool.and_false _

lemma removeRefusal?_unrecorded (t : Tree) (key : NodeKey) :
    t.unrecorded.removeRefusal? key = t.removeRefusal? key := by
  simp only [removeRefusal?, node?_unrecorded]
  cases t.node? key with
  | none => rfl
  | some n => simp only [Option.map_some, Node.isLeaf_unnoted]

/-- An end that is not blocked leaves the same behind, but for the note that it returns. -/
lemma remove_unrecorded (h : t.isBlocked pool uses key = false) :
    let o := t.remove pool uses key
    t.unrecorded.remove pool uses key = ⟨o.result.map fun _ => none, o.tree.unrecorded, o.pool⟩ := by
  simp only
  cases hrefused : t.removeRefusal? key with
  | some fault =>
    rw [remove_refused_using hrefused,
      remove_refused_using ((removeRefusal?_unrecorded t key).trans hrefused)]
    rfl
  | none =>
    obtain ⟨n, live, hleaf⟩ := removeRefusal?_eq_none hrefused
    have live' : t.unrecorded.node? key = some n.unnoted := by rw [node?_unrecorded, live]; rfl
    rw [remove_using live hleaf h,
      remove_using live' (n.isLeaf_unnoted.trans hleaf) (isBlocked_unrecorded t pool uses key),
      modify_unrecorded ({ · with bookmark := none }) fun _ => rfl, takeOut_unrecorded]
    simp only
    rcases (t.modify key ({ · with bookmark := none })).takeOut key with ⟨_ | _, u⟩ <;> rfl

lemma setKind_unrecorded (t : Tree) (path : PathState) (kind : TerminationKind) :
    t.unrecorded.setKind path kind = (t.setKind path kind).unrecorded := by
  unfold setKind
  cases path.node with
  | none => rfl
  | some key => exact modify_unrecorded _ fun _ => rfl

end Tree

/-! ### Sessions side by side -/

namespace Session

variable {σ τ : Type}

/-- The call would end a recorded path that is being written. -/
def Call.isBlocked (uses : Uses) (t : Tree) (pool : Pool) : Call → Bool
  | remove key => t.isBlocked pool uses key
  | _ => false

def isBlocked (uses : Uses) (x : Session σ) (call : Call) : Bool :=
  x.tracker.tree?.any fun t => call.isBlocked uses t x.pool

/-- Take calls one after the other, each while the engine uses its paths in its own way. -/
def afterUsing (hash : Digest.Hash) (storage : Storage σ) (x : Session σ) (calls : List (Uses × Call)) :
    Session σ :=
  calls.foldl (fun x c => (x.step hash storage c.1 c.2).2) x

def Unblocked (hash : Digest.Hash) (storage : Storage σ) : Session σ → List (Uses × Call) → Prop
  | _, [] => True
  | x, (uses, call) :: calls =>
    x.isBlocked uses call = false ∧ Unblocked hash storage (x.step hash storage uses call).2 calls

/-- The first session keeps the recorded tree of the second without its notes, and the same paths. -/
structure Shadows (y : Session τ) (x : Session σ) : Prop where
  exists_tree : ∃ r, x.tracker = .recorded r ∧ y.tracker = .live r.tree.unrecorded
  pool_eq : y.pool = x.pool

end Session

namespace Tree

lemma start_unrecorded (path : PathRef) (compress : Bool) (pool : Pool) :
    start path compress false pool =
      ((start path compress true pool).1.unrecorded, (start path compress true pool).2) := by
  have hbare : bare compress false = (bare compress true).unrecorded := by
    simp [bare, unrecorded, Arena.map, Arena.empty]
  rw [start, hbare, insertLeaf_unrecorded]
  rfl

/-- A call that is not blocked takes the same course without notes. -/
theorem onTree_unrecorded {t : Tree} {pool : Pool} {uses : Uses} {call : Session.Call}
    (h : call.isBlocked uses t pool = false) :
    call.onTree uses t.unrecorded pool = (call.onTree uses t pool).unrecorded := by
  cases call with
  | attach key left right reason =>
    simp only [Session.Call.onTree, attach_unrecorded]
    rfl
  | remove key =>
    simp only [Session.Call.onTree, remove_unrecorded h]
    cases (t.remove pool uses key).result <;> rfl
  | setKind path kind =>
    simp only [Session.Call.onTree, setKind_unrecorded]
    rfl
  | claimMask | commit | dump | engine => rfl

end Tree

namespace Session

variable {σ τ : Type} {hash hash' : Digest.Hash} {storage : Storage σ} {storage' : Storage τ}
  {x : Session σ} {y : Session τ} {uses : Uses} {call : Call}

lemma shadows_start (path : PathRef) (compress : Bool) (writer : Option Log.Writer) (pool : Pool)
    (s : σ) (s' : τ) :
    (live path compress pool s').Shadows (recording hash storage path compress writer pool s) := by
  have hstart := Tree.start_unrecorded path compress pool
  refine ⟨⟨(Recorded.start hash storage path compress writer pool s).1, rfl, ?_⟩, ?_⟩
  · rw [live, hstart, Recorded.tree_start]
  · rw [live, hstart]
    rfl

/-- A tracker that records goes on to. -/
lemma step_recorded (hash : Digest.Hash) (storage : Storage σ) (uses : Uses) {r : Recorded}
    (h : x.tracker = .recorded r) (call : Call) :
    ∃ r', (x.step hash storage uses call).2.tracker = .recorded r' := by
  obtain ⟨tracker, pool, s⟩ := x
  cases h
  cases call <;> exact ⟨_, rfl⟩

lemma Shadows.step (h : y.Shadows x) (hfree : x.isBlocked uses call = false) :
    (x.step hash storage uses call).1 = (y.step hash' storage' uses call).1 ∧
      (y.step hash' storage' uses call).2.Shadows (x.step hash storage uses call).2 := by
  obtain ⟨⟨r, hx, hy⟩, hpool⟩ := h
  have htree : x.tracker.tree? = some r.tree := by rw [hx]; rfl
  have htree' : y.tracker.tree? = some r.tree.unrecorded := by rw [hy]; rfl
  rw [isBlocked, htree, Option.any_some] at hfree
  have hsame := Tree.onTree_unrecorded hfree
  obtain ⟨hresult, hstep, hnext⟩ := step_onTree hash storage uses htree call
  obtain ⟨hresult', _, hnext'⟩ := step_onTree hash' storage' uses htree' call
  rw [hpool, hsame] at hresult' hnext'
  refine ⟨hresult.trans hresult'.symm, ?_, hnext'.trans hnext.symm⟩
  obtain ⟨r', hr'⟩ := step_recorded hash storage uses hx call
  rw [hr'] at hstep
  have hleft : r'.tree = (call.onTree uses r.tree x.pool).tree := Option.some.inj hstep
  refine ⟨r', hr', ?_⟩
  rw [step_live hash' storage' uses hy call, hpool, hsame, hleft]
  rfl

/-- A blocked call stops, and the session without a log takes it. -/
lemma Shadows.step_blocked (hash hash' : Digest.Hash) (storage : Storage σ) (storage' : Storage τ)
    (h : y.Shadows x) (hblocked : x.isBlocked uses call = true) :
    (x.step hash storage uses call).1 = .error .busy ∧
      (y.step hash' storage' uses call).1 ≠ .error .busy := by
  obtain ⟨⟨r, hx, hy⟩, hpool⟩ := h
  have htree : x.tracker.tree? = some r.tree := by rw [hx]; rfl
  have htree' : y.tracker.tree? = some r.tree.unrecorded := by rw [hy]; rfl
  rw [isBlocked, htree, Option.any_some] at hblocked
  obtain ⟨hresult, _⟩ := step_onTree hash storage uses htree call
  obtain ⟨hresult', _⟩ := step_onTree hash' storage' uses htree' call
  rw [hresult, hresult', hpool]
  cases call with
  | remove key =>
    obtain ⟨hallowed, hstops⟩ := Tree.remove_blocked hblocked
    constructor
    · simp only [Call.onTree, hstops]
      rfl
    · obtain ⟨n, live, hleaf⟩ :=
        Tree.removeRefusal?_eq_none ((Tree.removeRefusal?_unrecorded r.tree key).trans hallowed)
      simp only [Call.onTree]
      rw [Tree.remove_using live hleaf (Tree.isBlocked_unrecorded r.tree x.pool uses key)]
      have htaken := Tree.takesOut_takeOut (r.tree.unrecorded.modify key ({ · with bookmark := none })) key
      generalize (r.tree.unrecorded.modify key ({ · with bookmark := none })).takeOut key = taken at *
      intro hbusy
      rcases taken with ⟨fault | _, u⟩
      · obtain ⟨⟨dead, rfl⟩, _⟩ := htaken.stopped _ rfl
        cases hbusy
      · cases hbusy
  | _ => cases hblocked

lemma Shadows.afterUsing (h : y.Shadows x) {calls : List (Uses × Call)}
    (hfree : Unblocked hash storage x calls) :
    (y.afterUsing hash' storage' calls).Shadows (x.afterUsing hash storage calls) := by
  induction calls generalizing x y with
  | nil => exact h
  | cons c calls ih => exact ih (h.step hfree.1).2 hfree.2

/-- A tree that is recorded and one that is not take the same calls in the same way, as long as no call
is blocked; a call that is blocked tells them apart. -/
theorem shadows_afterUsing (path : PathRef) (compress : Bool) (writer : Option Log.Writer) (pool : Pool)
    (s : σ) (s' : τ) (calls : List (Uses × Call))
    (hfree : Unblocked hash storage (recording hash storage path compress writer pool s) calls) :
    let x := (recording hash storage path compress writer pool s).afterUsing hash storage calls
    let y := (live path compress pool s').afterUsing hash' storage' calls
    y.Shadows x ∧ ∀ uses call,
      ((x.step hash storage uses call).1 = (y.step hash' storage' uses call).1 ↔
        x.isBlocked uses call = false) := by
  intro x y
  have hshadows : y.Shadows x := (shadows_start path compress writer pool s s').afterUsing hfree
  refine ⟨hshadows, fun uses call => ⟨fun hsame => ?_, fun hcall => (hshadows.step hcall).1⟩⟩
  -- The results of a blocked call differ: one is a stop, and the other may fail but never stops so.
  rw [← Bool.not_eq_true]
  intro hblocked
  obtain ⟨hbusy, hnot⟩ := hshadows.step_blocked hash hash' storage storage' hblocked
  exact hnot (hsame ▸ hbusy)

/-- A fork with a path in use, the same fork again, and the end of the leaf that the first one left over. -/
theorem shadows_afterUsing_fork_and_end :
    let hash := Digest.Blake3.digest
    let storage := Storage.memory
    let pool : Pool := ⟨#[some (.fresh ⟨7⟩), some (.fresh ⟨8⟩)]⟩
    let uses : Uses := fun r => if r = ⟨1⟩ then .reading else .idle
    let fork : Call := .attach ⟨0, 0⟩ ⟨1⟩ ⟨0⟩ .conditional
    let calls := [(uses, fork), (Uses.none, fork), (uses, .remove ⟨1, 0⟩)]
    let x := (recording hash storage ⟨0⟩ true none pool .empty).afterUsing hash storage calls
    let y := (live ⟨0⟩ true pool .empty).afterUsing hash storage calls
    Unblocked hash storage (recording hash storage ⟨0⟩ true none pool .empty) calls ∧ y.Shadows x :=
  have hfree := ⟨by decide, by decide, by decide, trivial⟩
  ⟨hfree, (shadows_afterUsing ⟨0⟩ true none _ Storage.Memory.empty Storage.Memory.empty _ hfree).1⟩

/-- The end of a path that is being written stops where it is recorded and goes through where it is not. -/
theorem end_of_written_path :
    let hash := Digest.Blake3.digest
    let storage := Storage.memory
    let pool : Pool := ⟨#[some (.fresh ⟨7⟩)]⟩
    let x := (recording hash storage ⟨0⟩ true none pool .empty).step hash storage (fun _ => .writing)
      (.remove ⟨0, 0⟩)
    let y := (live ⟨0⟩ true pool .empty).step hash storage (fun _ => .writing) (.remove ⟨0, 0⟩)
    x.1 = .error .busy ∧ y.1 = .ok () ∧ x.2.tracker.tree?.map Tree.size = some 1 ∧
      y.2.tracker.tree?.map Tree.size = some 0 := by
  decide

end Session

end ForkTree
