import ForkTree.Proofs.Compression
import ForkTree.Proofs.KeyLife
import ForkTree.Proofs.SnapshotMap

/-!
What a snapshot says of the past. An exporter that is never reset sees the live tree at some points of a
run; a `View` is what it sees at one of them. `Snapshot.Recounts` says that a snapshot holds one record
for each node that was live in some view, with its children in the order in which they came up and what
its path looked like when it could last be read. One export adds one view (`Recounts.insert`), and so the
snapshot recounts all exports of a run (`Watch.recounts_after`), where a key means the same node in all of
them.
-/

namespace ForkTree

open Shape

/-- What an export sees. -/
structure View where
  tree : Tree
  pool : Pool
  uses : Uses

namespace View

def isLive (v : View) (key : NodeKey) : Bool := v.tree.nodes.contains key

def children (v : View) (key : NodeKey) : List NodeKey :=
  (v.tree.node? key).elim [] Node.children

/-- The path that a node bookmarks, if the engine keeps it and is not writing it. -/
def path? (v : View) (key : NodeKey) : Option PathState := do
  let n ← v.tree.node? key
  let path ← n.bookmark
  if v.uses path = .writing then none else v.pool.get? path

/-- The children that a node had, each where it came up first. -/
def childrenIn (views : List View) (key : NodeKey) : List NodeKey :=
  (views.flatMap (·.children key)).eraseDups

/-- The path of a node as it was when it could last be read. -/
def lastPath? (views : List View) (key : NodeKey) : Option PathState :=
  (views.filterMap (·.path? key)).getLast?

/-- The record of a node that was live in some view. -/
def recordIn? (views : List View) (key : NodeKey) : Option Snapshot.Record :=
  if views.any (·.isLive key) then
    some ⟨key.shown, (childrenIn views key).map NodeKey.shown, (lastPath? views key).map Exporter.attributes⟩
  else none

end View

/-- A snapshot holds one record for each node that was live in some view, and no other records. -/
structure Snapshot.Recounts (s : Snapshot) (views : List View) : Prop where
  nodup : s.names.Nodup
  mem_names : ∀ name, name ∈ s.names ↔
    ∃ key, NodeKey.shown key = name ∧ ∃ v ∈ views, v.isLive key = true
  get?_eq : ∀ key, s.get? (NodeKey.shown key) = View.recordIn? views key

/-- A session that is exported from time to time. -/
structure Watch (σ : Type) where
  session : Session σ
  exporter : Exporter

namespace Watch

variable {σ : Type}

/-- A call on the session, or an export while the engine uses its paths in some way. -/
inductive Act where
  | call (call : Session.Call)
  | dump (uses : Uses)

def step (hash : Digest.Hash) (storage : Storage σ) (w : Watch σ) : Act → Watch σ
  | .call call => { w with session := (w.session.step hash storage .none call).2 }
  | .dump uses =>
    let (tracker, exporter, s) :=
      w.session.tracker.dump hash storage w.session.pool uses w.exporter w.session.storage
    ⟨⟨tracker, w.session.pool, s⟩, exporter⟩

def after (hash : Digest.Hash) (storage : Storage σ) (w : Watch σ) (acts : List Act) : Watch σ :=
  acts.foldl (step hash storage) w

/-- What an act sees of the session. -/
def view? (w : Watch σ) : Act → Option View
  | .call _ => none
  | .dump uses => w.session.tracker.tree?.map fun t => ⟨t, w.session.pool, uses⟩

/-- What the exports among some acts see, in their order. -/
def views (hash : Digest.Hash) (storage : Storage σ) : Watch σ → List Act → List View
  | _, [] => []
  | w, act :: acts => (w.view? act).toList ++ views hash storage (w.step hash storage act) acts

/-- The snapshot after some acts recounts what the exports among them saw. -/
def Recounts (hash : Digest.Hash) (storage : Storage σ) (w : Watch σ) (acts : List Act) : Prop :=
  (w.after hash storage acts).exporter.snapshot.Recounts (w.views hash storage acts)

def nodes (w : Watch σ) : Arena Node := (w.session.tracker.tree?.map Tree.nodes).getD .empty

/-- The nodes after the first acts. -/
def nodesAt (hash : Digest.Hash) (storage : Storage σ) (w : Watch σ) (acts : List Act) (k : Nat) :
    Arena Node :=
  (w.after hash storage (acts.take k)).nodes

end Watch

namespace Tree

lemma Unfolds.target_mem {t : Tree} {parent : Option NodeKey} {e : Edge} {s : Shape (NodeKey × Node)}
    (h : t.Unfolds parent e s) {key : NodeKey} (hkey : e.target = some key) :
    key ∈ s.preorder.map Prod.fst := by
  cases h with
  | nowhere null =>
    rw [null] at hkey
    cases hkey
  | node target =>
    rw [target] at hkey
    cases hkey
    exact List.mem_cons_self

lemma Unfolds.nodup_children {t : Tree} {parent : Option NodeKey} {e : Edge}
    {s : Shape (NodeKey × Node)} (h : t.Unfolds parent e s) (hnodup : (s.preorder.map Prod.fst).Nodup) :
    ∀ p ∈ s.preorder, p.2.children.Nodup := by
  induction h with
  | nowhere =>
    intro p hp
    cases hp
  | @node _ _ key n left right target live linked hleft hright ihl ihr =>
    rw [Shape.preorder, List.map_cons, List.map_append, List.nodup_cons, List.nodup_append'] at hnodup
    obtain ⟨_, hl, hr, hdisjoint⟩ := hnodup
    intro p hp
    rw [Shape.preorder, List.mem_cons, List.mem_append] at hp
    rcases hp with rfl | hp | hp
    · rw [Node.children]
      cases hlt : n.left.target with
      | none => cases n.right.target <;> simp
      | some l =>
        cases hrt : n.right.target with
        | none => simp
        | some r =>
          have hne : l ≠ r := by
            rintro rfl
            exact hdisjoint (hleft.target_mem hlt) (hright.target_mem hrt)
          simp [hne]
    · exact ihl hl p hp
    · exact ihr hr p hp

/-- The walk from right to left meets each node once. -/
lemma Unfolds.belowRightFirst_perm {t : Tree} {parent : Option NodeKey} {e : Edge}
    {s : Shape (NodeKey × Node)} (h : t.Unfolds parent e s) {fuel : Nat} (hfuel : s.height ≤ fuel) :
    (e.target.toList.flatMap (t.belowRightFirst fuel)).Perm s.preorder := by
  induction h generalizing fuel with
  | nowhere null => rw [null]; exact .nil
  | @node _ _ key n left right target live linked hleft hright ihl ihr =>
    rw [height] at hfuel
    obtain ⟨fuel, rfl⟩ : ∃ m, fuel = m + 1 := ⟨fuel - 1, by omega⟩
    have hl := @ihl fuel (by omega)
    have hr := @ihr fuel (by omega)
    have hreverse : ∀ o : Option NodeKey, o.toList.reverse = o.toList := fun o => by cases o <;> rfl
    rw [target, Option.toList_some, List.flatMap_singleton, Tree.belowRightFirst, live, Shape.preorder]
    simp only [Node.children, List.reverse_append, hreverse, List.flatMap_append]
    exact (List.perm_append_comm.trans (hl.append hr)).cons _

lemma Holds.preorderRightFirst_perm {t : Tree} {s : Shape (NodeKey × Node)} (h : t.Holds s) :
    t.preorderRightFirst.Perm s.preorder :=
  h.unfolds.belowRightFirst_perm (by rw [h.size_eq]; exact height_le_size s)

/-- A walk meets nodes of the tree, each under its own key. -/
lemma node?_of_mem_belowRightFirst {t : Tree} {fuel : Nat} {key : NodeKey} {p : NodeKey × Node}
    (h : p ∈ t.belowRightFirst fuel key) : t.node? p.1 = some p.2 := by
  induction fuel generalizing key with
  | zero => cases h
  | succ fuel ih =>
    rw [belowRightFirst] at h
    cases live : t.node? key with
    | none =>
      rw [live] at h
      cases h
    | some n =>
      simp only [live] at h
      rcases List.mem_cons.1 h with rfl | h
      · exact live
      · obtain ⟨child, _, hchild⟩ := List.mem_flatMap.1 h
        exact ih hchild

lemma node?_of_mem_preorderRightFirst {t : Tree} {p : NodeKey × Node} (h : p ∈ t.preorderRightFirst) :
    t.node? p.1 = some p.2 := by
  obtain ⟨_, _, hp⟩ := List.mem_flatMap.1 h
  exact node?_of_mem_belowRightFirst hp

end Tree

namespace Exporter

lemma readable?_eq {v : View} {key : NodeKey} {n : Node} (live : v.tree.node? key = some n) :
    readable? n v.pool v.uses = v.path? key := by
  simp only [readable?, Node.path?, View.path?, live, Option.bind_eq_bind, Option.bind_some]
  cases n.bookmark with
  | none => rfl
  | some path =>
    cases hstate : v.pool.get? path with
    | none => simp [Option.filter, Pool.isAlive, hstate]
    | some state => by_cases huse : v.uses path = .writing <;> simp [Option.filter, Pool.isAlive, hstate, huse]

section

variable {t : Tree} {nodes : Shape (NodeKey × Node)} {pool : Pool} {uses : Uses}

lemma name_record (pool : Pool) (uses : Uses) (key : NodeKey) (n : Node) :
    (record pool uses key n).name = key.shown := rfl

lemma nodup_records (h : t.Holds nodes) (pool : Pool) (uses : Uses) :
    ((records t pool uses).map Snapshot.Record.name).Nodup := by
  have hnames : (records t pool uses).map Snapshot.Record.name =
      (t.preorderRightFirst.map Prod.fst).map NodeKey.shown := by
    rw [records, List.map_map, List.map_map]
    exact List.map_congr_left fun _ _ => rfl
  have hperm := h.preorderRightFirst_perm.map Prod.fst
  rw [hnames, List.nodup_map_iff NodeKey.shown_injective]
  exact hperm.nodup_iff.2 h.nodup

/-- Each live node has its record in an export, and nothing else has. -/
lemma get?_records (h : t.Holds nodes) (pool : Pool) (uses : Uses) (key : NodeKey) :
    Snapshot.get? ⟨records t pool uses⟩ key.shown = (t.node? key).map (record pool uses key) := by
  cases live : t.node? key with
  | some n =>
    have hn : record pool uses key n ∈ records t pool uses :=
      List.mem_map.2 ⟨(key, n), h.preorderRightFirst_perm.mem_iff.2 (h.complete key n live), rfl⟩
    have hget := Snapshot.get?_of_mem (nodup_records h pool uses) hn
    rwa [name_record] at hget
  | none =>
    refine Option.eq_none_iff_forall_ne_some.2 fun r hr => ?_
    obtain ⟨⟨key', n⟩, hn, rfl⟩ := List.mem_map.1 (List.mem_of_find?_eq_some hr)
    have hkey : key' = key := NodeKey.shown_injective (Snapshot.name_of_get? hr)
    have hlive : t.node? key' = some n := Tree.node?_of_mem_preorderRightFirst hn
    rw [hkey, live] at hlive
    cases hlive

lemma exists_record (h : t.Holds nodes) (pool : Pool) (uses : Uses) (name : String) :
    (∃ r ∈ records t pool uses, r.name = name) ↔
      ∃ key, NodeKey.shown key = name ∧ (t.node? key).isSome = true := by
  constructor
  · rintro ⟨r, hr, rfl⟩
    obtain ⟨⟨key, n⟩, hn, rfl⟩ := List.mem_map.1 hr
    have live : t.node? key = some n := Tree.node?_of_mem_preorderRightFirst hn
    exact ⟨key, rfl, by rw [live]; rfl⟩
  · rintro ⟨key, rfl, hlive⟩
    obtain ⟨n, live⟩ := Option.isSome_iff_exists.1 hlive
    refine ⟨_, List.mem_map.2 ⟨(key, n), ?_, rfl⟩, rfl⟩
    exact h.preorderRightFirst_perm.mem_iff.2 (h.complete key n live)

end

end Exporter

namespace View

variable {views : List View} {v : View} {key : NodeKey}

lemma isLive_eq (v : View) (key : NodeKey) : v.isLive key = (v.tree.node? key).isSome := rfl

/-- Nothing is known of a node that was never live. -/
lemma eq_nil_of_not_isLive (h : ∀ v ∈ views, v.isLive key = false) :
    views.flatMap (·.children key) = [] ∧ views.filterMap (·.path? key) = [] := by
  have hnone : ∀ v ∈ views, v.tree.node? key = none := fun v hv => by
    simpa [isLive_eq] using h v hv
  constructor
  · rw [List.flatMap_eq_nil_iff]
    intro v hv
    rw [children, hnone v hv, Option.elim_none]
  · rw [List.filterMap_eq_nil_iff]
    intro v hv
    rw [path?, hnone v hv]
    rfl

lemma recordIn?_of_dead (h : v.tree.node? key = none) :
    recordIn? (views ++ [v]) key = recordIn? views key := by
  have hlive : v.isLive key = false := by rw [isLive_eq, h]; rfl
  have hchildren : v.children key = [] := by rw [children, h, Option.elim_none]
  have hpath : v.path? key = none := by rw [path?, h]; rfl
  simp [recordIn?, childrenIn, lastPath?, hlive, hchildren, hpath]

/-- A further view of a node adds what an export inserts for it. -/
lemma recordIn?_of_live {n : Node} (live : v.tree.node? key = some n) (hnodup : n.children.Nodup) :
    recordIn? (views ++ [v]) key =
      some ((Exporter.record v.pool v.uses key n).onto (recordIn? views key)) := by
  have hlive : v.isLive key = true := by rw [isLive_eq, live]; rfl
  have hchildren : childrenIn (views ++ [v]) key =
      (views.flatMap (·.children key) ++ n.children).eraseDups := by
    rw [childrenIn, List.flatMap_append, List.flatMap_singleton, children, live, Option.elim_some]
  have hpath : lastPath? (views ++ [v]) key = (v.path? key).or (lastPath? views key) := by
    rw [lastPath?, List.filterMap_append, List.getLast?_append, lastPath?]
    cases hlast : v.path? key <;> simp [hlast]
  have hrecord : recordIn? (views ++ [v]) key =
      some ⟨key.shown, (childrenIn (views ++ [v]) key).map NodeKey.shown,
        (lastPath? (views ++ [v]) key).map Exporter.attributes⟩ := by
    rw [recordIn?, if_pos (by simp [hlive])]
  rw [hrecord, hchildren, hpath]
  -- The first record of a node is taken as it is, and any other one is absorbed.
  cases hknown : views.any (·.isLive key) with
  | false =>
    obtain ⟨hnil, hnil'⟩ := eq_nil_of_not_isLive fun u hu => by simpa using List.any_eq_false.1 hknown u hu
    rw [recordIn?, hknown, if_neg Bool.false_ne_true, lastPath?, hnil, hnil', List.nil_append,
      Snapshot.eraseDups_of_nodup hnodup, Snapshot.Record.onto, Option.elim_none, Exporter.record,
      Exporter.readable?_eq live, List.getLast?_nil, Option.or_none]
  | true =>
    rw [recordIn?, hknown, if_pos rfl, Snapshot.Record.onto, Option.elim_some, Snapshot.Record.absorb,
      Exporter.record, childrenIn, Snapshot.addChildren_map NodeKey.shown_injective,
      Exporter.readable?_eq live]
    cases v.path? key <;> rfl

end View

namespace Snapshot

lemma recounts_empty : Snapshot.empty.Recounts [] where
  nodup := .nil
  mem_names name := by simp [names, empty]
  get?_eq _ := rfl

theorem Recounts.insert {s : Snapshot} {views : List View} (h : s.Recounts views) {v : View}
    {nodes : Shape (NodeKey × Node)} (hv : v.tree.Holds nodes) :
    (s.insertAll (Exporter.records v.tree v.pool v.uses)).Recounts (views ++ [v]) where
  nodup := nodup_names_insertAll h.nodup _
  mem_names name := by
    rw [mem_names_insertAll, h.mem_names, Exporter.exists_record hv, ← exists_or]
    simp only [List.mem_append, List.mem_singleton, or_and_right, exists_or, exists_eq_left, and_or_left]
    rfl
  get?_eq key := by
    rw [get?_insertAll s (Exporter.nodup_records hv v.pool v.uses), Exporter.get?_records hv, h.get?_eq]
    cases live : v.tree.node? key with
    | none => rw [Option.map_none, Option.elim_none, View.recordIn?_of_dead live]
    | some n =>
      have hnodup := hv.unfolds.nodup_children hv.nodup _ (hv.complete key n live)
      rw [Option.map_some, Option.elim_some, View.recordIn?_of_live live hnodup]

end Snapshot

/-! ### Runs -/

namespace Watch

variable {σ : Type} {hash : Digest.Hash} {storage : Storage σ} {w : Watch σ} {t : Tree}

/-- The live tree is as it should be, and the snapshot recounts what was seen so far. -/
structure Follows (w : Watch σ) (views : List View) : Prop where
  shows : ∃ t s, w.session.tracker.tree? = some t ∧ t.Shows s
  recounts : w.exporter.snapshot.Recounts views

lemma after_append (before rest : List Act) :
    w.after hash storage (before ++ rest) = (w.after hash storage before).after hash storage rest :=
  List.foldl_append

lemma nodes_eq (h : w.session.tracker.tree? = some t) : w.nodes = t.nodes := by
  rw [nodes, h]
  rfl

/-- What an act is to the session. An export is no more to it than a commit. -/
def Act.toCall : Act → Session.Call
  | .call made => made
  | .dump _ => .commit

lemma session_step (w : Watch σ) (act : Act) :
    (w.step hash storage act).session = (w.session.step hash storage .none act.toCall).2 := by
  obtain ⟨⟨tracker, pool, s⟩, exporter⟩ := w
  cases act with
  | call call => rfl
  | dump uses =>
    cases tracker with
    | idle | live | recorded => rfl

lemma session_after (w : Watch σ) (acts : List Act) :
    (w.after hash storage acts).session = w.session.after hash storage (acts.map Act.toCall) := by
  induction acts generalizing w with
  | nil => rfl
  | cons act acts ih =>
    refine (ih (w.step hash storage act)).trans ?_
    rw [session_step]
    rfl

lemma exporter_dump (h : w.session.tracker.tree? = some t) (uses : Uses) :
    (w.step hash storage (.dump uses)).exporter = (w.exporter.run hash t w.session.pool uses).1 := by
  obtain ⟨⟨tracker, pool, s⟩, exporter⟩ := w
  cases tracker with
  | idle => cases h
  | live u =>
    cases h
    rfl
  | recorded r =>
    cases h
    simp [step, Tracker.dump]

lemma slots_le_after (h : w.session.tracker.tree? = some t) (acts : List Act) :
    w.session.slots ≤ (w.after hash storage acts).session.slots := by
  rw [session_after]
  exact Session.slots_le_after hash storage h _

theorem Follows.step {views : List View} (h : w.Follows views) (act : Act)
    (hsmall : (w.step hash storage act).session.slots ≤ UInt32.size) :
    (w.step hash storage act).Follows (views ++ (w.view? act).toList) := by
  obtain ⟨t, s, htree, hs⟩ := h.shows
  rw [session_step] at hsmall
  obtain ⟨u, s', hu, _, hs'⟩ := Session.exists_shows hash storage htree hs [act.toCall] hsmall
  refine ⟨⟨u, s', (congrArg (·.tracker.tree?) (session_step w act)).trans hu, hs'⟩, ?_⟩
  cases act with
  | call call =>
    rw [view?, Option.toList_none, List.append_nil]
    exact h.recounts
  | dump uses =>
    obtain ⟨nodes, _, hnodes⟩ := hs.holds
    rw [exporter_dump htree, view?, htree, Option.map_some, Option.toList_some]
    exact h.recounts.insert (v := ⟨t, w.session.pool, uses⟩) hnodes

theorem Follows.after {views : List View} (h : w.Follows views) (acts : List Act)
    (hsmall : (w.after hash storage acts).session.slots ≤ UInt32.size) :
    (w.after hash storage acts).Follows (views ++ w.views hash storage acts) := by
  induction acts generalizing w views with
  | nil => rwa [Watch.views, List.append_nil]
  | cons act acts ih =>
    obtain ⟨t, _, htree, _⟩ := h.shows
    obtain ⟨_, hstep, _⟩ := Session.step_onTree hash storage .none htree act.toCall
    rw [← session_step] at hstep
    rw [Watch.views, ← List.append_assoc]
    exact ih (h.step act (Nat.le_trans (slots_le_after hstep acts) hsmall)) hsmall

/-- An act fills slots or empties slots, but not both. -/
lemma Follows.turns {views : List View} (h : w.Follows views) (act : Act) :
    Arena.Turns w.nodes (w.step hash storage act).nodes := by
  obtain ⟨t, s, htree, hs⟩ := h.shows
  obtain ⟨_, hstep, _⟩ := Session.step_onTree hash storage .none htree act.toCall
  rw [← session_step] at hstep
  rw [nodes_eq htree, nodes_eq hstep]
  exact Tree.onTree_turns hs.valid _ act.toCall

lemma Follows.nodesAt_turns {views : List View} (h : w.Follows views) (acts : List Act)
    (hsmall : (w.after hash storage acts).session.slots ≤ UInt32.size) (k : Nat) :
    Arena.Turns (w.nodesAt hash storage acts k) (w.nodesAt hash storage acts (k + 1)) := by
  by_cases hk : k < acts.length
  · obtain ⟨t, _, htree, _⟩ := h.shows
    obtain ⟨u, hu, _⟩ := Session.exists_tree_after hash storage htree ((acts.take k).map Act.toCall)
    rw [← session_after] at hu
    have hprefix : (w.after hash storage (acts.take k)).session.slots ≤ UInt32.size := by
      rw [← List.take_append_drop k acts, after_append] at hsmall
      exact Nat.le_trans (slots_le_after hu _) hsmall
    rw [nodesAt, nodesAt, ← List.take_append_getElem hk, after_append]
    exact (h.after (acts.take k) hprefix).turns acts[k]
  · rw [nodesAt, nodesAt, List.take_of_length_le (Nat.le_of_not_lt hk),
      List.take_of_length_le (Nat.le_succ_of_le (Nat.le_of_not_lt hk))]
    exact .inr (Arena.empties_refl _)

/-- After any calls and exports the snapshot recounts what the exports saw. Between two points at which a
key is live it is live throughout, so it names the same node in all of them, as long as no slot is used
again as often as there are generations. The other bound is the number of slot numbers. -/
theorem recounts_after (hash : Digest.Hash) (storage : Storage σ) (config : Config) (inMemory : Bool)
    (run : RunId) (path : PathRef) (pool : Pool) (s : σ) (streams : Bool) (acts : List Act)
    (hkept : config.persist = true ∨ inMemory = true) :
    let w : Watch σ := ⟨Session.create hash storage config inMemory run path pool s, .create streams⟩
    let nodes := w.nodesAt hash storage acts
    (w.after hash storage acts).session.slots ≤ UInt32.size →
      (∀ slot, Arena.reuses nodes slot acts.length < UInt32.size) →
      w.Recounts hash storage acts ∧
      ∀ key first k last, first ≤ k → k ≤ last → last ≤ acts.length →
        (nodes first).contains key = true → (nodes last).contains key = true →
        (nodes k).contains key = true := by
  intro w nodes hsmall hfew
  obtain ⟨htree, _⟩ := Session.create_start hash storage config hkept run path pool s
  obtain ⟨key, _, hshows⟩ := Tree.shows_start path config.compress config.persist pool
  have hstart : w.Follows [] := ⟨⟨_, _, htree, hshows⟩, Snapshot.recounts_empty⟩
  refine ⟨(hstart.after acts hsmall).recounts, fun key first k last hfirst hlast hn hborn hlive => ?_⟩
  exact Arena.contains_between (hstart.nodesAt_turns acts hsmall) hfirst hlast hn (hfew _) hborn hlive

/-- A fork and an export, then the end of the new path and another fork, which uses its slot again, and an
export while one of the paths is let go and another one written. -/
theorem recounts_after_reuse :
    let hash : Digest.Hash := fun _ => ⟨List.replicate 32 0, rfl⟩
    let pool : Pool := ⟨#[some (.fresh ⟨1⟩), some (.fresh ⟨2⟩), some (.fresh ⟨3⟩)]⟩
    let w : Watch Storage.Memory :=
      ⟨Session.create hash Storage.memory Config.default true default ⟨0⟩ pool .empty, .create false⟩
    let before := [.call (.attach ⟨0, 0⟩ ⟨1⟩ ⟨0⟩ .conditional), .dump .none, .call (.remove ⟨1, 0⟩),
      .call (.attach ⟨2, 0⟩ ⟨2⟩ ⟨0⟩ .switch)]
    let left := (w.after hash Storage.memory before).session.pool.drop ⟨0⟩
    let acts := before ++ [.call (.engine left), .dump fun r => if r = ⟨2⟩ then .writing else .idle]
    let nodes := w.nodesAt hash Storage.memory acts
    (w.after hash Storage.memory acts).session.slots ≤ UInt32.size ∧
      (∀ slot, Arena.reuses nodes slot acts.length < UInt32.size) ∧ w.Recounts hash Storage.memory acts ∧
      (nodes 1).contains ⟨1, 0⟩ = true ∧ (nodes 4).contains ⟨1, 1⟩ = true := by
  intro hash pool w before left acts nodes
  have hsmall : (w.after hash Storage.memory acts).session.slots ≤ UInt32.size := by decide
  have hfew : ∀ slot, Arena.reuses nodes slot acts.length < UInt32.size := fun slot =>
    Nat.lt_of_le_of_lt (Arena.reuses_le nodes slot _) (by decide)
  exact ⟨hsmall, hfew, (recounts_after hash Storage.memory Config.default true default ⟨0⟩ pool .empty false
    acts (.inr rfl) hsmall hfew).1, by decide, by decide⟩

end Watch

end ForkTree
