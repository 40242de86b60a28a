import ForkTree.Proofs.ReplayHistory
import ForkTree.Replay.Render

/-!
The order of records does not matter to the tree that they build. `Tree.Tells` says what is at each id from
the records that there are, without regard to their order: a node hangs where the record that brought its
id in says, and it forked and ended just as the records about it say. Every record that a tree takes keeps
that up (`Tells.apply`), and the records determine the tree (`Tells.unique`) as the tree determines the records
(`Tells.mem_iff`). So two lists that build a tree build the same one exactly if they are permutations of each
other, and then they are counted and drawn in the same way.
-/

namespace ForkTree.Replay

open Log (Record)

namespace Node

variable {n m : Node} {r q : Record} {id : NodeId}

/-- What a record says of the node that it is about is found there. -/
def Says (n : Node) : Record → Prop
  | .root _ => False
  | .branch _ left right line reason =>
    n.children = some (left, right) ∧ n.line = some line ∧ n.reason = some reason
  | .terminate _ state line kind => n.termination = some ⟨state, kind, line⟩

/-- A node has a line and a reason just if it forked. -/
structure IsComplete (n : Node) : Prop where
  line : n.line.isSome = n.children.isSome
  reason : n.reason.isSome = n.children.isSome

lemma not_says_fresh (id : NodeId) (parent : Option NodeId) (r : Record) : ¬ (fresh id parent).Says r := by
  cases r <;> simp [Says, fresh]

lemma isOpen_iff : n.isOpen = true ↔ n.children = none ∧ n.termination = none := by
  simp [isOpen, isLeaf]

lemma not_says_of_isOpen (h : n.isOpen = true) (r : Record) : ¬ n.Says r := by
  rw [isOpen_iff] at h
  cases r <;> simp [Says, h]

/-- A leaf that a record was about says that record and no other. -/
lemma says_after (hopen : n.isOpen = true) (hr : subject? r = some id) (hq : subject? q = some id) :
    (n.after r).Says q ↔ q = r := by
  rw [isOpen_iff] at hopen
  cases r with
  | root => cases hr
  | branch =>
    cases hr
    cases q with
    | root => cases hq
    | branch =>
      cases hq
      simp [Says, after, and_assoc, eq_comm]
    | terminate => simp [Says, after, hopen]
  | terminate =>
    cases hr
    cases q with
    | root => cases hq
    | branch => simp [Says, after, hopen]
    | terminate =>
      cases hq
      simp [Says, after, eq_comm, and_comm]

lemma isComplete_fresh (id : NodeId) (parent : Option NodeId) : (fresh id parent).IsComplete := ⟨rfl, rfl⟩

lemma IsComplete.after (h : n.IsComplete) (r : Record) : (n.after r).IsComplete := by
  cases r with
  | root => exact h
  | branch => exact ⟨rfl, rfl⟩
  | terminate => exact ⟨h.line, h.reason⟩

/-- A node that forked says so in one record. -/
lemma IsComplete.exists_says (h : n.IsComplete) {left right : NodeId} (hn : n.children = some (left, right)) :
    ∃ line reason, n.Says (.branch n.id left right line reason) := by
  have hsome : n.children.isSome = true := by rw [hn]; rfl
  obtain ⟨line, hline⟩ := Option.isSome_iff_exists.1 (h.line.trans hsome)
  obtain ⟨reason, hreason⟩ := Option.isSome_iff_exists.1 (h.reason.trans hsome)
  exact ⟨line, reason, hn, hline, hreason⟩

lemma IsComplete.eq_none (h : n.IsComplete) (hn : n.children = none) : n.line = none ∧ n.reason = none := by
  have hnone : n.children.isSome = false := by rw [hn]; rfl
  exact ⟨by simpa using h.line.trans hnone, by simpa using h.reason.trans hnone⟩

lemma ext_says (hn : n.IsComplete) (hm : m.IsComplete) (hid : n.id = m.id) (hparent : n.parent = m.parent)
    (h : ∀ r, subject? r = some n.id → (n.Says r ↔ m.Says r)) : n = m := by
  have hended : n.termination = m.termination := by
    ext ⟨state, kind, line⟩
    exact h (.terminate n.id state line kind) rfl
  have hforked : n.children = m.children ∧ n.line = m.line ∧ n.reason = m.reason := by
    cases hchildren : n.children with
    | some children =>
      obtain ⟨left, right⟩ := children
      obtain ⟨line, reason, hsays⟩ := hn.exists_says hchildren
      obtain ⟨hchildren', hline', hreason'⟩ := (h _ rfl).1 hsays
      obtain ⟨_, hline, hreason⟩ := hsays
      exact ⟨hchildren'.symm, hline.trans hline'.symm, hreason.trans hreason'.symm⟩
    | none =>
      have hnone : m.children = none := by
        refine Option.eq_none_iff_forall_ne_some.2 fun ⟨left, right⟩ hm' => ?_
        obtain ⟨line, reason, hsays⟩ := hm.exists_says hm'
        have hsays' := (h (.branch n.id left right line reason) rfl).2 hsays
        rw [hsays'.1] at hchildren
        cases hchildren
      obtain ⟨hline, hreason⟩ := hn.eq_none hchildren
      obtain ⟨hline', hreason'⟩ := hm.eq_none hnone
      exact ⟨hnone.symm, hline.trans hline'.symm, hreason.trans hreason'.symm⟩
  obtain ⟨hchildren, hline, hreason⟩ := hforked
  cases n
  cases m
  simp only at hid hparent hchildren hline hreason hended
  rw [hid, hparent, hchildren, hline, hreason, hended]

end Node

namespace Tree

/-- What is at each id is what the records say, whatever their order. -/
structure Tells (t : Tree) (records : List Record) : Prop where
  root_iff : ∀ id, t.root = some id ↔ .root id ∈ records
  contains_iff : ∀ id, t.contains id = true ↔ ∃ r ∈ records, id ∈ introduced r
  known : ∀ r ∈ records, ∀ id, subject? r = some id → t.contains id = true
  named : ∀ id n, t.node? id = some n → n.id = id
  parent_iff : ∀ id n, t.node? id = some n → ∀ parent,
    n.parent = some parent ↔ ∃ r ∈ records, subject? r = some parent ∧ id ∈ introduced r
  says_iff : ∀ id n, t.node? id = some n → ∀ r, subject? r = some id → (n.Says r ↔ r ∈ records)
  complete : ∀ id n, t.node? id = some n → n.IsComplete

variable {t u : Tree} {records xs ys : List Record} {r : Record}

lemma tells_empty : empty.Tells [] where
  root_iff id := ⟨fun h => (by cases h), fun h => (by cases h)⟩
  contains_iff id := ⟨fun h => (by cases h), fun ⟨_, h, _⟩ => (by cases h)⟩
  known r h := by cases h
  named id n h := by cases h
  parent_iff id n h := by cases h
  says_iff id n h := by cases h
  complete id n h := by cases h

/-- The records go on saying what is at each id when one more of them is taken. -/
theorem Tells.apply (h : t.Tells records) (hknows : t.Knows records) (happly : t.apply r = .ok u) :
    u.Tells (records ++ [r]) := by
  have hr := hknows.apply_iff.1 ⟨u, happly⟩
  have hlater := hknows.apply happly
  obtain ⟨hnew, hsubject, hother⟩ := hknows.node?_apply happly
  have hmem : ∀ q, q ∈ records ++ [r] ↔ q ∈ records ∨ q = r := fun q => by
    rw [List.mem_append, List.mem_singleton]
  have hunknown : ∀ id ∈ introduced r, ∀ q ∈ records, id ∉ introduced q ∧ subject? q ≠ some id := by
    intro id hid q hq
    refine ⟨fun hin => hr.fresh id hid (List.mem_flatMap.2 ⟨q, hq, hin⟩), fun hs => hr.fresh id hid ?_⟩
    exact hknows.subjects id (List.mem_filterMap.2 ⟨q, hq, hs⟩)
  -- The record brings an id in, is about it, or has nothing to do with it.
  have hcases : ∀ id n, u.node? id = some n →
      (id ∈ introduced r ∧ n = .fresh id (subject? r)) ∨
      (id ∉ introduced r ∧ subject? r = some id ∧
        ∃ m, t.node? id = some m ∧ m.isOpen = true ∧ n = m.after r) ∨
      (id ∉ introduced r ∧ subject? r ≠ some id ∧ t.node? id = some n) := by
    intro id n hn
    by_cases hid : id ∈ introduced r
    · rw [hnew id hid] at hn
      exact .inl ⟨hid, (Option.some.inj hn).symm⟩
    · by_cases hs : subject? r = some id
      · obtain ⟨m, hm, hopen, hu⟩ := hsubject id hs
        rw [hu] at hn
        exact .inr (.inl ⟨hid, hs, m, hm, hopen, (Option.some.inj hn).symm⟩)
      · exact .inr (.inr ⟨hid, hs, by rw [← hother id hid hs, hn]⟩)
  constructor
  case root_iff =>
    intro id
    rw [root_apply happly, h.root_iff, hmem]
    exact or_congr_right eq_comm
  case contains_iff =>
    intro id
    rw [hlater.contains_iff, List.mem_flatMap]
  case known =>
    intro q hq id hs
    rw [hlater.contains_iff]
    exact hlater.subjects id (List.mem_filterMap.2 ⟨q, hq, hs⟩)
  case named => exact hlater.named
  case parent_iff =>
    intro id n hn parent
    simp only [hmem, or_and_right, exists_or, exists_eq_left]
    rcases hcases id n hn with ⟨hid, rfl⟩ | ⟨hid, _, m, hm, _, rfl⟩ | ⟨hid, _, hm⟩
    · have hnone : ¬ ∃ q ∈ records, subject? q = some parent ∧ id ∈ introduced q :=
        fun ⟨q, hq, _, hin⟩ => (hunknown id hid q hq).1 hin
      rw [or_iff_right hnone, and_iff_left hid]
      rfl
    · have hparent : (m.after r).parent = m.parent := by cases r <;> rfl
      rw [hparent, h.parent_iff id m hm, or_iff_left fun hin => hid hin.2]
    · rw [h.parent_iff id n hm, or_iff_left fun hin => hid hin.2]
  case says_iff =>
    intro id n hn q hq
    rw [hmem]
    rcases hcases id n hn with ⟨hid, rfl⟩ | ⟨hid, hs, m, hm, hopen, rfl⟩ | ⟨hid, hs, hm⟩
    · refine iff_of_false (Node.not_says_fresh id _ q) (not_or.2 ⟨fun hmem => ?_, ?_⟩)
      · exact (hunknown id hid q hmem).2 hq
      · rintro rfl
        exact hr.fresh id hid (hr.known id hq)
    · have hnot : q ∉ records := fun hmem =>
        Node.not_says_of_isOpen hopen q ((h.says_iff id m hm q hq).2 hmem)
      rw [Node.says_after hopen hs hq, or_iff_right hnot]
    · have hne : q ≠ r := fun e => hs (e ▸ hq)
      rw [h.says_iff id n hm q hq, or_iff_left hne]
  case complete =>
    intro id n hn
    rcases hcases id n hn with ⟨_, rfl⟩ | ⟨_, _, m, hm, _, rfl⟩ | ⟨_, _, hm⟩
    · exact Node.isComplete_fresh id _
    · exact (h.complete id m hm).after r
    · exact h.complete id n hm

theorem tells_of_ofRecords? (h : ofRecords? records = .ok t) : t.Tells records := by
  induction records using List.reverseRecOn generalizing t with
  | nil =>
    cases h
    exact tells_empty
  | append_singleton before r ih =>
    obtain ⟨s, hbefore, happly⟩ := ofRecords?_append_singleton.1 h
    exact (ih hbefore).apply (knows_of_ofRecords? hbefore) happly

/-- The records determine the tree, as a set. -/
theorem Tells.unique (ht : t.Tells xs) (hu : u.Tells ys) (h : ∀ r, r ∈ xs ↔ r ∈ ys) : t = u := by
  have hroot : t.root = u.root := by
    ext id
    rw [ht.root_iff, hu.root_iff, h]
  have hcontains : ∀ id, t.contains id = u.contains id := fun id => by
    rw [Bool.eq_iff_iff, ht.contains_iff, hu.contains_iff]
    simp only [h]
  have hnodes : t.nodes = u.nodes := by
    apply SortedMap.ext_get?
    intro id
    change t.node? id = u.node? id
    have hsome := hcontains id
    rw [contains, contains] at hsome
    cases hn : t.node? id with
    | none =>
      rw [hn] at hsome
      exact (Option.isNone_iff_eq_none.1 (Option.isSome_eq_false_iff.1 hsome.symm)).symm
    | some n =>
      rw [hn] at hsome
      obtain ⟨m, hm⟩ := Option.isSome_iff_exists.1 hsome.symm
      have hid : n.id = id := ht.named id n hn
      rw [hm, Node.ext_says (ht.complete id n hn) (hu.complete id m hm) (hid.trans (hu.named id m hm).symm) ?_ ?_]
      · ext parent
        rw [ht.parent_iff id n hn, hu.parent_iff id m hm]
        simp only [h]
      · intro r hr
        rw [hid] at hr
        rw [ht.says_iff id n hn r hr, hu.says_iff id m hm r hr, h]
  obtain ⟨root, nodes⟩ := t
  cases hroot
  cases hnodes
  rfl

/-- The tree determines the records, as a set. -/
theorem Tells.mem_iff (hx : t.Tells xs) (hy : t.Tells ys) (r : Record) : r ∈ xs ↔ r ∈ ys := by
  cases hs : subject? r with
  | none =>
    cases r with
    | root id => rw [← hx.root_iff, hy.root_iff]
    | branch | terminate => cases hs
  | some id =>
    constructor
    · intro hr
      obtain ⟨n, hn⟩ := Option.isSome_iff_exists.1 (hx.known r hr id hs)
      exact (hy.says_iff id n hn r hs).1 ((hx.says_iff id n hn r hs).2 hr)
    · intro hr
      obtain ⟨n, hn⟩ := Option.isSome_iff_exists.1 (hy.known r hr id hs)
      exact (hx.says_iff id n hn r hs).1 ((hy.says_iff id n hn r hs).2 hr)

end Tree

/-! ### Orders -/

/-- No record may come next a second time. -/
lemma Continues.notMem {before : List Record} {r : Record} (h : Continues before r) : r ∉ before := by
  intro hr
  cases hs : subject? r with
  | none =>
    cases r with
    | root id =>
      rw [h.root_iff.1 rfl] at hr
      cases hr
    | branch | terminate => cases hs
  | some id => exact h.unfinished id hs (List.mem_filterMap.2 ⟨r, hr, hs⟩)

lemma Tree.nodup_of_ofRecords? {records : List Record} {t : Tree} (h : ofRecords? records = .ok t) :
    records.Nodup := by
  induction records using List.reverseRecOn generalizing t with
  | nil => exact .nil
  | append_singleton before r ih =>
    obtain ⟨s, hbefore, happly⟩ := ofRecords?_append_singleton.1 h
    have hr := (knows_of_ofRecords? hbefore).apply_iff.1 ⟨t, happly⟩
    rw [← List.concat_eq_append]
    exact (ih hbefore).concat hr.notMem

/-- Of two lists of records that build trees, both build the same tree exactly if one is a permutation of the
other. Then the trees have the same counts, graph and nested objects. -/
theorem reordered {xs ys : List Record} {t u : Tree} (hx : Tree.ofRecords? xs = .ok t)
    (hy : Tree.ofRecords? ys = .ok u) :
    (t = u ↔ xs.Perm ys) ∧
      (xs.Perm ys → t.stats = u.stats ∧ t.graph = u.graph ∧ t.nested = u.nested) := by
  have ht := Tree.tells_of_ofRecords? hx
  have hu := Tree.tells_of_ofRecords? hy
  have hsame : t = u ↔ xs.Perm ys := by
    rw [List.perm_ext_iff_of_nodup (Tree.nodup_of_ofRecords? hx) (Tree.nodup_of_ofRecords? hy)]
    constructor
    · rintro rfl
      exact ht.mem_iff hu
    · exact ht.unique hu
  refine ⟨hsame, fun hperm => ?_⟩
  cases hsame.2 hperm
  exact ⟨rfl, rfl, rfl⟩

/-- Two forks and two ends, in two orders. -/
theorem reordered_forks_and_ends :
    let xs : List Record := [.root ⟨1⟩, .branch ⟨1⟩ ⟨2⟩ ⟨3⟩ 11 .conditional, .terminate ⟨2⟩ (some ⟨2⟩) 27 .exit,
      .branch ⟨3⟩ ⟨5⟩ ⟨4⟩ 13 .switch, .terminate ⟨5⟩ none 25 .exit]
    let ys : List Record := [.root ⟨1⟩, .branch ⟨1⟩ ⟨2⟩ ⟨3⟩ 11 .conditional, .branch ⟨3⟩ ⟨5⟩ ⟨4⟩ 13 .switch,
      .terminate ⟨5⟩ none 25 .exit, .terminate ⟨2⟩ (some ⟨2⟩) 27 .exit]
    ∃ t u, Tree.ofRecords? xs = .ok t ∧ Tree.ofRecords? ys = .ok u ∧ xs.Perm ys ∧ t = u ∧
      t.stats = u.stats ∧ t.graph = u.graph ∧ t.nested = u.nested := by
  intro xs ys
  obtain ⟨t, ht⟩ : ∃ t, Tree.ofRecords? xs = .ok t := ⟨_, rfl⟩
  obtain ⟨u, hu⟩ : ∃ u, Tree.ofRecords? ys = .ok u := ⟨_, rfl⟩
  have hperm : xs.Perm ys := by decide
  obtain ⟨hsame, hshown⟩ := reordered ht hu
  exact ⟨t, u, ht, hu, hperm, hsame.2 hperm, hshown hperm⟩

end ForkTree.Replay
