import ForkTree.Replay.Basic
import ForkTree.Replay.History
import Mathlib.Data.List.Induction
import Mathlib.Data.List.Nodup
import Mathlib.Tactic.Lemma

/-!
Which lists of records build a tree. The rebuilt tree checks each record against the nodes that it has,
while a history is a list that meets conditions as a whole. Both are read record by record: `Continues`
is what a history asks of its last record (`isHistory_append_singleton`), and a tree that knows of the
records before it no more than `Tree.Knows` says takes a record exactly if that continues them
(`Tree.Knows.apply_iff`). So the lists that build a tree are the histories (`builds_iff_isHistory`).
-/

namespace ForkTree.Replay

open Log (Record)

/-- A record may come next in a history. -/
structure Continues (before : List Record) (r : Record) : Prop where
  root_iff : isRoot r = true ↔ before = []
  nodup : (introduced r).Nodup
  fresh : ∀ id ∈ introduced r, id ∉ before.flatMap introduced
  known : ∀ id, subject? r = some id → id ∈ before.flatMap introduced
  unfinished : ∀ id, subject? r = some id → id ∉ before.filterMap subject?

lemma mem_flatMap_append_singleton {before : List Record} {r : Record} {id : NodeId} :
    id ∈ (before ++ [r]).flatMap introduced ↔ id ∈ before.flatMap introduced ∨ id ∈ introduced r := by
  rw [List.flatMap_append, List.flatMap_singleton, List.mem_append]

lemma mem_filterMap_append_singleton {before : List Record} {r : Record} {id : NodeId} :
    id ∈ (before ++ [r]).filterMap subject? ↔
      id ∈ before.filterMap subject? ∨ subject? r = some id := by
  rw [List.filterMap_append, List.mem_append, List.mem_filterMap (l := [r])]
  simp

lemma IsHistory.of_append {before after : List Record} (h : IsHistory (before ++ after)) :
    IsHistory before where
  root_first := by
    rintro first rest rfl
    obtain ⟨hfirst, hrest⟩ := h.root_first first (rest ++ after) rfl
    exact ⟨hfirst, fun r hr => hrest r (List.mem_append_left _ hr)⟩
  introduced_nodup := by
    have hnodup := h.introduced_nodup
    rw [List.flatMap_append] at hnodup
    exact (List.nodup_append.1 hnodup).1
  known := by
    rintro front r back rfl id hid
    exact h.known front r (back ++ after) (by simp) id hid
  subject_nodup := by
    have hnodup := h.subject_nodup
    rw [List.filterMap_append] at hnodup
    exact (List.nodup_append.1 hnodup).1

lemma IsHistory.continues {before : List Record} {r : Record} (h : IsHistory (before ++ [r])) :
    Continues before r := by
  have hintroduced := h.introduced_nodup
  have hsubjects := h.subject_nodup
  rw [List.flatMap_append, List.flatMap_singleton, List.nodup_append] at hintroduced
  rw [List.filterMap_append, List.nodup_append] at hsubjects
  refine ⟨?_, hintroduced.2.1, ?_, fun id hid => h.known before r [] rfl id hid, ?_⟩
  · cases before with
    | nil => exact ⟨fun _ => rfl, fun _ => (h.root_first r [] rfl).1⟩
    | cons first rest =>
      have hinner := (h.root_first first (rest ++ [r]) rfl).2 r (by simp)
      refine ⟨fun hroot => ?_, fun hnil => by cases hnil⟩
      rw [hroot] at hinner
      cases hinner
  · exact fun id hid hbefore => hintroduced.2.2 id hbefore id hid rfl
  · exact fun id hid hbefore => hsubjects.2.2 id hbefore id (by simp [hid]) rfl

lemma IsHistory.append_singleton {before : List Record} {r : Record} (h : IsHistory before)
    (hr : Continues before r) : IsHistory (before ++ [r]) where
  root_first := by
    intro first rest heq
    cases before with
    | nil =>
      cases heq
      exact ⟨hr.root_iff.2 rfl, fun _ hmem => by cases hmem⟩
    | cons first' rest' =>
      obtain ⟨rfl, rfl⟩ := List.cons.inj heq
      obtain ⟨hfirst, hrest⟩ := h.root_first first' rest' rfl
      refine ⟨hfirst, fun r' hmem => ?_⟩
      rcases List.mem_append.1 hmem with hmem | hmem
      · exact hrest r' hmem
      · rw [List.mem_singleton.1 hmem, Bool.not_eq_true', Bool.eq_false_iff]
        intro hroot
        cases hr.root_iff.1 hroot
  introduced_nodup := by
    rw [List.flatMap_append, List.flatMap_singleton, List.nodup_append]
    refine ⟨h.introduced_nodup, hr.nodup, ?_⟩
    rintro id hbefore _ hid rfl
    exact hr.fresh id hid hbefore
  known := by
    intro front r' back heq id hid
    rcases back.eq_nil_or_concat with rfl | ⟨back, last, rfl⟩
    · obtain ⟨rfl, hlast⟩ := List.append_inj' heq rfl
      rw [← (List.cons.inj hlast).1] at hid
      exact hr.known id hid
    · rw [List.concat_eq_append, ← List.cons_append, ← List.append_assoc] at heq
      obtain ⟨rfl, _⟩ := List.append_inj' heq rfl
      exact h.known front r' back rfl id hid
  subject_nodup := by
    rw [List.filterMap_append, List.nodup_append]
    refine ⟨h.subject_nodup, ?_, ?_⟩
    · cases hs : subject? r <;> simp [hs]
    · rintro id hbefore _ hid rfl
      rw [List.mem_filterMap] at hid
      obtain ⟨r', hmem, hid⟩ := hid
      rw [List.mem_singleton.1 hmem] at hid
      exact hr.unfinished id hid hbefore

/-- A history is a history with a record that may come next. -/
theorem isHistory_append_singleton {before : List Record} {r : Record} :
    IsHistory (before ++ [r]) ↔ IsHistory before ∧ Continues before r :=
  ⟨fun h => ⟨h.of_append, h.continues⟩, fun h => h.1.append_singleton h.2⟩

namespace Node

/-- A leaf after a record about it. -/
def after (n : Node) : Record → Node
  | .root _ => n
  | .branch _ left right line reason =>
    { n with children := some (left, right), reason := some reason, line := some line }
  | .terminate _ state line kind => { n with termination := some ⟨state, kind, line⟩ }

lemma id_after (n : Node) (r : Record) : (n.after r).id = n.id := by
  cases r <;> rfl

lemma isOpen_after (n : Node) {r : Record} {id : NodeId} (h : subject? r = some id) :
    (n.after r).isOpen = false := by
  cases r with
  | root => cases h
  | branch => rfl
  | terminate => exact Bool.and_false _

end Node

namespace Tree

/-- What a tree knows of the records that built it: which ids came up, and at which of them a path goes
on. -/
structure Knows (t : Tree) (records : List Record) : Prop where
  root_eq : t.root = none ↔ records = []
  contains_iff : ∀ id, t.contains id = true ↔ id ∈ records.flatMap introduced
  named : ∀ id n, t.node? id = some n → n.id = id
  isOpen_iff : ∀ id n, t.node? id = some n → (n.isOpen = true ↔ id ∉ records.filterMap subject?)
  subjects : ∀ id ∈ records.filterMap subject?, id ∈ records.flatMap introduced

variable {t u : Tree} {records : List Record} {r : Record}

lemma knows_empty : empty.Knows [] where
  root_eq := ⟨fun _ => rfl, fun _ => rfl⟩
  contains_iff id := ⟨fun h => (by cases h), fun h => (by cases h)⟩
  named id n h := by cases h
  isOpen_iff id n h := by cases h
  subjects id h := by cases h

/-- A leaf at which a path goes on is what a record can be about. -/
lemma Knows.exists_isOpen_iff (h : t.Knows records) (id : NodeId) :
    (∃ n, t.node? id = some n ∧ n.isOpen = true) ↔
      id ∈ records.flatMap introduced ∧ id ∉ records.filterMap subject? := by
  constructor
  · rintro ⟨n, hn, hopen⟩
    exact ⟨(h.contains_iff id).1 (by rw [contains, hn]; rfl), (h.isOpen_iff id n hn).1 hopen⟩
  · rintro ⟨hid, hunfinished⟩
    obtain ⟨n, hn⟩ := Option.isSome_iff_exists.1 ((h.contains_iff id).2 hid)
    exact ⟨n, hn, (h.isOpen_iff id n hn).2 hunfinished⟩

/-- What a tree makes of a record that it takes, by the kind of the record. -/
lemma apply_eq_ok_iff :
    t.apply r = .ok u ↔
      match r with
      | .root id => t.root = none ∧ u = { t with root := some id }.put (.fresh id none)
      | .branch id left right line reason =>
        left ≠ right ∧ t.contains left = false ∧ t.contains right = false ∧
          ∃ n, t.node? id = some n ∧ n.isOpen = true ∧
            u = ((t.put { n with
              children := some (left, right), reason := some reason, line := some line }).put
                (.fresh left (some id))).put (.fresh right (some id))
      | .terminate id state line kind =>
        ∃ n, t.node? id = some n ∧ n.isOpen = true ∧
          u = t.put { n with termination := some ⟨state, kind, line⟩ } := by
  cases r with
  | root id =>
    cases hroot : t.root <;> simp [apply, hroot, eq_comm]
  | branch id left right line reason =>
    simp only [apply]
    by_cases hused : (left = right || t.contains left || t.contains right) = true
    · rw [if_pos hused]
      refine ⟨fun h => (by cases h), fun ⟨hne, hleft, hright, _⟩ => ?_⟩
      simp [hne, hleft, hright] at hused
    · rw [if_neg hused]
      simp only [Bool.or_eq_true, decide_eq_true_eq, not_or, Bool.not_eq_true] at hused
      obtain ⟨⟨hne, hleft⟩, hright⟩ := hused
      cases hn : t.node? id with
      | none => simp
      | some n =>
        cases hopen : n.isOpen with
        | false => simp [hopen]
        | true =>
          simp only [hopen, if_true, Except.ok.injEq, Option.some.injEq, hne, hleft, hright, ne_eq,
            not_false_eq_true, true_and, exists_eq_left']
          exact eq_comm
  | terminate id state line kind =>
    simp only [apply]
    cases hn : t.node? id with
    | none => simp
    | some n =>
      cases hopen : n.isOpen with
      | false => simp [hopen]
      | true =>
        simp only [hopen, if_true, Except.ok.injEq, Option.some.injEq, true_and, exists_eq_left']
        exact eq_comm

/-- A tree takes a record exactly if the record may come next. -/
theorem Knows.apply_iff (h : t.Knows records) :
    (∃ u, t.apply r = .ok u) ↔ Continues records r := by
  have hunknown : ∀ id, t.contains id = false ↔ id ∉ records.flatMap introduced := fun id => by
    rw [← h.contains_iff, Bool.not_eq_true]
  have hnil : ∀ id, id ∈ records.flatMap introduced → records ≠ [] := by
    rintro id hid rfl
    cases hid
  simp only [apply_eq_ok_iff]
  cases r with
  | root id =>
    rw [exists_and_left]
    constructor
    · rintro ⟨hroot, _⟩
      have hrecords := h.root_eq.1 hroot
      subst hrecords
      exact ⟨⟨fun _ => rfl, fun _ => rfl⟩, List.nodup_singleton id,
        fun _ _ hmem => (by cases hmem), fun _ hid => (by cases hid), fun _ hid => (by cases hid)⟩
    · exact fun hr => ⟨h.root_eq.2 (hr.root_iff.1 rfl), _, rfl⟩
  | branch id left right line reason =>
    have hopen := h.exists_isOpen_iff id
    constructor
    · rintro ⟨_, hne, hleft, hright, n, hn, hisOpen, _⟩
      obtain ⟨hid, hunfinished⟩ := hopen.1 ⟨n, hn, hisOpen⟩
      refine ⟨⟨fun hroot => (by cases hroot), fun e => absurd e (hnil id hid)⟩,
        by simpa [introduced] using hne, ?_, ?_, ?_⟩
      · intro new hnew
        rcases List.mem_pair.1 hnew with rfl | rfl
        · exact (hunknown _).1 hleft
        · exact (hunknown _).1 hright
      · rintro _ ⟨⟩
        exact hid
      · rintro _ ⟨⟩
        exact hunfinished
    · intro hr
      obtain ⟨n, hn, hisOpen⟩ := hopen.2 ⟨hr.known id rfl, hr.unfinished id rfl⟩
      have hne : left ≠ right := by simpa [introduced] using hr.nodup
      exact ⟨_, hne, (hunknown left).2 (hr.fresh left (by simp [introduced])),
        (hunknown right).2 (hr.fresh right (by simp [introduced])), n, hn, hisOpen, rfl⟩
  | terminate id state line kind =>
    have hopen := h.exists_isOpen_iff id
    constructor
    · rintro ⟨_, n, hn, hisOpen, _⟩
      obtain ⟨hid, hunfinished⟩ := hopen.1 ⟨n, hn, hisOpen⟩
      refine ⟨⟨fun hroot => (by cases hroot), fun e => absurd e (hnil id hid)⟩, .nil,
        fun _ hmem => (by cases hmem), ?_, ?_⟩
      · rintro _ ⟨⟩
        exact hid
      · rintro _ ⟨⟩
        exact hunfinished
    · intro hr
      obtain ⟨n, hn, hisOpen⟩ := hopen.2 ⟨hr.known id rfl, hr.unfinished id rfl⟩
      exact ⟨_, n, hn, hisOpen, rfl⟩

lemma node?_put_fresh (t : Tree) (new : NodeId) (parent : Option NodeId) (id : NodeId) :
    (t.put (.fresh new parent)).node? id = if id = new then some (.fresh new parent) else t.node? id :=
  node?_put t _ id

/-- A tree goes on knowing of the records when a record that may come next brings in its ids and closes
the leaf that it is about. -/
lemma Knows.of_node? (h : t.Knows records) (hr : Continues records r) (hroot : u.root ≠ none)
    (hnew : ∀ id ∈ introduced r, ∃ parent, u.node? id = some (.fresh id parent))
    (hclosed : ∀ id, subject? r = some id → ∃ n, u.node? id = some n ∧ n.id = id ∧ n.isOpen = false)
    (hother : ∀ id, id ∉ introduced r → subject? r ≠ some id → u.node? id = t.node? id) :
    u.Knows (records ++ [r]) where
  root_eq := ⟨fun hnone => absurd hnone hroot, fun hnil => by simp at hnil⟩
  contains_iff id := by
    rw [mem_flatMap_append_singleton, contains]
    by_cases hid : id ∈ introduced r
    · obtain ⟨parent, hnode⟩ := hnew id hid
      simp [hnode, hid]
    · by_cases hs : subject? r = some id
      · obtain ⟨n, hnode, _⟩ := hclosed id hs
        simp [hnode, hr.known id hs]
      · rw [hother id hid hs, ← h.contains_iff id, contains]
        simp [hid]
  named id n hn := by
    by_cases hid : id ∈ introduced r
    · obtain ⟨parent, hnode⟩ := hnew id hid
      rw [hnode] at hn
      cases hn
      rfl
    · by_cases hs : subject? r = some id
      · obtain ⟨m, hnode, hname, _⟩ := hclosed id hs
        rw [hnode] at hn
        cases hn
        exact hname
      · rw [hother id hid hs] at hn
        exact h.named id n hn
  isOpen_iff id n hn := by
    rw [mem_filterMap_append_singleton]
    by_cases hid : id ∈ introduced r
    · obtain ⟨parent, hnode⟩ := hnew id hid
      rw [hnode] at hn
      cases hn
      -- A new id was not known before, so no record so far is about it, and this one is not either.
      have hbefore : id ∉ records.filterMap subject? := fun hmem => hr.fresh id hid (h.subjects id hmem)
      have hs : subject? r ≠ some id := fun hs => hr.fresh id hid (hr.known id hs)
      exact ⟨fun _ => not_or.2 ⟨hbefore, hs⟩, fun _ => rfl⟩
    · by_cases hs : subject? r = some id
      · obtain ⟨m, hnode, _, hshut⟩ := hclosed id hs
        rw [hnode] at hn
        cases hn
        simp [hshut, hs]
      · rw [hother id hid hs] at hn
        rw [h.isOpen_iff id n hn]
        simp [hs]
  subjects id hid := by
    rw [mem_filterMap_append_singleton] at hid
    rw [mem_flatMap_append_singleton]
    rcases hid with hid | hid
    · exact .inl (h.subjects id hid)
    · exact .inl (hr.known id hid)

/-- A record that is taken makes fresh leaves of the ids that it brings in, below the open leaf that it is
about, changes that leaf, and leaves all other nodes alone. -/
theorem Knows.node?_apply (h : t.Knows records) (happly : t.apply r = .ok u) :
    (∀ id ∈ introduced r, u.node? id = some (.fresh id (subject? r))) ∧
      (∀ id, subject? r = some id →
        ∃ n, t.node? id = some n ∧ n.isOpen = true ∧ u.node? id = some (n.after r)) ∧
      ∀ id, id ∉ introduced r → subject? r ≠ some id → u.node? id = t.node? id := by
  have hr := h.apply_iff.1 ⟨u, happly⟩
  have hcases := apply_eq_ok_iff.1 happly
  cases r with
  | root id =>
    obtain ⟨_, rfl⟩ := hcases
    refine ⟨fun new hnew => ?_, fun _ hs => (by cases hs), fun other hne _ => ?_⟩
    · rw [introduced, List.mem_singleton] at hnew
      rw [hnew, node?_put_fresh, if_pos rfl]
      rfl
    · rw [introduced, List.mem_singleton] at hne
      rw [node?_put_fresh, if_neg hne]
      rfl
  | branch id left right line reason =>
    obtain ⟨hne, _, _, n, hn, hopen, rfl⟩ := hcases
    have hname := h.named id n hn
    have hid : id ≠ left ∧ id ≠ right := by
      have hknown := hr.known id rfl
      exact ⟨fun e => hr.fresh left (by simp [introduced]) (e ▸ hknown),
        fun e => hr.fresh right (by simp [introduced]) (e ▸ hknown)⟩
    refine ⟨fun new hnew => ?_, fun x hs => ?_, fun other hnot hs => ?_⟩
    · rw [introduced, List.mem_pair] at hnew
      rcases hnew with rfl | rfl
      · rw [node?_put_fresh, if_neg hne, node?_put_fresh, if_pos rfl]
        rfl
      · rw [node?_put_fresh, if_pos rfl]
        rfl
    · cases hs
      refine ⟨n, hn, hopen, ?_⟩
      rw [node?_put_fresh, if_neg hid.2, node?_put_fresh, if_neg hid.1, node?_put, if_pos hname.symm]
      rfl
    · rw [introduced, List.mem_pair, not_or] at hnot
      have hother : other ≠ n.id := fun e => hs (by rw [e, hname]; rfl)
      rw [node?_put_fresh, if_neg hnot.2, node?_put_fresh, if_neg hnot.1, node?_put, if_neg hother]
  | terminate id state line kind =>
    obtain ⟨n, hn, hopen, rfl⟩ := hcases
    have hname := h.named id n hn
    refine ⟨fun _ hnew => (by cases hnew), fun x hs => ?_, fun other _ hs => ?_⟩
    · cases hs
      exact ⟨n, hn, hopen, by rw [node?_put, if_pos hname.symm]; rfl⟩
    · have hother : other ≠ n.id := fun e => hs (by rw [e, hname]; rfl)
      rw [node?_put, if_neg hother]

lemma root_apply (happly : t.apply r = .ok u) (id : NodeId) :
    u.root = some id ↔ t.root = some id ∨ r = .root id := by
  have hcases := apply_eq_ok_iff.1 happly
  cases r with
  | root first =>
    obtain ⟨hroot, rfl⟩ := hcases
    simp [put, hroot]
  | branch =>
    obtain ⟨_, _, _, n, _, _, rfl⟩ := hcases
    simp [put]
  | terminate =>
    obtain ⟨n, _, _, rfl⟩ := hcases
    simp [put]

/-- A record that is taken makes a tree that knows of it too. -/
theorem Knows.apply (h : t.Knows records) (happly : t.apply r = .ok u) : u.Knows (records ++ [r]) := by
  have hr := h.apply_iff.1 ⟨u, happly⟩
  obtain ⟨hnew, hsubject, hother⟩ := h.node?_apply happly
  refine h.of_node? hr (fun hnone => ?_) (fun id hid => ⟨_, hnew id hid⟩) (fun id hs => ?_) hother
  · have hroot : t.root = none ∧ ∀ id, r ≠ .root id := by
      simpa [hnone, Option.eq_none_iff_forall_ne_some, forall_and] using root_apply happly
    have hisRoot := hr.root_iff.2 (h.root_eq.1 hroot.1)
    cases r with
    | root id => exact hroot.2 id rfl
    | branch | terminate => cases hisRoot
  · obtain ⟨n, hn, _, hu⟩ := hsubject id hs
    exact ⟨_, hu, (n.id_after r).trans (h.named id n hn), n.isOpen_after hs⟩

/-! ### Lists of records -/

lemma ofRecords?_append_singleton {before : List Record} :
    ofRecords? (before ++ [r]) = .ok u ↔ ∃ t, ofRecords? before = .ok t ∧ t.apply r = .ok u := by
  rw [ofRecords?, applyAll_append, ofRecords?]
  cases empty.applyAll 0 before with
  | error fault => simp [Except.bind]
  | ok t => cases happly : t.apply r <;> simp [Except.bind, applyAll, happly]

/-- What records build knows of them. -/
theorem knows_of_ofRecords? (h : ofRecords? records = .ok t) : t.Knows records := by
  induction records using List.reverseRecOn generalizing t with
  | nil =>
    cases h
    exact knows_empty
  | append_singleton before r ih =>
    obtain ⟨s, hbefore, happly⟩ := ofRecords?_append_singleton.1 h
    exact (ih hbefore).apply happly

end Tree

/-- Exactly the histories build a tree: lists with one root, in front, in which no id comes up twice, each
record is about an id that came up before it, and no two forks or ends are about the same id. -/
theorem builds_iff_isHistory (records : List Record) :
    (∃ t, Tree.ofRecords? records = .ok t) ↔ IsHistory records := by
  induction records using List.reverseRecOn with
  | nil => exact ⟨fun _ => isHistory_nil, fun _ => ⟨_, rfl⟩⟩
  | append_singleton before r ih =>
    rw [isHistory_append_singleton, ← ih]
    constructor
    · rintro ⟨u, hu⟩
      obtain ⟨t, hbefore, happly⟩ := Tree.ofRecords?_append_singleton.1 hu
      exact ⟨⟨t, hbefore⟩, (Tree.knows_of_ofRecords? hbefore).apply_iff.1 ⟨u, happly⟩⟩
    · rintro ⟨⟨t, hbefore⟩, hr⟩
      obtain ⟨u, happly⟩ := (Tree.knows_of_ofRecords? hbefore).apply_iff.2 hr
      exact ⟨u, Tree.ofRecords?_append_singleton.2 ⟨t, hbefore, happly⟩⟩

end ForkTree.Replay
