import ForkTree.Proofs.ReplayReordering
import ForkTree.Proofs.ReplayWalk
import ForkTree.Replay.Story

/-!
The pictures of a rebuilt tree, which are drawn along its pre-order, are those drawn by recursion. The nested
form is built from the last node of the pre-order to the first: by then the children of a node are the last
two that were finished, and taking them out leaves what was finished before (`Unfolds.foldr_add`). The
records of a tree tell one story (`Unfolds.exists_story`, `Story.Follows.unique`), which uses each of them
once (`Tells.perm_of_isToldBy`), and the pictures of the tree are those of its story (`pictures_of_story`).
-/

namespace ForkTree.Replay

open Log (Record)
open Shape

namespace Story

variable {records : List Record} {story other : Story} {r : Record} {id : NodeId}

/-- There is at most one record about an id. -/
lemma eq_of_subject?_eq (hone : (records.filterMap subject?).Nodup) {q r : Record} (hq : q ∈ records)
    (hr : r ∈ records) (hqid : subject? q = some id) (hrid : subject? r = some id) : q = r := by
  induction records with
  | nil => cases hq
  | cons first rest ih =>
    have hlater : ∀ {x y : Record}, x = first → y ∈ rest → subject? x = some id → subject? y ≠ some id := by
      rintro x y rfl hy hx hyid
      rw [List.filterMap_cons_some hx, List.nodup_cons] at hone
      exact hone.1 (List.mem_filterMap.2 ⟨y, hy, hyid⟩)
    have hrest : (rest.filterMap subject?).Nodup :=
      hone.sublist ((List.sublist_cons_self first rest).filterMap subject?)
    rcases List.mem_cons.1 hq with hq' | hq' <;> rcases List.mem_cons.1 hr with hr' | hr'
    · rw [hq', hr']
    · exact absurd hrid (hlater hq' hr' hqid)
    · exact absurd hqid (hlater hr' hq' hrid)
    · exact ih hrest hq' hr'

/-- The records tell one story from a node down. -/
theorem Follows.unique (hone : (records.filterMap subject?).Nodup) (hs : story.Follows records)
    (ho : other.Follows records) (hstart : story.start = other.start) : story = other := by
  induction story generalizing other with
  | ongoing id =>
    cases other with
    | ongoing _ => exact congrArg ongoing hstart
    | ended _ _ => exact absurd (congrArg some hstart.symm) (hs _ ho)
    | forked _ _ _ _ _ => exact absurd (congrArg some hstart.symm) (hs _ ho.1)
  | ended id outcome =>
    cases other with
    | ongoing _ => exact absurd (congrArg some hstart) (ho _ hs)
    | ended _ outcome' =>
      have hsame := eq_of_subject?_eq hone hs ho rfl (congrArg some hstart.symm)
      obtain ⟨state, kind, line⟩ := outcome
      obtain ⟨state', kind', line'⟩ := outcome'
      cases hsame
      rfl
    | forked _ _ _ _ _ =>
      cases eq_of_subject?_eq hone hs ho.1 rfl (congrArg some hstart.symm)
  | forked id line reason left right ihl ihr =>
    obtain ⟨hs, hleft, hright⟩ := hs
    cases other with
    | ongoing _ => exact absurd (congrArg some hstart) (ho _ hs)
    | ended _ _ => cases eq_of_subject?_eq hone hs ho rfl (congrArg some hstart.symm)
    | forked _ _ _ left' right' =>
      obtain ⟨ho, hleft', hright'⟩ := ho
      have hsame := eq_of_subject?_eq hone hs ho rfl (congrArg some hstart.symm)
      simp only [Record.branch.injEq] at hsame
      obtain ⟨rfl, hl, hr, rfl, rfl⟩ := hsame
      rw [ihl hleft hleft' hl, ihr hright hright' hr]

lemma Follows.records_subset (h : story.Follows records) : story.records ⊆ records := by
  induction story with
  | ongoing id => exact List.nil_subset _
  | ended id outcome => exact List.cons_subset.2 ⟨h, List.nil_subset _⟩
  | forked id line reason left right ihl ihr =>
    exact List.cons_subset.2 ⟨h.1, List.append_subset.2 ⟨ihl h.2.1, ihr h.2.2⟩⟩

/-- All that the records say of the nodes of a story is part of it. -/
lemma Follows.mem_records (hone : (records.filterMap subject?).Nodup) (h : story.Follows records)
    (hr : r ∈ records) (hid : subject? r = some id) (hmem : id ∈ story.ids) : r ∈ story.records := by
  induction story with
  | ongoing _ =>
    rw [ids, List.mem_singleton] at hmem
    exact absurd (hmem ▸ hid) (h r hr)
  | ended _ outcome =>
    rw [ids, List.mem_singleton] at hmem
    rw [Story.records, List.mem_singleton]
    exact eq_of_subject?_eq hone hr h hid (congrArg some hmem.symm)
  | forked _ line reason left right ihl ihr =>
    rw [ids, List.mem_cons, List.mem_append] at hmem
    rw [Story.records, List.mem_cons, List.mem_append]
    rcases hmem with hmem | hmem | hmem
    · exact .inl (eq_of_subject?_eq hone hr h.1 hid (congrArg some hmem.symm))
    · exact .inr (.inl (ihl h.2.1 hmem))
    · exact .inr (.inr (ihr h.2.2 hmem))

lemma subject?_of_mem_records (hr : r ∈ story.records) : subject? r = some r.nodeId := by
  induction story with
  | ongoing _ => cases hr
  | ended _ _ =>
    rw [List.mem_singleton.1 hr]
    rfl
  | forked _ _ _ left right ihl ihr =>
    rw [Story.records, List.mem_cons, List.mem_append] at hr
    rcases hr with rfl | hr | hr
    · rfl
    · exact ihl hr
    · exact ihr hr

/-- No node has two records in a story. -/
lemma map_nodeId_records_sublist (story : Story) :
    (story.records.map Record.nodeId).Sublist story.ids := by
  induction story with
  | ongoing id => exact List.nil_sublist _
  | ended id outcome => exact List.Sublist.refl _
  | forked id line reason left right ihl ihr =>
    rw [Story.records, List.map_cons, List.map_append, ids]
    exact (ihl.append ihr).cons_cons id

end Story

namespace Finished

variable {f : Finished} {id left right : NodeId} {n : Node} {j l r : Json}

/-- The ids of the nodes that are finished. -/
def ids (f : Finished) : List NodeId := f.objects.map Prod.fst

lemma erase_of_notMem (h : id ∉ f.ids) : f.erase id = f := by
  rw [erase, List.filter_eq_self.2]
  intro entry hentry
  exact decide_eq_true fun e => h (e ▸ List.mem_map_of_mem hentry)

/-- What was finished last is found, and taking it out leaves the others. -/
lemma take_cons (h : id ∉ f.ids) (rest : List NodeId) :
    (Finished.mk ((id, j) :: f.objects)).take (id :: rest) = (j :: (f.take rest).1, (f.take rest).2) := by
  have hfind : (Finished.mk ((id, j) :: f.objects)).find? id = some j := by simp [find?]
  have herase : (Finished.mk ((id, j) :: f.objects)).erase id = f := by
    have hrest := erase_of_notMem h
    simp only [erase] at hrest ⊢
    rw [List.filter_cons_of_neg (by simp), hrest]
  simp only [take, hfind, herase]

lemma add_leaf (hn : n.children = none) (hnew : n.id ∉ f.ids) :
    f.add n = ⟨(n.id, n.nest []) :: f.objects⟩ := by
  simp only [add, hn, take]
  rw [erase_of_notMem hnew]

/-- A node whose children were finished last, the left one behind the right one, takes their place. -/
lemma add_fork (hn : n.children = some (left, right)) (hne : left ≠ right) (hleft : left ∉ f.ids)
    (hright : right ∉ f.ids) (hnew : n.id ∉ f.ids) :
    (Finished.mk ((left, l) :: (right, r) :: f.objects)).add n = ⟨(n.id, n.nest [l, r]) :: f.objects⟩ := by
  have houter : left ∉ (Finished.mk ((right, r) :: f.objects)).ids :=
    List.not_mem_cons_of_ne_of_not_mem hne hleft
  simp only [add, hn]
  rw [take_cons (f := ⟨(right, r) :: f.objects⟩) houter, take_cons hright]
  simp only [take]
  rw [erase_of_notMem hnew]

end Finished

namespace Tree

variable {t : Tree} {parent : Option NodeId} {id left right : NodeId} {s : Shape Node} {n : Node}
  {records : List Record}

lemma Unfolds.mem_idsOf (h : t.Unfolds parent id s) : id ∈ idsOf s := by
  cases h with
  | leaf _ named => exact List.mem_singleton.2 named.symm
  | fork _ named => exact List.mem_cons.2 (.inl named.symm)

/-- The nodes at and below an id, the last one first, add the object of the id to what is finished. -/
theorem Unfolds.foldr_add (h : t.Unfolds parent id s) (hnodup : (idsOf s).Nodup) (f : Finished)
    (hnew : ∀ i ∈ idsOf s, i ∉ f.ids) :
    ∃ j, nestedOf s = [j] ∧ s.preorder.foldr (fun n f => f.add n) f = ⟨(id, j) :: f.objects⟩ := by
  induction h generalizing f with
  | @leaf _ i n known named linked childless =>
    refine ⟨n.nest [], rfl, ?_⟩
    rw [preorder_leaf, List.foldr_cons, List.foldr_nil,
      Finished.add_leaf childless (hnew n.id (List.mem_singleton.2 rfl)), named]
  | @fork _ i left right n l r known named linked children hleft hright ihl ihr =>
    rw [idsOf, Shape.preorder, List.map_cons, List.map_append, List.nodup_cons, List.nodup_append] at hnodup
    obtain ⟨_, hl, hr, hapart⟩ := hnodup
    have hnew' : ∀ i, i ∈ idsOf l ∨ i ∈ idsOf r → i ∉ f.ids := fun i hi => hnew i (by
      rw [idsOf, Shape.preorder, List.map_cons, List.map_append]
      exact List.mem_cons_of_mem _ (List.mem_append.2 hi))
    have hlmem := hleft.mem_idsOf
    have hrmem := hright.mem_idsOf
    obtain ⟨jr, hjr, hfr⟩ := ihr hr f fun i hi => hnew' i (.inr hi)
    -- When the left side is met, the right child is finished and in front.
    obtain ⟨jl, hjl, hfl⟩ := ihl hl ⟨(right, jr) :: f.objects⟩ fun i hi =>
      List.not_mem_cons_of_ne_of_not_mem (hapart i hi right hrmem) (hnew' i (.inl hi))
    refine ⟨n.nest [jl, jr], by rw [nestedOf, hjl, hjr, List.singleton_append], ?_⟩
    rw [Shape.preorder, List.foldr_cons, List.foldr_append, hfr, hfl,
      Finished.add_fork children (hapart left hlmem right hrmem) (hnew' left (.inl hlmem))
        (hnew' right (.inr hrmem)) (hnew n.id List.mem_cons_self), named]

theorem Whole.nestedOf_eq (h : t.Whole s) : nestedOf s = [t.nested] := by
  obtain ⟨id, hroot, hs⟩ := h.unfolds
  obtain ⟨j, hj, hfold⟩ := hs.foldr_add h.nodup ⟨[]⟩ fun _ _ hmem => by cases hmem
  have hwalk : t.preorder.reverse.foldl (fun (f : Finished) (met : Node × Nat) => f.add met.1) ⟨[]⟩ =
      ⟨[(id, j)]⟩ := by
    rw [h.preorder_eq, List.foldl_reverse, ← hfold, ← map_fst_leveled 0 s, List.foldr_map]
  have hnested : t.nested = j := by
    rw [nested, hroot]
    change ((t.preorder.reverse.foldl (fun (f : Finished) (met : Node × Nat) => f.add met.1) ⟨[]⟩).find?
      id).getD .null = j
    rw [hwalk]
    simp [Finished.find?]
  rw [hj, hnested]

theorem Whole.graph_eq (h : t.Whole s) : t.graph = graphOf s := by
  have hlines : (t.preorder.map fun met => met.1.graphLines) = s.preorder.map Node.graphLines := by
    rw [h.preorder_eq, ← map_fst_leveled 0 s, List.map_map]
    rfl
  change graphHead ++ String.join (t.preorder.map fun met => met.1.graphLines) ++ "\x7d\n" = _
  rw [hlines, graphOf]

/-! ### The story of a tree -/

lemma subjects_nodup_of_ofRecords? (h : ofRecords? records = .ok t) :
    (records.filterMap subject?).Nodup := by
  induction records using List.reverseRecOn generalizing t with
  | nil => exact .nil
  | append_singleton before r ih =>
    obtain ⟨u, hbefore, happly⟩ := ofRecords?_append_singleton.1 h
    have hr := (knows_of_ofRecords? hbefore).apply_iff.1 ⟨t, happly⟩
    rw [List.filterMap_append, List.nodup_append]
    refine ⟨ih hbefore, ?_, ?_⟩
    · cases hs : subject? r <;> simp [hs]
    · rintro id hid _ hmem rfl
      obtain ⟨q, hq, hid'⟩ := List.mem_filterMap.1 hmem
      rw [List.mem_singleton.1 hq] at hid'
      exact hr.unfinished id hid' hid

lemma graphLines_leaf (childless : n.children = none) :
    n.graphLines = Story.nodeLine n.id n.graphStyle := by
  rw [Node.graphLines, childless]
  exact String.append_empty

lemma graphLines_fork (children : n.children = some (left, right)) :
    n.graphLines =
      Story.nodeLine n.id n.graphStyle ++ (Story.edgeLine n.id left ++ Story.edgeLine n.id right) := by
  rw [Node.graphLines, children]
  rfl

/-- A leaf is a leaf of the story too, ended if its path ended. -/
lemma Tells.exists_story_leaf (h : t.Tells records) (hn : t.node? id = some n) (childless : n.children = none) :
    ∃ story : Story, story.start = id ∧ story.Follows records ∧ story.ids = [id] ∧
      n.nest [] = story.nested ∧ n.graphLines = String.join story.lines := by
  have hid := h.named id n hn
  have hreason := ((h.complete id n hn).eq_none childless).2
  subst hid
  cases htermination : n.termination with
  | none =>
    refine ⟨.ongoing n.id, rfl, fun r hr hs => ?_, rfl, ?_, ?_⟩
    · refine Node.not_says_of_isOpen (n := n) ?_ r ((h.says_iff n.id n hn r hs).2 hr)
      exact Node.isOpen_iff.2 ⟨childless, htermination⟩
    · simp [Node.nest, Story.nested, hreason, htermination]
    · rw [graphLines_leaf childless, Node.graphStyle, hreason, htermination, Story.lines, String.join_cons,
        String.join_nil, String.append_empty]
  | some outcome =>
    refine ⟨.ended n.id outcome, rfl, ?_, rfl, ?_, ?_⟩
    · exact (h.says_iff n.id n hn (.terminate n.id outcome.state outcome.line outcome.kind) rfl).1 htermination
    · simp [Node.nest, Story.nested, hreason, htermination]
    · rw [graphLines_leaf childless, Node.graphStyle, hreason, htermination, Story.lines, String.join_cons,
        String.join_nil, String.append_empty]
      rfl

/-- A fork has no end, because one record was about it. -/
lemma Tells.termination_eq_none (h : t.Tells records) (hone : (records.filterMap subject?).Nodup)
    (hn : t.node? id = some n) {r : Record} (hs : subject? r = some id) (hr : r ∈ records)
    (hbranch : ∀ state line kind, r ≠ .terminate id state line kind) : n.termination = none := by
  refine Option.eq_none_iff_forall_ne_some.2 fun outcome houtcome => ?_
  have hend : .terminate id outcome.state outcome.line outcome.kind ∈ records :=
    (h.says_iff id n hn _ rfl).1 houtcome
  exact hbranch _ _ _ (Story.eq_of_subject?_eq hone hr hend hs rfl)

/-- What lies at and below an id is a story that goes as the records say, with the same pictures. -/
theorem Unfolds.exists_story (h : t.Unfolds parent id s) (ht : t.Tells records)
    (hone : (records.filterMap subject?).Nodup) :
    ∃ story : Story, story.start = id ∧ story.Follows records ∧ story.ids = idsOf s ∧
      nestedOf s = [story.nested] ∧
      String.join (s.preorder.map Node.graphLines) = String.join story.lines := by
  induction h with
  | @leaf _ i n known named linked childless =>
    obtain ⟨story, hstart, hfollows, hids, hnested, hlines⟩ := ht.exists_story_leaf known childless
    refine ⟨story, hstart, hfollows, by rw [hids, ← named]; rfl, congrArg (fun j => [j]) hnested, ?_⟩
    rw [preorder_leaf, List.map_singleton, ← hlines, String.join_cons, String.join_nil, String.append_empty]
  | @fork _ i left right n l r known named linked children _ _ ihl ihr =>
    obtain ⟨storyl, rfl, hfollowsl, hidsl, hnestedl, hlinesl⟩ := ihl
    obtain ⟨storyr, rfl, hfollowsr, hidsr, hnestedr, hlinesr⟩ := ihr
    have hcomplete := ht.complete i n known
    obtain ⟨line, reason, hsays⟩ := hcomplete.exists_says children
    subst named
    have hmem := (ht.says_iff n.id n known _ rfl).1 hsays
    have hend := ht.termination_eq_none hone known rfl hmem fun _ _ _ e => by cases e
    obtain ⟨_, hline, hreason⟩ := hsays
    refine ⟨.forked n.id line reason storyl storyr, rfl, ⟨hmem, hfollowsl, hfollowsr⟩, ?_, ?_, ?_⟩
    · simp only [Story.ids, hidsl, hidsr, idsOf, Shape.preorder, List.map_cons, List.map_append]
    · rw [nestedOf, hnestedl, hnestedr]
      simp [Node.nest, Story.nested, hreason, hend]
    · have hstyle : n.graphStyle = Story.label n.id reason.name line := by
        rw [Node.graphStyle, hreason, hline]
        rfl
      rw [Shape.preorder, List.map_cons, List.map_append, String.join_cons, String.join_append, hlinesl,
        hlinesr, Story.lines, String.join_cons, String.join_cons, String.join_cons, String.join_append,
        graphLines_fork children, hstyle, String.append_assoc, String.append_assoc]

/-- The story of a run uses each record once. -/
lemma Tells.perm_of_isToldBy (h : t.Tells records) (hrecords : records.Nodup)
    (hone : (records.filterMap subject?).Nodup) {story : Story} (hstory : story.IsToldBy records)
    (hids : ∀ id, id ∈ story.ids ↔ t.contains id = true) (hnodup : story.ids.Nodup) :
    (.root story.start :: story.records).Perm records := by
  have hstory' : (.root story.start :: story.records).Nodup := by
    refine List.nodup_cons.2 ⟨fun hmem => ?_, ?_⟩
    · cases Story.subject?_of_mem_records hmem
    · exact (hnodup.sublist story.map_nodeId_records_sublist).of_map
  rw [List.perm_ext_iff_of_nodup hstory' hrecords]
  intro r
  rw [List.mem_cons]
  constructor
  · rintro (rfl | hr)
    · exact hstory.root
    · exact hstory.follows.records_subset hr
  · intro hr
    cases hs : subject? r with
    | none =>
      cases r with
      | root id =>
        have hroot := (h.root_iff id).2 hr
        rw [(h.root_iff story.start).2 hstory.root] at hroot
        cases hroot
        exact .inl rfl
      | branch | terminate => cases hs
    | some id => exact .inr (hstory.follows.mem_records hone hr hs ((hids id).2 (h.known r hr id hs)))

end Tree

/-- Without records there is nothing to draw. Any other records that build a tree tell one story, which uses
each record once and has each node of the tree once, and the tree's nested objects and its graph are those of
the story. -/
theorem pictures_of_story {records : List Record} {t : Tree} (h : Tree.ofRecords? records = .ok t) :
    records = [] ∧ t.root = none ∧ t.nested = .null ∧ t.graph = graphHead ++ "\x7d\n" ∨
      ∃ story : Story, story.IsToldBy records ∧
        (∀ other : Story, other.IsToldBy records → other = story) ∧
        (.root story.start :: story.records).Perm records ∧
        story.ids.Nodup ∧ (∀ id, id ∈ story.ids ↔ t.contains id = true) ∧
        t.nested = story.nested ∧ t.graph = graphHead ++ String.join story.lines ++ "\x7d\n" := by
  rcases Tree.whole_of_ofRecords? h with ⟨rfl, rfl⟩ | ⟨_, s, hs⟩
  · exact .inl ⟨rfl, rfl, rfl, rfl⟩
  · have ht := Tree.tells_of_ofRecords? h
    have hone := Tree.subjects_nodup_of_ofRecords? h
    obtain ⟨id, hroot, hunfolds⟩ := hs.unfolds
    obtain ⟨story, rfl, hfollows, hids, hnested, hlines⟩ := hunfolds.exists_story ht hone
    have htold : story.IsToldBy records := ⟨(ht.root_iff story.start).1 hroot, hfollows⟩
    have hcontains : ∀ id, id ∈ story.ids ↔ t.contains id = true := by
      intro id
      rw [hids]
      refine ⟨fun hid => ?_, hs.complete id⟩
      obtain ⟨n, hn, rfl⟩ := List.mem_map.1 hid
      rw [Tree.contains, hs.node?_of_mem hn]
      rfl
    have hnodup : story.ids.Nodup := hids ▸ hs.nodup
    refine .inr ⟨story, htold, fun other hother => ?_, ?_, hnodup, hcontains, ?_, ?_⟩
    · have hstart := (ht.root_iff other.start).2 hother.root
      rw [hroot] at hstart
      exact hother.follows.unique hone hfollows (Option.some.inj hstart).symm
    · exact ht.perm_of_isToldBy (Tree.nodup_of_ofRecords? h) hone htold hcontains hnodup
    · exact (List.cons.inj (hs.nestedOf_eq.symm.trans hnested)).1
    · rw [hs.graph_eq, graphOf, hlines]

/-- Two forks, a path that ended well, one that ended with a fault, and one that goes on. -/
theorem pictures_of_two_forks :
    let records : List Record := [.root ⟨1⟩, .branch ⟨1⟩ ⟨2⟩ ⟨3⟩ 11 .conditional,
      .terminate ⟨2⟩ (some ⟨2⟩) 22 .exit, .branch ⟨3⟩ ⟨4⟩ ⟨5⟩ 13 .conditional,
      .terminate ⟨4⟩ (some ⟨4⟩) 24 .ptr]
    let story : Story := .forked ⟨1⟩ 11 .conditional (.ended ⟨2⟩ ⟨some ⟨2⟩, .exit, 22⟩)
      (.forked ⟨3⟩ 13 .conditional (.ended ⟨4⟩ ⟨some ⟨4⟩, .ptr, 24⟩) (.ongoing ⟨5⟩))
    ∃ t, Tree.ofRecords? records = .ok t ∧ t.nested = story.nested ∧
      t.graph = graphHead ++ String.join story.lines ++ "\x7d\n" := by
  intro records story
  obtain ⟨t, ht⟩ : ∃ t, Tree.ofRecords? records = .ok t := ⟨_, rfl⟩
  rcases pictures_of_story ht with ⟨hnone, _⟩ | ⟨told, _, hunique, _, _, _, hnested, hgraph⟩
  · exact absurd hnone (List.cons_ne_nil _ _)
  · have hstory : story = told := hunique story ⟨by decide, by decide⟩
    exact ⟨t, ht, hstory ▸ hnested, hstory ▸ hgraph⟩

end ForkTree.Replay
