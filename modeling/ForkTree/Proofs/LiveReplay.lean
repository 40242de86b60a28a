import ForkTree.Proofs.LogRoundTrip
import ForkTree.Proofs.ReplaySteps
import ForkTree.Proofs.SessionLog
import ForkTree.Replay.History

/-!
The live tree and the tree that its records build. `Tree.Mirrors` relates the two: by their ids, the
cells of the live tree are what is kept of the whole tree, and the next id is one that the whole tree
has not seen. Each call keeps that when its record is applied (`Mirrors.onTree`): a fork grows both at
the same leaf, an end takes the leaf out of one and closes it in the other. So it holds after any run,
and the log of a run is accepted and builds the live tree (`live_eq_kept`).
-/

namespace ForkTree

open Shape

/-- The id under which a cell is recorded. -/
def Cell.noteId (c : Cell) : Option NodeId := c.note.map Note.id

namespace Session.Call

lemma record?_refused {t : Tree} {pool : Pool} {call : Call}
    {fault : Tree.Fault} (h : call.refusal? t pool = some fault) : call.record? t pool = none := by
  cases call with
  | attach key left right reason => rw [record?, Tree.attach_refused h]
  | remove key => rw [record?, Tree.remove_refused h]
  | setKind | claimMask | commit | dump | engine => rfl

end Session.Call

namespace Tree

/-- The live tree is what is kept of a rebuilt tree. -/
structure Mirrors (t : Tree) (cells : Shape Cell) (r : Replay.Tree) (whole : Shape Replay.Node) :
    Prop where
  shows : t.Shows cells
  recorded : t.recorded = true
  rebuilt : r.Whole whole
  ids_le : ∀ id ∈ Replay.idsOf whole, id.val.toNat ≤ whole.size
  nextId_eq : t.nextId = UInt64.ofNat (whole.size + 1)
  kept_eq : cells.map Cell.noteId = (Replay.kept t.compress whole).map fun n => some n.id

/-- Applying a record to a rebuilt tree of `size` nodes makes it one that a live tree mirrors. -/
def Rebuilds (u : Tree) (r : Replay.Tree) (record : Option Log.Record) (size : Nat) : Prop :=
  ∃ r' cells whole, (∀ position, r.applyAll position record.toList = .ok r') ∧
    u.Mirrors cells r' whole ∧ whole.size = size + (record.toList.flatMap Replay.introduced).length

lemma Rebuilds.of_record {u : Tree} {r r' : Replay.Tree} {record : Log.Record} {size : Nat}
    {cells : Shape Cell} {whole : Shape Replay.Node} (happly : r.apply record = .ok r')
    (h : u.Mirrors cells r' whole) (hsize : whole.size = size + (Replay.introduced record).length) :
    u.Rebuilds r (some record) size := by
  refine ⟨r', cells, whole, fun position => ?_, h, ?_⟩
  · rw [Option.toList_some, Replay.Tree.applyAll, happly]
    rfl
  · rw [hsize, Option.toList_some, List.flatMap_singleton]

lemma Mirrors.rebuilds {u : Tree} {r : Replay.Tree} {cells : Shape Cell} {whole : Shape Replay.Node}
    (h : u.Mirrors cells r whole) : u.Rebuilds r none whole.size :=
  ⟨r, cells, whole, fun _ => rfl, h, rfl⟩

namespace Mirrors

variable {t u : Tree} {cells : Shape Cell} {r : Replay.Tree} {whole : Shape Replay.Node} {c d : Cell}

lemma leaves_eq (h : t.Mirrors cells r whole) :
    cells.leaves.map Cell.noteId =
      (whole.leaves.filter Replay.Node.isOpen).map fun n => some n.id := by
  have hleaves := congrArg Shape.leaves h.kept_eq
  rwa [leaves_map, leaves_map, Replay.leaves_kept] at hleaves

/-- A live leaf is an open leaf of the rebuilt tree. -/
lemma exists_open (h : t.Mirrors cells r whole) (hc : c ∈ cells.leaves) :
    ∃ note n, c.note = some note ∧ n ∈ whole.leaves ∧ n.isOpen = true ∧ n.id = note.id := by
  have hid : c.noteId ∈ cells.leaves.map Cell.noteId := List.mem_map_of_mem hc
  rw [h.leaves_eq, List.mem_map] at hid
  obtain ⟨n, hn, hid⟩ := hid
  rw [List.mem_filter] at hn
  obtain ⟨note, hnote, e⟩ := Option.map_eq_some_iff.1 hid.symm
  exact ⟨note, n, hnote, hn.1, hn.2, e.symm⟩

/-- Live leaves are told apart by their ids. -/
lemma key_eq_iff (h : t.Mirrors cells r whole) (hc : c ∈ cells.leaves) (hd : d ∈ cells.leaves) :
    d.key = c.key ↔ d.noteId = c.noteId := by
  have hsub : (whole.leaves.filter Replay.Node.isOpen).Sublist whole.preorder :=
    List.filter_sublist.trans (leaves_sublist_preorder whole)
  have hnodup : (cells.leaves.map Cell.noteId).Nodup := by
    have hsome : Function.Injective (some : NodeId → Option NodeId) := fun a b e => Option.some.inj e
    have hids := (h.rebuilt.nodup.sublist (hsub.map _)).map hsome
    rw [List.map_map] at hids
    rw [h.leaves_eq]
    exact hids
  constructor
  · intro e
    rw [eq_of_key_eq h.shows.nodup (leaves_subset_preorder _ hd) (leaves_subset_preorder _ hc) e]
  · intro e
    rw [List.inj_on_of_nodup_map hnodup hd hc e]

/-- Live nodes are told apart by their ids. -/
lemma nodup_noteIds (h : t.Mirrors cells r whole) : (cells.preorder.map Cell.noteId).Nodup := by
  have hsub : (Replay.kept t.compress whole).preorder.Sublist whole.preorder := by
    rw [Replay.kept]
    split
    · exact (preorder_contract_sublist _).trans (preorder_prune_sublist _ _)
    · exact preorder_prune_sublist _ _
  have hkept := congrArg Shape.preorder h.kept_eq
  rw [preorder_map, preorder_map] at hkept
  have hsome : Function.Injective (some : NodeId → Option NodeId) := fun a b e => Option.some.inj e
  have hids := (h.rebuilt.nodup.sublist (hsub.map _)).map hsome
  rw [List.map_map] at hids
  rw [hkept]
  exact hids

lemma key_eq_of_noteOf? (h : t.Mirrors cells r whole) {key key' : NodeKey}
    (hlive : (t.node? key).isSome = true) (hlive' : (t.node? key').isSome = true)
    (hid : (Recorded.noteOf? t key).map Note.id = (Recorded.noteOf? t key').map Note.id) : key = key' := by
  obtain ⟨c, hc, rfl⟩ := List.mem_map.1 (h.shows.live key hlive)
  obtain ⟨d, hd, rfl⟩ := List.mem_map.1 (h.shows.live key' hlive')
  rw [h.shows.reads.noteOf?_eq hc, h.shows.reads.noteOf?_eq hd] at hid
  rw [List.inj_on_of_nodup_map h.nodup_noteIds hc hd hid]

/-- What does not change the cells' ids keeps the live tree as it is. -/
lemma congr (h : t.Mirrors cells r whole) {cells' : Shape Cell} (hshows : u.Shows cells')
    (hcompress : u.compress = t.compress) (hrecorded : u.recorded = t.recorded)
    (hnextId : u.nextId = t.nextId) (hids : cells'.map Cell.noteId = cells.map Cell.noteId) :
    u.Mirrors cells' r whole where
  shows := hshows
  recorded := hrecorded.trans h.recorded
  rebuilt := h.rebuilt
  ids_le := h.ids_le
  nextId_eq := hnextId.trans h.nextId_eq
  kept_eq := by rw [hids, hcompress, h.kept_eq]

def idFork (id left right : NodeId) (o : Option NodeId) : Shape (Option NodeId) :=
  if o = some id then .node o (leaf (some left)) (leaf (some right)) else leaf o

lemma map_growAt (h : t.Mirrors cells r whole) (hc : c ∈ cells.leaves) {id left right : NodeId}
    (hid : c.noteId = some id) (reason : BranchReason) (line : UInt64) {l k : Cell}
    (hl : l.noteId = some left) (hk : k.noteId = some right) :
    (cells.growAt c.key (c.fork reason line l k)).map Cell.noteId =
      (Replay.branchAt id left right line reason (Replay.kept t.compress whole)).map fun n =>
        some n.id := by
  have hcells : (cells.growAt c.key (c.fork reason line l k)).map Cell.noteId =
      (cells.map Cell.noteId).grow (idFork id left right) := by
    refine map_grow fun d hd => ?_
    have hsame := h.key_eq_iff hc hd
    rw [hid] at hsame
    by_cases e : d.key = c.key
    · have hforked : (c.forked reason line).noteId = some id := by
        rw [← hid, Cell.noteId, Cell.forked, Cell.noteId, Option.map_map]
        rfl
      have hk' : Cell.noteId { k with tag := c.tag } = some right := hk
      rw [if_pos e, idFork, if_pos (hsame.1 e), hsame.1 e, Cell.fork, Shape.map, map_leaf, map_leaf,
        hforked, hl, hk']
    · rw [if_neg e, idFork, if_neg fun e' => e (hsame.2 e'), map_leaf]
  have hnodes : (Replay.branchAt id left right line reason (Replay.kept t.compress whole)).map
        (fun n => some n.id) =
      ((Replay.kept t.compress whole).map fun n => some n.id).grow (idFork id left right) := by
    refine map_grow fun n _ => ?_
    by_cases e : n.id = id
    · rw [if_pos e, idFork, if_pos (congrArg some e)]
      rfl
    · rw [if_neg e, idFork, if_neg fun e' => e (Option.some.inj e'), map_leaf]
  rw [hcells, hnodes, h.kept_eq]

lemma nextId_toNat (h : t.Mirrors cells r whole) {i : Nat}
    (hi : whole.size + 1 + i < UInt64.size) : (t.nextId + UInt64.ofNat i).toNat = whole.size + 1 + i := by
  rw [h.nextId_eq, ← UInt64.ofNat_add, UInt64.toNat_ofNat']
  exact Nat.mod_eq_of_lt hi

/-- The ids to come are new to the rebuilt tree. -/
lemma nextId_notMem (h : t.Mirrors cells r whole) {i : Nat} (hi : whole.size + 1 + i < UInt64.size) :
    (⟨t.nextId + UInt64.ofNat i⟩ : NodeId) ∉ Replay.idsOf whole := by
  intro hmem
  have hle := h.ids_le _ hmem
  rw [h.nextId_toNat hi] at hle
  omega

lemma record?_attach (h : t.Mirrors cells r whole) (hc : c ∈ cells.leaves) {pool : Pool}
    {right : PathRef} (hright : (pool.get? right).bind PathState.node = some c.key) (left : PathRef)
    (reason : BranchReason)
    (hsmall : (t.attach pool .none c.key left right reason).tree.nodes.slots.size ≤ UInt32.size)
    {note : Note} (hnote : c.note = some note) :
    (Session.Call.attach c.key left right reason).record? t pool =
      some (.branch note.id ⟨t.nextId + 0⟩ ⟨t.nextId + 1⟩ (pool.lineOf right) reason) := by
  rw [h.shows.record?_attach hc hright left reason hsmall, hnote, noteAfter, noteAfter,
    if_pos h.recorded, if_pos h.recorded]
  rfl

theorem attach (h : t.Mirrors cells r whole) (hc : c ∈ cells.leaves) {pool : Pool} {right : PathRef}
    (hright : (pool.get? right).bind PathState.node = some c.key) (left : PathRef)
    (reason : BranchReason)
    (hsmall : (t.attach pool .none c.key left right reason).tree.nodes.slots.size ≤ UInt32.size)
    (hids : whole.size + (((Session.Call.attach c.key left right reason).record? t pool).toList.flatMap
      Replay.introduced).length < UInt64.size) :
    (t.attach pool .none c.key left right reason).tree.Rebuilds r
      ((Session.Call.attach c.key left right reason).record? t pool) whole.size := by
  obtain ⟨note, n, hnote, hn, hopen, hid⟩ := h.exists_open hc
  rw [h.record?_attach hc hright left reason hsmall hnote] at hids ⊢
  change whole.size + 2 < UInt64.size at hids
  obtain ⟨lkey, rkey, u, heq, hu⟩ := h.shows.attach hc hright left reason hsmall
  have hlval : (t.nextId + 0).toNat = whole.size + 1 := h.nextId_toNat (i := 0) (by omega)
  have hrval : (t.nextId + 1).toNat = whole.size + 2 := h.nextId_toNat (i := 1) (by omega)
  have hlnew : ⟨t.nextId + 0⟩ ∉ Replay.idsOf whole := h.nextId_notMem (i := 0) (by omega)
  have hrnew : ⟨t.nextId + 1⟩ ∉ Replay.idsOf whole := h.nextId_notMem (i := 1) (by omega)
  have hne : (⟨t.nextId + 0⟩ : NodeId) ≠ ⟨t.nextId + 1⟩ := by
    intro e
    have hval := congrArg (fun id : NodeId => id.val.toNat) e
    simp only [hlval, hrval] at hval
    omega
  obtain ⟨r', happly, hwhole⟩ := h.rebuilt.branch hn hopen hlnew hrnew hne (pool.lineOf right) reason
  have hperm := Replay.idsOf_branchAt h.rebuilt.nodup hn ⟨t.nextId + 0⟩ ⟨t.nextId + 1⟩
    (pool.lineOf right) reason
  have hsize := Replay.size_branchAt h.rebuilt.nodup hn ⟨t.nextId + 0⟩ ⟨t.nextId + 1⟩
    (pool.lineOf right) reason
  have hopen' : ∀ m ∈ whole.leaves, m.id = n.id → m.isOpen = true := by
    intro m hm e
    rw [Replay.eq_of_id_eq h.rebuilt.nodup (leaves_subset_preorder _ hm) (leaves_subset_preorder _ hn) e]
    exact hopen
  have hnoteId : c.noteId = some n.id := by
    rw [Cell.noteId, hnote, hid]
    rfl
  have hl : (t.noteAfter 0).map Note.id = some ⟨t.nextId + 0⟩ := by
    rw [noteAfter, if_pos h.recorded]
    rfl
  have hr : (t.noteAfter 1).map Note.id = some ⟨t.nextId + 1⟩ := by
    rw [noteAfter, if_pos h.recorded]
    rfl
  rw [hid] at happly hwhole hperm hsize hopen' hnoteId
  rw [heq]
  refine .of_record happly ⟨hu.shows, hu.recorded_eq.trans h.recorded, hwhole, ?_, ?_, ?_⟩ hsize
  · intro id hmem
    rw [hperm.mem_iff, List.mem_cons, List.mem_cons] at hmem
    rw [hsize]
    rcases hmem with rfl | rfl | hmem
    · exact Nat.le_of_lt (by rw [hlval]; omega)
    · exact Nat.le_of_eq hrval
    · exact Nat.le_trans (h.ids_le id hmem) (Nat.le_add_right _ _)
  · rw [hsize, hu.nextId_eq, if_pos h.recorded, h.nextId_eq]
    exact (UInt64.ofNat_add (whole.size + 1) 2).symm
  · rw [hu.compress_eq, Replay.kept_branchAt _ hopen']
    exact h.map_growAt hc hnoteId reason _ hl hr

lemma map_removed (h : t.Mirrors cells r whole) (hc : c ∈ cells.leaves) {id : NodeId}
    (hid : c.noteId = some id) (state : Option StateId) (line : UInt64) (kind : TerminationKind) :
    (cells.removed t.compress c.key).map Cell.noteId =
      (Replay.kept t.compress (Replay.endAt id state line kind whole)).map fun n => some n.id := by
  have hcut : (cells.cutAt c.key).map Cell.noteId =
      ((Replay.kept t.compress whole).prune fun n => n.id ≠ id).map fun n => some n.id := by
    have hcells : (cells.cutAt c.key).map Cell.noteId =
        (cells.map Cell.noteId).prune fun o => o ≠ some id := by
      refine map_prune fun d hd => ?_
      have hsame := h.key_eq_iff hc hd
      rw [hid] at hsame
      exact decide_eq_decide.2 (not_congr hsame)
    rw [hcells, h.kept_eq]
    refine (map_prune fun n _ => ?_).symm
    exact decide_eq_decide.2 (not_congr ⟨congrArg some, Option.some.inj⟩)
  have hended := congrArg (Shape.map some) (Replay.kept_endAt t.compress whole id state line kind)
  rw [map_map, map_map] at hended
  rw [hended, Shape.removed]
  split
  · rw [map_contract, hcut, map_contract]
  · exact hcut

theorem remove (h : t.Mirrors cells r whole) (hc : c ∈ cells.leaves) (pool : Pool) :
    (t.remove pool .none c.key).tree.Rebuilds r ((Session.Call.remove c.key).record? t pool)
      whole.size := by
  obtain ⟨note, n, hnote, hn, hopen, hid⟩ := h.exists_open hc
  obtain ⟨path, hpath⟩ := Option.isSome_iff_exists.1 (h.shows.bookmarked.of_mem_leaves hc)
  have hrecord := h.shows.record?_remove hc hpath pool
  obtain ⟨u, heq, hu, hsettings⟩ := h.shows.remove hc hpath pool
  simp only [settings, Prod.mk.injEq] at hsettings
  obtain ⟨hcompress, hrecorded, hnextId, _⟩ := hsettings
  obtain ⟨last, hlast, hlastId⟩ : ∃ last, finalNote c.note (pool.get? path) = some last ∧
      last.id = n.id := by
    rw [hnote]
    cases pool.get? path with
    | none => exact ⟨_, rfl, hid.symm⟩
    | some state => exact ⟨_, rfl, hid.symm⟩
  have hnoteId : c.noteId = some n.id := by
    rw [Cell.noteId, hnote, hid]
    rfl
  obtain ⟨r', happly, hwhole⟩ := h.rebuilt.terminate hn hopen last.state last.line last.kind
  rw [hlast, Option.map_some, Recorded.endRecord, hlastId] at hrecord
  have hids := Replay.idsOf_endAt n.id last.state last.line last.kind whole
  have hsize : (Replay.endAt n.id last.state last.line last.kind whole).size = whole.size :=
    size_map _ _
  rw [hrecord, heq]
  refine .of_record happly ⟨hu, hrecorded.trans h.recorded, hwhole, ?_, ?_, ?_⟩ hsize
  · rw [hids, hsize]
    exact h.ids_le
  · rw [hsize, hnextId, h.nextId_eq]
  · rw [hcompress]
    exact h.map_removed hc hnoteId _ _ _

lemma setKind (h : t.Mirrors cells r whole) (path : PathState) (kind : TerminationKind) :
    ∃ cells', (t.setKind path kind).Mirrors cells' r whole := by
  obtain ⟨hu, hsettings⟩ := h.shows.setKind path kind
  simp only [settings, Prod.mk.injEq] at hsettings
  obtain ⟨hcompress, hrecorded, hnextId, _⟩ := hsettings
  refine ⟨_, h.congr hu hcompress hrecorded hnextId ?_⟩
  cases path.node with
  | none => rfl
  | some key =>
    rw [Option.elim_some, editAt, map_map]
    refine map_congr fun c _ => ?_
    split
    · rw [Cell.noteId, Cell.withKind, Option.map_map]
      rfl
    · rfl

/-- A call keeps the live tree and the rebuilt tree alike. -/
theorem onTree (h : t.Mirrors cells r whole) (pool : Pool) (call : Session.Call)
    (hsmall : (call.onTree .none t pool).tree.nodes.slots.size ≤ UInt32.size)
    (hids : whole.size + ((call.record? t pool).toList.flatMap Replay.introduced).length < UInt64.size) :
    (call.onTree .none t pool).tree.Rebuilds r (call.record? t pool) whole.size := by
  cases hrefused : call.refusal? t pool with
  | some fault =>
    rw [onTree_refused hrefused, Session.Call.record?_refused hrefused]
    exact h.rebuilds
  | none =>
    cases call with
    | attach key left right reason =>
      obtain ⟨n, live, hleaf, hright⟩ := attachRefusal?_eq_none hrefused
      obtain ⟨c, hc, rfl⟩ := h.shows.exists_leaf live hleaf
      exact h.attach hc hright left reason hsmall hids
    | remove key =>
      obtain ⟨n, live, hleaf⟩ := removeRefusal?_eq_none hrefused
      obtain ⟨c, hc, rfl⟩ := h.shows.exists_leaf live hleaf
      exact h.remove hc pool
    | setKind path kind =>
      obtain ⟨cells', hmirrors⟩ := h.setKind path kind
      exact hmirrors.rebuilds
    | claimMask =>
      exact (h.congr (u := t.claimMask.2) (h.shows.congr rfl rfl rfl) rfl rfl rfl rfl).rebuilds
    | commit | dump | engine => exact h.rebuilds

end Mirrors

end Tree

/-! ### Runs -/

namespace Session

variable {σ : Type} {hash : Digest.Hash} {storage : Storage σ} {x : Session σ} {t : Tree}
  {cells : Shape Cell} {r : Replay.Tree} {whole : Shape Replay.Node}

/-- After any calls the records made build a tree that the live tree mirrors. -/
theorem rebuilds_after (htree : x.tracker.tree? = some t) (h : t.Mirrors cells r whole)
    (calls : List Call) (hsmall : (x.after hash storage calls).slots ≤ UInt32.size)
    (hids : whole.size + ((x.records hash storage calls).flatMap Replay.introduced).length <
      UInt64.size) :
    ∃ u r' cells' whole', (x.after hash storage calls).tracker.tree? = some u ∧
      (∀ position, r.applyAll position (x.records hash storage calls) = .ok r') ∧
      u.Mirrors cells' r' whole' := by
  induction calls generalizing x t cells r whole with
  | nil => exact ⟨t, r, cells, whole, htree, fun _ => rfl, h⟩
  | cons call calls ih =>
    obtain ⟨_, hstep, _⟩ := step_onTree hash storage .none htree call
    have hslots := Nat.le_trans (slots_le_after hash storage hstep calls) hsmall
    rw [slots_eq hstep] at hslots
    have hrecord : x.record? call = call.record? t x.pool := by
      rw [record?, htree]
      rfl
    rw [records, hrecord, List.flatMap_append, List.length_append] at hids
    obtain ⟨r', cells', whole', happly, hmirrors, hsize⟩ := h.onTree x.pool call hslots (by omega)
    obtain ⟨u, r'', cells'', whole'', hu, hrest, hlast⟩ := ih hstep hmirrors hsmall (by omega)
    refine ⟨u, r'', cells'', whole'', hu, fun position => ?_, hlast⟩
    rw [records, hrecord, Replay.Tree.applyAll_append, happly]
    exact hrest _

lemma mirrors_start (path : PathRef) (compress : Bool) (pool : Pool) :
    ∃ cells r whole, (∀ position, Replay.Tree.empty.applyAll position [.root ⟨1⟩] = .ok r) ∧
      (Tree.start path compress true pool).1.Mirrors cells r whole ∧ whole.size = 1 := by
  obtain ⟨key, _, hshows⟩ := Tree.shows_start path compress true pool
  obtain ⟨r, happly, hwhole⟩ := Replay.Tree.whole_root ⟨1⟩
  refine ⟨_, r, _, fun position => ?_, ⟨hshows, rfl, hwhole, ?_, rfl, ?_⟩, rfl⟩
  · rw [Replay.Tree.applyAll, happly]
    rfl
  · intro id hid
    rw [List.mem_singleton.1 hid]
    exact Nat.le_refl _
  · cases compress <;> rfl

/-- The requests of a call bring its record. -/
lemma records_requests (x : Session σ) (call : Call) :
    (x.requests call).flatMap Log.Writer.Op.records = (x.record? call).toList := by
  have hwrites : ∀ record : Option Log.Record,
      (record.toList.map Log.Writer.Op.write).flatMap Log.Writer.Op.records = record.toList := by
    intro record
    cases record <;> rfl
  rw [requests, record?]
  cases x.tracker.tree? with
  | none => rfl
  | some t =>
    rw [Option.map_some, Option.getD_some, Option.bind_some]
    cases call with
    | commit | dump => rfl
    | attach | remove | setKind | claimMask | engine => exact hwrites _

lemma records_logged (x : Session σ) (calls : List Call) :
    (x.logged hash storage calls).flatMap Log.Writer.Op.records = x.emitted hash storage calls := by
  have hall : (x.allRequests hash storage calls).flatMap Log.Writer.Op.records =
      x.records hash storage calls := by
    induction calls generalizing x with
    | nil => rfl
    | cons call calls ih =>
      rw [allRequests, records, List.flatMap_append, records_requests, ih]
  rw [logged, emitted, List.flatMap_append, hall]
  cases x.tracker.tree?.bind Recorded.rootRecord? <;> rfl

lemma tracker_eq_of_writer? {w : Log.Writer} (htree : x.tracker.tree? = some t)
    (hwriter : x.writer? = some w) : x.tracker = .recorded ⟨t, some w⟩ := by
  obtain ⟨tracker, pool, s⟩ := x
  cases tracker with
  | idle | live => cases hwriter
  | recorded r =>
    obtain ⟨tree, writer⟩ := r
    cases htree
    simp only [writer?] at hwriter
    rw [hwriter]

/-- The log of a session that records is what its requests make of the log that was opened. -/
lemma logAfter_logged (hash : Digest.Hash) (storage : Storage σ) {config : Config}
    (hpersist : config.persist = true) (inMemory : Bool) (run : RunId) (path : PathRef) (pool : Pool)
    (s : σ) (calls : List Call) :
    let x := create hash storage config inMemory run path pool s
    ((x.after hash storage calls).writer?, (x.after hash storage calls).storage) =
      logAfter hash storage (opened storage config run s).1 (opened storage config run s).2
        (x.logged hash storage calls) := by
  intro x
  have hx := create_of_persist hash storage config hpersist inMemory run path pool s
  have hlogged : x.logged hash storage calls =
      [.write (.root ⟨1⟩)] ++ x.allRequests hash storage calls := by
    rw [logged]
    congr 1
    simp only [x, hx]
    rfl
  have hstart : (x.writer?, x.storage) = logAfter hash storage (opened storage config run s).1
      (opened storage config run s).2 [.write (.root ⟨1⟩)] := by
    simp only [x, hx]
    rfl
  rw [after_log, hlogged, logAfter_append, ← hstart]

/-- The writer of a session that records, on storage that never fails, is on the track of what it was
asked. -/
lemma exists_tracks {config : Config} {content : σ → Option Bytes}
    (hkeeps : storage.Keeps config.logPath content) (hpersist : config.persist = true)
    (hcodec : Log.Codec.ofName? config.compression = some .plain) (inMemory : Bool) (run : RunId)
    (path : PathRef) (pool : Pool) (s : σ) (calls : List Call) :
    let x := create hash storage config inMemory run path pool s
    (Log.Cut.ofOps (max config.batchSize 1) (x.logged hash storage calls)).Fits run →
      ∃ w, (x.after hash storage calls).writer? = some w ∧
        w.Tracks hash config.logPath content run (max config.batchSize 1)
          (Log.Cut.ofOps (max config.batchSize 1) (x.logged hash storage calls))
          (x.after hash storage calls).storage := by
  intro x hfits
  obtain ⟨w₀, s₀, hcreate, hstart⟩ := Log.Writer.create_eq hash hkeeps config.batchSize run s
  have hopened : opened storage config run s = (some w₀, s₀) := by
    simp only [opened, hcodec, hcreate]
  have hlog := logAfter_logged hash storage hpersist inMemory run path pool s calls
  rw [hopened] at hlog
  obtain ⟨hlast, hlast'⟩ := Prod.mk.inj hlog
  refine ⟨_, hlast, ?_⟩
  rw [hlast']
  exact hstart.serve hkeeps _ hfits

/-- Whatever calls a session takes that records on storage that never fails, refused ones included: its
log and what waits for it are the records made so far, these build a tree, and the live tree is what is
kept of that. So the live leaves are the leaves of the rebuilt tree whose paths go on. The bounds are
the number of slot numbers and of node ids, and what fits in a segment. -/
theorem live_eq_kept (hash : Digest.Hash) {storage : Storage σ} {config : Config}
    {content : σ → Option Bytes} (hkeeps : storage.Keeps config.logPath content)
    (hpersist : config.persist = true)
    (hcodec : Log.Codec.ofName? config.compression = some .plain) (inMemory : Bool) (run : RunId)
    (path : PathRef) (pool : Pool) (s : σ) (calls : List Call) :
    let x := create hash storage config inMemory run path pool s
    let y := x.after hash storage calls
    y.slots ≤ UInt32.size →
    ((x.emitted hash storage calls).flatMap Replay.introduced).length < UInt64.size →
    (Log.Cut.ofOps (max config.batchSize 1) (x.logged hash storage calls)).Fits run →
      ∃ t w found r live whole, y.tracker = .recorded ⟨t, some w⟩ ∧
        Log.read hash storage y.storage w.path = .ok found ∧
        found.records ++ w.pending = x.emitted hash storage calls ∧
        Replay.Tree.ofRecords? (x.emitted hash storage calls) = .ok r ∧
        r.Whole whole ∧ t.Holds live ∧ t.compress = config.compress ∧
        live.map (fun p => p.2.note.map Note.id) =
          (Replay.kept config.compress whole).map (fun n => some n.id) ∧
        live.leaves.map (fun p => p.2.note.map Note.id) =
          (whole.leaves.filter Replay.Node.isOpen).map fun n => some n.id := by
  intro x y hsmall hids hfits
  obtain ⟨w, hwriter, htracks⟩ :=
    exists_tracks hkeeps hpersist hcodec inMemory run path pool s calls hfits
  obtain ⟨found, hfound⟩ := htracks.readsBack hkeeps hfits
  have hx := create_of_persist hash storage config hpersist inMemory run path pool s
  have htree : x.tracker.tree? = some (Tree.start path config.compress true pool).1 := by
    simp only [x, hx]
    rfl
  have hemitted : x.emitted hash storage calls = .root ⟨1⟩ :: x.records hash storage calls := by
    rw [emitted, htree, Option.bind_some, rootRecord?_start]
    rfl
  obtain ⟨cells₀, r₀, whole₀, hroot, hmirrors, hsize⟩ := mirrors_start path config.compress pool
  have hroom : whole₀.size + ((x.records hash storage calls).flatMap Replay.introduced).length <
      UInt64.size := by
    rw [hemitted, List.flatMap_cons, List.length_append] at hids
    rw [hsize]
    exact hids
  obtain ⟨t, r, cells, whole, ht, happly, hlast⟩ := rebuilds_after htree hmirrors calls hsmall hroom
  obtain ⟨u, _, hu, hcompress, _⟩ := exists_shows hash storage htree hmirrors.shows calls hsmall
  rw [hu] at ht
  cases ht
  obtain ⟨live, hlive, hholds⟩ := hlast.shows.holds
  have hmap : live.map (fun p => p.2.note.map Note.id) =
      (Replay.kept config.compress whole).map fun n => some n.id := by
    have hcells := Tree.map_cellsOf (fun _ _ note => note.map Note.id) t.root live
    rw [hlive] at hcells
    have hconfig : t.compress = config.compress := hcompress
    rw [← hconfig, ← hlast.kept_eq]
    exact hcells.symm
  refine ⟨t, w, found, r, live, whole, tracker_eq_of_writer? hu hwriter, hfound.read_eq, ?_, ?_,
    hlast.rebuilt, hholds, hcompress, hmap, ?_⟩
  · rw [hfound.records_eq, records_logged]
  · have hfirst : x.emitted hash storage calls = [.root ⟨1⟩] ++ x.records hash storage calls := hemitted
    rw [Replay.Tree.ofRecords?, hfirst, Replay.Tree.applyAll_append, hroot]
    exact happly _
  · have hleaves := congrArg Shape.leaves hmap
    rwa [leaves_map, leaves_map, Replay.leaves_kept] at hleaves

/-- Two forks and the end of a path in a compressing tree, with batches of two records. -/
theorem live_eq_kept_after_end :
    let hash : Digest.Hash := fun _ => ⟨List.replicate 32 0, rfl⟩
    let config := { Config.default with compress := true, persist := true, batchSize := 2 }
    let x := create hash Storage.memory config false default ⟨0⟩
      ⟨#[some (.fresh ⟨1⟩), some (.fresh ⟨2⟩), some (.fresh ⟨3⟩)]⟩ .empty
    let calls : List Call := [.attach ⟨0, 0⟩ ⟨1⟩ ⟨0⟩ .conditional, .attach ⟨2, 0⟩ ⟨2⟩ ⟨0⟩ .switch,
      .remove ⟨1, 0⟩, .commit]
    (x.after hash Storage.memory calls).slots ≤ UInt32.size ∧
      ((x.emitted hash Storage.memory calls).flatMap Replay.introduced).length < UInt64.size ∧
      (Log.Cut.ofOps 2 (x.logged hash Storage.memory calls)).Fits default ∧
      ∃ t w r live whole, (x.after hash Storage.memory calls).tracker = .recorded ⟨t, some w⟩ ∧
        Replay.Tree.ofRecords? (x.emitted hash Storage.memory calls) = .ok r ∧ r.Whole whole ∧
        t.Holds live ∧ live.map (fun p => p.2.note.map Note.id) =
          (Replay.kept true whole).map (fun n => some n.id) := by
  intro hash config x calls
  have hslots : (x.after hash Storage.memory calls).slots ≤ UInt32.size := by decide +kernel
  have hids : ((x.emitted hash Storage.memory calls).flatMap Replay.introduced).length <
      UInt64.size := by decide +kernel
  have hcodec : Log.Codec.ofName? config.compression = some .plain := by decide +kernel
  have hbatches : (Log.Cut.ofOps 2 (x.logged hash Storage.memory calls)).batches =
      [[.root ⟨1⟩, .branch ⟨1⟩ ⟨2⟩ ⟨3⟩ 0 .conditional],
        [.branch ⟨3⟩ ⟨4⟩ ⟨5⟩ 0 .switch, .terminate ⟨2⟩ (some ⟨2⟩) 0 .running]] := by decide +kernel
  have hfits : (Log.Cut.ofOps 2 (x.logged hash Storage.memory calls)).Fits default := by
    refine ⟨by rw [hbatches]; decide, fun i batch hi => ?_⟩
    rw [hbatches] at hi
    have hlt : i < 2 := (List.getElem?_eq_some_iff.1 hi).1
    match i, hlt, hi with
    | 0, _, hi =>
      cases hi
      decide +kernel
    | 1, _, hi =>
      cases hi
      decide +kernel
  have hpersist : config.persist = true := rfl
  obtain ⟨t, w, found, r, live, whole, htracker, _, _, hreplay, hwhole, hholds, _, hmap, _⟩ :=
    live_eq_kept hash (Storage.keeps_memory config.logPath) hpersist hcodec false default _ _ _ calls
      hslots hids hfits
  exact ⟨hslots, hids, hfits, t, w, r, live, whole, htracker, hreplay, hwhole, hholds, hmap⟩

end Session

end ForkTree
