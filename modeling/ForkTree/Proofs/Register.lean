import ForkTree.Proofs.LiveReplay
import ForkTree.Proofs.Search

/-!
What the records of a run are about. A `Register` is kept from the calls alone: it counts the forks, which
number the nodes, and knows of each path under which id the leaf was made that it is at and which kind of
end was last announced there. The notes of the live tree are what the register says of the paths at its
leaves (`Keeps`), though slots are used again, nodes are elided and paths are let go in between. So each
call makes the record that the register calls for (`Keeps.step`), and the ids of a run are the numbers from
one on (`emitted_after`).
-/

namespace ForkTree

open Shape

def NodeId.numbered (i : Nat) : NodeId := ⟨UInt64.ofNat i⟩

/-- What is known of the leaf that a path is at. -/
structure Account where
  id : NodeId
  kind : TerminationKind
  deriving DecidableEq

def Account.fresh (i : Nat) : Account := ⟨.numbered i, .running⟩

/-- The note of a leaf. No line and no state are noted before the path ends. -/
def Account.note (a : Account) : Note := { Note.fresh a.id with kind := a.kind }

structure Register where
  forks : Nat
  account? : PathRef → Option Account

namespace Register

def start (path : PathRef) : Register := ⟨0, Function.update (fun _ => none) path (some (.fresh 1))⟩

/-- The next fork puts the two paths at new leaves. -/
def fork (g : Register) (left right : PathRef) : Register where
  forks := g.forks + 1
  account? := Function.update
    (Function.update g.account? left (some (.fresh (2 * (g.forks + 1)))))
    right (some (.fresh (2 * (g.forks + 1) + 1)))

/-- The end of a path is announced. -/
def setKind (g : Register) (path : PathRef) (kind : TerminationKind) : Register :=
  { g with account? := Function.update g.account? path ((g.account? path).map ({ · with kind })) }

variable {σ : Type}

/-- The register after a call. An end counts for the path at the leaf at which it is announced. -/
def take (g : Register) (x : Session σ) : Session.Call → Register
  | .attach _ left right _ => g.fork left right
  | .setKind path kind => ((path.node.bind x.pathAt?).map (g.setKind · kind)).getD g
  | _ => g

def after (hash : Digest.Hash) (storage : Storage σ) :
    Register → Session σ → List Session.Call → Register
  | g, _, [] => g
  | g, x, call :: rest => after hash storage (g.take x call) (x.step hash storage .none call).2 rest

/-- The record that is to be made of a call. -/
def Enters (g : Register) (x : Session σ) : Session.Call → Option Log.Record → Prop
  | .attach key _ right reason, record => ∃ a, x.pathAt? key = some right ∧ g.account? right = some a ∧
    record = some (.branch a.id (.numbered (2 * (g.forks + 1))) (.numbered (2 * (g.forks + 1) + 1))
      (x.pool.lineOf right) reason)
  | .remove key, record => ∃ path a, x.pathAt? key = some path ∧ g.account? path = some a ∧
    record = some (.terminate a.id ((x.pool.get? path).map PathState.id) (x.pool.lineOf path) a.kind)
  | _, record => record = none

/-- The ids that were given out so far. -/
def ids (g : Register) : List NodeId := (List.range (2 * g.forks + 1)).map fun i => .numbered (i + 1)

/-- The register says what is noted at the leaves. -/
structure Keeps (g : Register) (x : Session σ) (t : Tree) (s : Shape Cell) : Prop where
  links : x.Links t s
  recorded : t.recorded = true
  nextId_eq : t.nextId = UInt64.ofNat (2 * (g.forks + 1))
  noted : ∀ c ∈ s.leaves, ∀ path, c.bookmark = some path →
    ∃ a, g.account? path = some a ∧ c.note = some a.note

section Accounts

variable {g : Register} {left right path q : PathRef} {kind : TerminationKind}

lemma account?_start (path : PathRef) : (start path).account? path = some (.fresh 1) := by
  simp only [start, Function.update_self]

lemma account?_fork_left (hne : left ≠ right) :
    (g.fork left right).account? left = some (.fresh (2 * (g.forks + 1))) := by
  simp only [fork, Function.update_of_ne hne, Function.update_self]

lemma account?_fork_right :
    (g.fork left right).account? right = some (.fresh (2 * (g.forks + 1) + 1)) := by
  simp only [fork, Function.update_self]

lemma account?_fork_of_ne (hleft : path ≠ left) (hright : path ≠ right) :
    (g.fork left right).account? path = g.account? path := by
  simp only [fork, Function.update_of_ne hright, Function.update_of_ne hleft]

lemma account?_setKind_self :
    (g.setKind path kind).account? path = (g.account? path).map ({ · with kind }) := by
  simp only [setKind, Function.update_self]

lemma account?_setKind_of_ne (hne : q ≠ path) : (g.setKind path kind).account? q = g.account? q := by
  simp only [setKind, Function.update_of_ne hne]

end Accounts

lemma ids_fork (g : Register) (left right : PathRef) :
    (g.fork left right).ids =
      g.ids ++ [.numbered (2 * (g.forks + 1)), .numbered (2 * (g.forks + 1) + 1)] := by
  have hrange : 2 * (g.forks + 1) + 1 = 2 * g.forks + 1 + 2 := by omega
  simp only [ids, fork, hrange, List.range_add, List.map_append, List.append_cancel_left_eq]
  rfl

lemma forks_take_setKind (g : Register) (x : Session σ) (path : PathState) (kind : TerminationKind) :
    (g.take x (.setKind path kind)).forks = g.forks := by
  rw [take]
  cases path.node.bind x.pathAt? <;> rfl

/-- A record brings the ids that the register gives out. -/
lemma Enters.ids_eq {g : Register} {x : Session σ} {call : Session.Call} {record : Option Log.Record}
    (h : g.Enters x call record) :
    g.ids ++ record.toList.flatMap Replay.introduced = (g.take x call).ids := by
  cases call with
  | attach key left right reason =>
    obtain ⟨a, _, _, rfl⟩ := h
    exact (g.ids_fork left right).symm
  | remove key =>
    obtain ⟨path, a, _, _, rfl⟩ := h
    exact List.append_nil _
  | setKind path kind =>
    have hnone : record = none := h
    rw [hnone, ids, ids, forks_take_setKind]
    exact List.append_nil _
  | claimMask | commit | dump | engine =>
    have hnone : record = none := h
    rw [hnone]
    exact List.append_nil _

section Call

variable {g : Register} {x : Session σ} {t : Tree} {s : Shape Cell} {c : Cell} {hash : Digest.Hash}
  {storage : Storage σ}

lemma Keeps.noteAfter_eq (h : g.Keeps x t s) (i : Nat) :
    t.noteAfter (UInt64.ofNat i) = some (Account.fresh (2 * (g.forks + 1) + i)).note := by
  rw [Tree.noteAfter, if_pos h.recorded, h.nextId_eq, ← UInt64.ofNat_add]
  rfl

lemma Keeps.record?_eq (h : g.Keeps x t s) (call : Session.Call) :
    x.record? call = call.record? t x.pool := by
  rw [Session.record?, h.links.tree_eq]
  rfl

/-- A call that gives out no ids. -/
lemma Keeps.of_settings (h : g.Keeps x t s) {g' : Register} (hforks : g'.forks = g.forks) {y : Session σ}
    {u : Tree} {s' : Shape Cell} (hlinks : y.Links u s') (hsettings : u.settings = t.settings)
    (hnoted : ∀ d ∈ s'.leaves, ∀ path, d.bookmark = some path →
      ∃ a, g'.account? path = some a ∧ d.note = some a.note) : g'.Keeps y u s' := by
  simp only [Tree.settings, Prod.mk.injEq] at hsettings
  obtain ⟨_, hrecorded, hnextId, _⟩ := hsettings
  refine ⟨hlinks, hrecorded.trans h.recorded, ?_, hnoted⟩
  rw [hnextId, h.nextId_eq, hforks]

lemma Keeps.noted_growAt (h : g.Keeps x t s) (hc : c ∈ s.leaves) {left right : PathRef}
    (hright : x.pool.leafOf? right = some c.key) (hleft : x.pool.isAlive left = true)
    (hnone : x.pool.leafOf? left = none) (reason : BranchReason) (line : UInt64) (l r : NodeKey) :
    ∀ d ∈ (s.growAt c.key (c.fork reason line ⟨l, 0, some left, t.noteAfter 0⟩
      ⟨r, 0, some right, t.noteAfter 1⟩)).leaves, ∀ q, d.bookmark = some q →
        ∃ a, (g.fork left right).account? q = some a ∧ d.note = some a.note := by
  intro d hd q hq
  rw [mem_leaves_growAt hc] at hd
  rcases hd with rfl | rfl | ⟨hd, hkey⟩
  · cases hq
    have hne : left ≠ right := by
      rintro rfl
      rw [hnone] at hright
      cases hright
    exact ⟨_, account?_fork_left hne, h.noteAfter_eq 0⟩
  · cases hq
    exact ⟨_, account?_fork_right, h.noteAfter_eq 1⟩
  · -- A path is at one leaf only, so at any other leaf there is neither of the two.
    obtain ⟨a, ha, hnote⟩ := h.noted d hd q hq
    have hneLeft : q ≠ left := by
      rintro rfl
      exact h.links.linked.bookmark_ne hd hleft hnone hq
    have hneRight : q ≠ right := by
      rintro rfl
      have hpath := h.links.linked.bookmark_eq h.links.shows.nodup hc hright
      exact hkey (h.links.linked.distinct d hd c hc q hq hpath)
    exact ⟨a, (account?_fork_of_ne hneLeft hneRight).trans ha, hnote⟩

/-- A fork is recorded under the id of its leaf, and its paths go on at leaves with the next two ids. -/
lemma Keeps.attach (h : g.Keeps x t s) (hc : c ∈ s.leaves) {left right : PathRef}
    (hright : x.pool.leafOf? right = some c.key) (hleft : x.pool.isAlive left = true)
    (hnone : x.pool.leafOf? left = none) (reason : BranchReason)
    (hsmall : (x.step hash storage .none (.attach c.key left right reason)).2.slots ≤ UInt32.size) :
    g.Enters x (.attach c.key left right reason) (x.record? (.attach c.key left right reason)) ∧
      ∃ u s', (g.fork left right).Keeps (x.step hash storage .none (.attach c.key left right reason)).2
        u s' := by
  obtain ⟨_, hstep, _⟩ := Session.step_onTree hash storage .none h.links.tree_eq
    (.attach c.key left right reason)
  have hslots := hsmall
  rw [Session.slots_eq hstep] at hslots
  obtain ⟨_, _, u, heq, hattached⟩ := h.links.shows.attach hc hright left reason hslots
  obtain ⟨l, r, v, _, hlinks⟩ := h.links.attach hc hright hleft hnone reason hsmall
  have hv := h.links.eq_onTree hlinks
  rw [Session.Call.onTree, heq] at hv
  subst hv
  constructor
  · have hpath := h.links.linked.bookmark_eq h.links.shows.nodup hc hright
    obtain ⟨a, haccount, hnote⟩ := h.noted c hc right hpath
    have hnoteL : t.noteAfter 0 = some (Account.fresh (2 * (g.forks + 1))).note := h.noteAfter_eq 0
    have hnoteR : t.noteAfter 1 = some (Account.fresh (2 * (g.forks + 1) + 1)).note := h.noteAfter_eq 1
    refine ⟨a, (h.links.pathAt?_eq hc).trans hpath, haccount, ?_⟩
    rw [h.record?_eq, h.links.shows.record?_attach hc hright left reason hslots, hnote, hnoteL, hnoteR]
    rfl
  · refine ⟨_, _, hlinks, hattached.recorded_eq.trans h.recorded, ?_,
      h.noted_growAt hc hright hleft hnone reason _ l r⟩
    rw [hattached.nextId_eq, if_pos h.recorded, h.nextId_eq, fork, Nat.mul_add 2 (g.forks + 1) 1,
      UInt64.ofNat_add]
    rfl

/-- The end of a path is recorded with what is known of its leaf, and of the path if it is kept. -/
lemma Keeps.remove (h : g.Keeps x t s) (hc : c ∈ s.leaves) (hash : Digest.Hash) (storage : Storage σ) :
    g.Enters x (.remove c.key) (x.record? (.remove c.key)) ∧
      ∃ u s', g.Keeps (x.step hash storage .none (.remove c.key)).2 u s' := by
  obtain ⟨path, hpath⟩ := Option.isSome_iff_exists.1 (h.links.shows.bookmarked.of_mem_leaves hc)
  obtain ⟨a, haccount, hnote⟩ := h.noted c hc path hpath
  obtain ⟨u, heq, _, hsettings⟩ := h.links.shows.remove hc hpath x.pool
  obtain ⟨v, _, _, hlinks⟩ := h.links.remove hc hpath hash storage
  have hv := h.links.eq_onTree hlinks
  rw [Session.Call.onTree, heq] at hv
  subst hv
  constructor
  · refine ⟨path, a, (h.links.pathAt?_eq hc).trans hpath, haccount, ?_⟩
    rw [h.record?_eq, h.links.shows.record?_remove hc hpath x.pool, hnote, Pool.lineOf]
    cases x.pool.get? path <;> rfl
  · refine ⟨_, _, h.of_settings rfl hlinks hsettings fun d hd q hq => ?_⟩
    rw [leaves_removed, List.mem_filter] at hd
    exact h.noted d hd.1 q hq

/-- The leaves after an end was announced at one of them. -/
lemma Keeps.noted_editAt (h : g.Keeps x t s) (key : NodeKey) (kind : TerminationKind) :
    ∀ d ∈ (s.editAt key (·.withKind kind)).leaves, ∀ q, d.bookmark = some q →
      ∃ a, (((x.pathAt? key).map (g.setKind · kind)).getD g).account? q = some a ∧
        d.note = some a.note := by
  intro d hd q hq
  rw [editAt, leaves_map, List.mem_map] at hd
  obtain ⟨c, hc, rfl⟩ := hd
  by_cases hkey : c.key = key
  · rw [if_pos hkey] at hq ⊢
    have hbookmark : c.bookmark = some q := hq
    obtain ⟨a, ha, hnote⟩ := h.noted c hc q hbookmark
    rw [← hkey, h.links.pathAt?_eq hc, hbookmark, Option.map_some, Option.getD_some, account?_setKind_self,
      ha, Cell.withKind, hnote]
    exact ⟨{ a with kind }, rfl, rfl⟩
  · rw [if_neg hkey] at hq ⊢
    obtain ⟨a, ha, hnote⟩ := h.noted c hc q hq
    refine ⟨a, ?_, hnote⟩
    cases hat : x.pathAt? key with
    | none => exact ha
    | some path =>
      have hne : q ≠ path := by
        rintro rfl
        obtain ⟨e, he, hekey, hebookmark⟩ := h.links.exists_leaf_of_pathAt? hat
        exact hkey ((h.links.linked.distinct c hc e he q hq hebookmark).trans hekey)
      exact (account?_setKind_of_ne hne).trans ha

/-- An end that is announced is noted at the leaf that the path is at. -/
lemma Keeps.setKind (h : g.Keeps x t s) (path : PathState) (kind : TerminationKind) (hash : Digest.Hash)
    (storage : Storage σ) :
    ∃ u s', (g.take x (.setKind path kind)).Keeps (x.step hash storage .none (.setKind path kind)).2
      u s' := by
  have hlinks : (x.step hash storage .none (.setKind path kind)).2.Links _ _ := h.links.setKind path kind
  obtain ⟨_, hsettings⟩ := h.links.shows.setKind path kind
  refine ⟨_, _, h.of_settings (forks_take_setKind g x path kind) hlinks hsettings ?_⟩
  rw [take]
  cases path.node with
  | none => exact h.noted
  | some key => exact h.noted_editAt key kind

/-- A call that succeeds makes the record that the register calls for, which then still says what is noted
at the leaves. -/
theorem Keeps.step (h : g.Keeps x t s) {call : Session.Call} (hcall : call.Admits x)
    (hok : (x.step hash storage .none call).1 = .ok ())
    (hsmall : (x.step hash storage .none call).2.slots ≤ UInt32.size) :
    g.Enters x call (x.record? call) ∧
      ∃ u s', (g.take x call).Keeps (x.step hash storage .none call).2 u s' := by
  obtain ⟨hresult, _⟩ := Session.step_onTree hash storage .none h.links.tree_eq call
  cases hrefused : call.refusal? t x.pool with
  | some fault =>
    rw [hok, Tree.onTree_refused hrefused] at hresult
    cases hresult
  | none =>
    cases call with
    | attach key left right reason =>
      obtain ⟨n, live, hleaf, hright⟩ := Tree.attachRefusal?_eq_none hrefused
      obtain ⟨c, hc, rfl⟩ := h.links.shows.exists_leaf live hleaf
      exact h.attach hc hright hcall.1 hcall.2 reason hsmall
    | remove key =>
      obtain ⟨n, live, hleaf⟩ := Tree.removeRefusal?_eq_none hrefused
      obtain ⟨c, hc, rfl⟩ := h.links.shows.exists_leaf live hleaf
      exact h.remove hc hash storage
    | setKind path kind => exact ⟨h.record?_eq _, h.setKind path kind hash storage⟩
    | engine pool => exact ⟨h.record?_eq _, t, s, h.of_settings rfl (h.links.engine hcall) rfl h.noted⟩
    | claimMask =>
      have hlinks : (x.step hash storage .none .claimMask).2.Links t.claimMask.2 s :=
        (h.links.of_onTree .claimMask rfl (h.links.shows.congr rfl rfl rfl) h.links.linked).2.2
      exact ⟨h.record?_eq _, _, s, hlinks, h.recorded, h.nextId_eq, h.noted⟩
    | commit =>
      exact ⟨h.record?_eq _, t, s, h.of_settings rfl
        (h.links.of_onTree .commit rfl h.links.shows h.links.linked).2.2 rfl h.noted⟩
    | dump exporter =>
      exact ⟨h.record?_eq _, t, s, h.of_settings rfl
        (h.links.of_onTree (.dump exporter) rfl h.links.shows h.links.linked).2.2 rfl h.noted⟩

end Call

/-! ### Any run of calls -/

section Run

variable {g : Register} {x : Session σ} {t : Tree} {s : Shape Cell} {hash : Digest.Hash}
  {storage : Storage σ}

/-- After any calls the register says what is noted at the leaves, and each of them made the record that
was called for. -/
theorem Keeps.after (h : g.Keeps x t s) (calls : List Session.Call) (hcalls : x.Admits hash storage calls)
    (hok : x.Succeeds hash storage calls) (hsmall : (x.after hash storage calls).slots ≤ UInt32.size) :
    (∃ u s', (g.after hash storage x calls).Keeps (x.after hash storage calls) u s') ∧
      (∀ before call rest, calls = before ++ call :: rest →
        (g.after hash storage x before).Enters (x.after hash storage before) call
          ((x.after hash storage before).record? call)) ∧
      g.ids ++ (x.records hash storage calls).flatMap Replay.introduced =
        (g.after hash storage x calls).ids := by
  induction calls generalizing g x t s with
  | nil => exact ⟨⟨t, s, h⟩, fun before call rest heq => by simp at heq, List.append_nil _⟩
  | cons call calls ih =>
    obtain ⟨hcall, hrest⟩ := hcalls
    obtain ⟨hfirst, hothers⟩ := hok
    obtain ⟨_, htree, _⟩ := Session.step_onTree hash storage .none h.links.tree_eq call
    obtain ⟨henters, u, s', hkeeps⟩ := h.step hcall hfirst
      (Nat.le_trans (Session.slots_le_after hash storage htree calls) hsmall)
    obtain ⟨hlast, hall, hids⟩ := ih hkeeps hrest hothers hsmall
    refine ⟨hlast, fun before call' rest heq => ?_, ?_⟩
    · cases before with
      | nil =>
        cases heq
        exact henters
      | cons _ before =>
        rw [List.cons_append, List.cons.injEq] at heq
        obtain ⟨rfl, heq⟩ := heq
        exact hall before call' rest heq
    · rw [Session.records, List.flatMap_append, ← List.append_assoc, henters.ids_eq]
      exact hids

lemma nodup_ids (h : 2 * g.forks + 1 < UInt64.size) : g.ids.Nodup := by
  refine List.Nodup.map_on (fun i hi j hj heq => ?_) List.nodup_range
  rw [List.mem_range] at hi hj
  have hval := congrArg (fun id : NodeId => id.val.toNat) heq
  have hi' : i + 1 < UInt64.size := by omega
  have hj' : j + 1 < UInt64.size := by omega
  simp only [NodeId.numbered, UInt64.toNat_ofNat', Nat.mod_eq_of_lt hi', Nat.mod_eq_of_lt hj'] at hval
  omega

end Run

end Register

namespace Session

variable {σ : Type}

/-- At the start the register knows of the path at the root. -/
lemma exists_keeps_create (hash : Digest.Hash) (storage : Storage σ) {config : Config}
    (hpersist : config.persist = true) (inMemory : Bool) (run : RunId) {path : PathRef} {pool : Pool}
    (hpath : pool.isAlive path = true) (hothers : ∀ r, r ≠ path → pool.leafOf? r = none) (s : σ) :
    ∃ t cells,
      (Register.start path).Keeps (create hash storage config inMemory run path pool s) t cells := by
  have hkept : config.persist = true ∨ inMemory = true := .inl hpersist
  obtain ⟨t, key, note, hlinks, _⟩ := exists_links_create hash storage config hkept run hpath hothers s
  obtain ⟨htree, _⟩ := create_start hash storage config hkept run path pool s
  rw [hpersist] at htree
  have ht : t = (Tree.start path config.compress true pool).1 :=
    Option.some.inj (hlinks.tree_eq.symm.trans htree)
  have hnote : note = some (Account.fresh 1).note := by
    obtain ⟨_, htarget, _⟩ := hlinks.shows.reads.node_inv
    have hread := hlinks.shows.reads.noteOf?_eq (c := ⟨key, 0, some path, note⟩) List.mem_cons_self
    rw [ht] at htarget hread
    cases htarget
    exact hread.symm
  refine ⟨t, _, hlinks, ?_, ?_, fun c hc r hr => ?_⟩
  · rw [ht]
    rfl
  · rw [ht]
    rfl
  · rw [leaves_leaf, List.mem_singleton] at hc
    subst hc
    cases hr
    exact ⟨.fresh 1, Register.account?_start _, hnote⟩

/-- As long as the ids suffice, no two nodes have the same one. -/
lemma key_eq_of_note (hash : Digest.Hash) (storage : Storage σ) {x : Session σ} {path : PathRef}
    {compress : Bool} {pool : Pool} (htree : x.tracker.tree? = some (Tree.start path compress true pool).1)
    (calls : List Call) (hsmall : (x.after hash storage calls).slots ≤ UInt32.size)
    (hroom : 1 + ((x.records hash storage calls).flatMap Replay.introduced).length < UInt64.size) {t : Tree}
    (ht : (x.after hash storage calls).tracker.tree? = some t) {key key' : NodeKey}
    (hlive : (t.node? key).isSome = true) (hlive' : (t.node? key').isSome = true)
    (hid : (Recorded.noteOf? t key).map Note.id = (Recorded.noteOf? t key').map Note.id) : key = key' := by
  -- The notes of inner nodes are in no register, but all notes are of nodes that the records rebuild.
  obtain ⟨_, _, whole₀, _, hmirrors, hsize⟩ := mirrors_start path compress pool
  have hidsFit : whole₀.size + ((x.records hash storage calls).flatMap Replay.introduced).length <
      UInt64.size := by
    omega
  obtain ⟨u, _, _, _, hu, _, hlast⟩ := rebuilds_after htree hmirrors calls hsmall hidsFit
  rw [ht] at hu
  cases hu
  exact hlast.key_eq_of_noteOf? hlive hlive' hid

/-- Of whatever calls succeed in a session that records, forks and ends are recorded and nothing else is.
The nodes are numbered from one on in the order in which they come up, and a record names its node by the
number, and by what the engine said of the node and of the path there, as far as that is kept. The bounds
are the number of slot numbers and of node ids. -/
theorem emitted_after (hash : Digest.Hash) (storage : Storage σ) {config : Config}
    (hpersist : config.persist = true) (inMemory : Bool) (run : RunId) {path : PathRef} {pool : Pool}
    (hpath : pool.isAlive path = true) (hothers : ∀ r, r ≠ path → pool.leafOf? r = none) (s : σ)
    (calls : List Call) :
    let x := create hash storage config inMemory run path pool s
    let y := x.after hash storage calls
    let g := (Register.start path).after hash storage x
    x.Admits hash storage calls → x.Succeeds hash storage calls → y.slots ≤ UInt32.size →
      (y.writer?, y.storage) = logAfter hash storage (opened storage config run s).1
        (opened storage config run s).2 (x.logged hash storage calls) ∧
      (x.logged hash storage calls).flatMap Log.Writer.Op.records =
        .root (.numbered 1) :: x.records hash storage calls ∧
      (∀ before call rest, calls = before ++ call :: rest →
        (g before).Enters (x.after hash storage before) call
          ((x.after hash storage before).record? call)) ∧
      .numbered 1 :: (x.records hash storage calls).flatMap Replay.introduced = (g calls).ids ∧
      ∃ t, y.tracker.tree? = some t ∧
        (∀ key n r, t.node? key = some n → n.bookmark = some r →
          ∃ a, (g calls).account? r = some a ∧ n.note = some a.note) ∧
        (2 * (g calls).forks + 1 < UInt64.size → (g calls).ids.Nodup ∧
          ∀ key key', (t.node? key).isSome = true → (t.node? key').isSome = true →
            (Recorded.noteOf? t key).map Note.id = (Recorded.noteOf? t key').map Note.id →
              key = key') := by
  intro x y g hcalls hok hsmall
  obtain ⟨t₀, cells₀, hstart⟩ := exists_keeps_create hash storage hpersist inMemory run hpath hothers s
  obtain ⟨⟨t, cells, hkeeps⟩, henters, hids⟩ := hstart.after calls hcalls hok hsmall
  have hkept : config.persist = true ∨ inMemory = true := .inl hpersist
  obtain ⟨htree, _⟩ := create_start hash storage config hkept run path pool s
  rw [hpersist] at htree
  have hemitted : x.emitted hash storage calls = .root (.numbered 1) :: x.records hash storage calls := by
    rw [emitted, htree, Option.bind_some, rootRecord?_start]
    rfl
  refine ⟨logAfter_logged hash storage hpersist inMemory run path pool s calls,
    (records_logged x calls).trans hemitted, henters, hids, t, hkeeps.links.tree_eq,
    fun key n r live hr => ?_, fun hroom => ⟨Register.nodup_ids hroom, fun key key' hlive hlive' hid => ?_⟩⟩
  · obtain ⟨c, hc, _, hbookmark, hnote⟩ := hkeeps.links.exists_leaf_of_bookmark live hr
    rw [← hnote]
    exact hkeeps.noted c hc r hbookmark
  · have hcount : 1 + ((x.records hash storage calls).flatMap Replay.introduced).length =
        2 * (g calls).forks + 1 := by
      have hlength := congrArg List.length hids
      simp only [Register.ids, List.length_append, List.length_map, List.length_range] at hlength
      exact hlength
    rw [← hcount] at hroom
    exact key_eq_of_note hash storage htree calls hsmall hroom hkeeps.links.tree_eq hlive hlive' hid

/-- Two forks, an end that is announced, and the end of a path that the engine let go. -/
theorem emitted_after_drop :
    let hash : Digest.Hash := fun _ => ⟨List.replicate 32 0, rfl⟩
    let config := { Config.default with compress := true, persist := true }
    let pool : Pool := ⟨#[some (.fresh ⟨7⟩), some (.fresh ⟨8⟩), some (.fresh ⟨9⟩)]⟩
    let x := create hash Storage.memory config false default ⟨0⟩ pool .empty
    let moved := x.pool.modify ⟨0⟩ fun p =>
      { PathState.fresh ⟨7⟩ with prevLine := some 42, node := p.node }
    let before : List Call := [.engine moved, .attach ⟨0, 0⟩ ⟨1⟩ ⟨0⟩ .conditional,
      .attach ⟨2, 0⟩ ⟨2⟩ ⟨0⟩ .switch, .setKind { PathState.fresh ⟨8⟩ with node := some ⟨1, 0⟩ } .exit]
    let kept := (x.after hash Storage.memory before).pool.drop ⟨2⟩
    let calls := before ++ [.engine kept, .remove ⟨3, 0⟩, .remove ⟨1, 0⟩]
    pool.isAlive ⟨0⟩ = true ∧ (∀ r, r ≠ ⟨0⟩ → pool.leafOf? r = none) ∧
      x.Admits hash Storage.memory calls ∧ x.Succeeds hash Storage.memory calls ∧
      (x.after hash Storage.memory calls).slots ≤ UInt32.size ∧
      (x.logged hash Storage.memory calls).flatMap Log.Writer.Op.records =
        [.root ⟨1⟩, .branch ⟨1⟩ ⟨2⟩ ⟨3⟩ 42 .conditional, .branch ⟨3⟩ ⟨4⟩ ⟨5⟩ 42 .switch,
          .terminate ⟨4⟩ none 0 .running, .terminate ⟨2⟩ (some ⟨8⟩) 0 .exit] := by
  intro hash config pool x moved before kept calls
  have hothers : ∀ r, r ≠ ⟨0⟩ → pool.leafOf? r = none := fun r _ =>
    Pool.leafOf?_of_all (by decide) r
  have hbefore : x.Admits hash Storage.memory before :=
    ⟨Pool.evolves_modify x.pool ⟨0⟩ { PathState.fresh ⟨7⟩ with prevLine := some 42 },
      ⟨by decide +kernel, by decide +kernel⟩, ⟨by decide +kernel, by decide +kernel⟩, trivial, trivial⟩
  have hcalls : x.Admits hash Storage.memory calls :=
    admits_append.2 ⟨hbefore, Pool.evolves_drop _ _, trivial, trivial, trivial⟩
  have hok : x.Succeeds hash Storage.memory calls := by decide +kernel
  have hsmall : (x.after hash Storage.memory calls).slots ≤ UInt32.size := by decide +kernel
  have hrecords : x.records hash Storage.memory calls = [.branch ⟨1⟩ ⟨2⟩ ⟨3⟩ 42 .conditional,
      .branch ⟨3⟩ ⟨4⟩ ⟨5⟩ 42 .switch, .terminate ⟨4⟩ none 0 .running,
      .terminate ⟨2⟩ (some ⟨8⟩) 0 .exit] := by
    decide +kernel
  have hpersist : config.persist = true := rfl
  obtain ⟨_, hlogged, _⟩ := emitted_after hash Storage.memory hpersist false default rfl hothers
    .empty calls hcalls hok hsmall
  refine ⟨rfl, hothers, hcalls, hok, hsmall, ?_⟩
  rw [hlogged, hrecords]
  rfl

end Session

end ForkTree
