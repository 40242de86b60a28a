import ForkTree.Proofs.ArenaRequests
import ForkTree.Proofs.LiveWalks
import Mathlib.Data.Set.Card

/-!
What the check of a tree is worth, whatever its nodes and edges are. A way leads down from the root, from
side to side (`Tree.keyAt?`), and the check goes down all ways. A way comes upon no node twice unless a
parent link is stale on it (`Chain.nodup`). So the walk never comes to its bound (`visits_root`), and the
rounds of the check end with what it finds (`Visits.endsIn`). If no way leads to a defect, the visits are the
ways (`Visits.exists_tour`), and their number is held against that of the live nodes. As long as no node has
one child on both sides, ways to one node are the same (`eq_of_keyAt?_eq`), so where the numbers agree the
tree is sound (`isSound_of_length_ways`). A child on both sides is visited twice, and takes the place of a
node that is not reached (`twins_hide_orphan`). The main result is `check_counts_ways`.
-/

namespace ForkTree

namespace Arena

variable {α : Type} {a : Arena α} {keys : List NodeKey}

/-- A slot has one live key at most. -/
lemma eq_of_slot_eq {key other : NodeKey} (hkey : (a.get? key).isSome) (hother : (a.get? other).isSome)
    (hslot : key.slot = other.slot) : key = other := by
  obtain ⟨v, hv⟩ := Option.isSome_iff_exists.1 hkey
  obtain ⟨w, hw⟩ := Option.isSome_iff_exists.1 hother
  rw [get?_eq_some_iff] at hv hw
  rw [hslot, hw] at hv
  obtain ⟨slot, generation⟩ := key
  obtain ⟨slot', generation'⟩ := other
  cases hslot
  cases hv
  rfl

lemma full_eq_countP (a : Arena α) :
    a.full = a.slots.toList.zipIdx.countP fun p => p.1.value.isSome := by
  have hslots := List.countP_map (p := fun s : Slot α => s.value.isSome) (f := Prod.fst)
    (l := a.slots.toList.zipIdx)
  rw [List.zipIdx_map_fst, Array.countP_toList] at hslots
  exact hslots

lemma length_le_full (hnodup : keys.Nodup) (hlive : ∀ key ∈ keys, (a.get? key).isSome) :
    keys.length ≤ a.full := by
  obtain ⟨places, hplaces⟩ : ∃ places, places =
      (a.slots.toList.zipIdx.filter fun p => p.1.value.isSome).map Prod.snd := ⟨_, rfl⟩
  have hlength : places.length = a.full := by
    rw [hplaces, List.length_map, ← List.countP_eq_length_filter, full_eq_countP]
  have hnumbers : (keys.map fun key => key.slot.toNat).Nodup := by
    refine hnodup.map_on fun key hkey other hother heq => ?_
    exact eq_of_slot_eq (hlive key hkey) (hlive other hother) (UInt32.toNat_inj.1 heq)
  have hsub : keys.map (fun key => key.slot.toNat) ⊆ places := by
    intro i hi
    obtain ⟨key, hkey, rfl⟩ := List.mem_map.1 hi
    obtain ⟨v, hv⟩ := Option.isSome_iff_exists.1 (hlive key hkey)
    rw [get?_eq_some_iff] at hv
    rw [hplaces, List.mem_map]
    refine ⟨(⟨key.generation, some v⟩, key.slot.toNat), List.mem_filter.2 ⟨?_, rfl⟩, rfl⟩
    rwa [List.mk_mem_zipIdx_iff_getElem?, Array.getElem?_toList]
  have hle := (List.subperm_of_subset hnumbers hsub).length_le
  rwa [List.length_map, hlength] at hle

lemma full_le_length (hsmall : a.slots.size ≤ UInt32.size)
    (hall : ∀ key, (a.get? key).isSome → key ∈ keys) : a.full ≤ keys.length := by
  have hlength : a.entries.length = a.full := by
    rw [entries, List.length_filterMap_eq_countP, full_eq_countP]
    simp only [Option.isSome_map]
  have hnodup : (a.entries.map Prod.fst).Nodup := by
    refine List.pairwise_map.2 ((entries_sorted hsmall).imp fun h heq => ?_)
    rw [heq] at h
    exact UInt32.lt_irrefl _ h
  have hsub : a.entries.map Prod.fst ⊆ keys := by
    intro key hkey
    obtain ⟨⟨key, v⟩, hmem, rfl⟩ := List.mem_map.1 hkey
    exact hall key (by rw [(mem_entries hsmall).1 hmem]; rfl)
  have hle := (List.subperm_of_subset hnodup hsub).length_le
  rwa [List.length_map, hlength] at hle

end Arena

/-- The visit that an edge out of `parent` calls for. -/
def Edge.pending (e : Edge) (parent : Option NodeKey) : List (NodeKey × Option NodeKey) :=
  e.target.toList.map fun key => (key, parent)

lemma Side.suffix_iff (above path : List Side) :
    above <:+ path ↔ path = above ∨ .right :: above <:+ path ∨ .left :: above <:+ path := by
  constructor
  · rintro ⟨below, rfl⟩
    rcases List.eq_nil_or_concat below with rfl | ⟨below, side, rfl⟩
    · exact .inl rfl
    · cases side with
      | right => exact .inr (.inl ⟨below, by simp⟩)
      | left => exact .inr (.inr ⟨below, by simp⟩)
  · rintro (rfl | h | h)
    · exact List.suffix_refl _
    · exact (List.suffix_cons _ _).trans h
    · exact (List.suffix_cons _ _).trans h

namespace Tree

/-- The key that the sides lead to from the root. The lowest side comes first. -/
def keyAt? (t : Tree) : List Side → Option NodeKey
  | [] => t.root.target
  | side :: above => ((t.keyAt? above).bind t.node?).bind fun n => (n.edgeAt side).target

/-- The key one step above. -/
def keyAbove? (t : Tree) : List Side → Option NodeKey
  | [] => none
  | _ :: above => t.keyAt? above

/-- A node that is reached has one child on both sides. -/
def HasTwins (t : Tree) : Prop :=
  ∃ above key, t.keyAt? (.left :: above) = some key ∧ t.keyAt? (.right :: above) = some key

/-- What the check is to vouch for. -/
structure IsSound (t : Tree) : Prop where
  live : ∀ path key, t.keyAt? path = some key → (t.node? key).isSome
  reached : ∀ key n, t.node? key = some n → ∃! path, t.keyAt? path = some key
  linked : ∀ path key n, t.keyAt? path = some key → t.node? key = some n → n.parent = t.keyAbove? path
  bookmarked : ∀ key n, t.node? key = some n → n.bookmark.isSome = n.isLeaf
  full : t.compress = true → ∀ key n, t.node? key = some n → n.hasSingleChild = false

/-- The way leads nowhere, or to a live node on which the links agree, with a bookmark at exactly a leaf. -/
def IsFlawless (t : Tree) (path : List Side) : Prop :=
  ∀ key, t.keyAt? path = some key →
    ∃ n, t.node? key = some n ∧ n.parent = t.keyAbove? path ∧ n.bookmark.isSome = n.isLeaf ∧
      (t.compress = true → n.hasSingleChild = false)

/-- From entries that are still to be visited, the next one first, and a number of visits so far, the check
finds a defect, or the number of all visits. The children of a node are visited in its place, right before
left. -/
inductive EndsIn (t : Tree) :
    List (NodeKey × Option NodeKey) → (visits : Nat) → Except Defect Nat → Prop where
  | done {visits : Nat} : EndsIn t [] visits (.ok visits)
  | dead {key : NodeKey} {parent : Option NodeKey} {rest : List (NodeKey × Option NodeKey)} {visits : Nat}
      (dead : t.node? key = none) : EndsIn t ((key, parent) :: rest) visits (.error (.danglingEdge key))
  | defect {key : NodeKey} {parent : Option NodeKey} {rest : List (NodeKey × Option NodeKey)}
      {visits : Nat} {n : Node} {d : Defect} (live : t.node? key = some n)
      (hdefect : t.defectAt? key parent n = some d) : EndsIn t ((key, parent) :: rest) visits (.error d)
  | next {key : NodeKey} {parent : Option NodeKey} {rest : List (NodeKey × Option NodeKey)} {visits : Nat}
      {n : Node} {found : Except Defect Nat} (live : t.node? key = some n)
      (hnone : t.defectAt? key parent n = none)
      (hrest :
        EndsIn t (n.right.pending (some key) ++ (n.left.pending (some key) ++ rest)) (visits + 1) found) :
      EndsIn t ((key, parent) :: rest) visits found

lemma EndsIn.unique {t : Tree} {entries : List (NodeKey × Option NodeKey)} {visits : Nat}
    {found other : Except Defect Nat} (h : t.EndsIn entries visits found)
    (h' : t.EndsIn entries visits other) : other = found := by
  induction h with
  | done => cases h'; rfl
  | dead dead =>
    cases h' with
    | dead => rfl
    | defect live | next live => rw [dead] at live; cases live
  | defect live hdefect =>
    cases h' with
    | dead dead => rw [live] at dead; cases dead
    | defect live' hdefect' =>
      rw [live] at live'
      cases live'
      rw [hdefect] at hdefect'
      cases hdefect'
      rfl
    | next live' hnone =>
      rw [live] at live'
      cases live'
      rw [hdefect] at hnone
      cases hnone
  | next live hnone hrest ih =>
    cases h' with
    | dead dead => rw [live] at dead; cases dead
    | defect live' hdefect =>
      rw [live] at live'
      cases live'
      rw [hnone] at hdefect
      cases hdefect
    | next live' _ hrest' =>
      rw [live] at live'
      cases live'
      exact ih hrest'

section Visits

variable {t : Tree} {parent : Option NodeKey} {e : Edge}

/-- Live nodes that lead up by their parent links, to one without a parent. -/
inductive Chain (t : Tree) : List NodeKey → Prop where
  | nil : Chain t []
  | cons {key : NodeKey} {n : Node} {keys : List NodeKey} (live : t.node? key = some n)
      (linked : n.parent = keys.head?) (above : Chain t keys) : Chain t (key :: keys)

lemma Chain.isSome_node? {keys : List NodeKey} (h : t.Chain keys) :
    ∀ key ∈ keys, (t.node? key).isSome := by
  induction h with
  | nil =>
    intro key hkey
    cases hkey
  | cons live linked above ih =>
    rintro key (_ | ⟨_, hkey⟩)
    · rw [live]
      rfl
    · exact ih key hkey

lemma Chain.of_append {front keys : List NodeKey} (h : t.Chain (front ++ keys)) : t.Chain keys := by
  induction front with
  | nil => exact h
  | cons key front ih =>
    cases h with
    | cons live linked above => exact ih above

lemma Chain.unique {key : NodeKey} {keys others : List NodeKey} (h : t.Chain (key :: keys))
    (h' : t.Chain (key :: others)) : keys = others := by
  induction keys generalizing key others with
  | nil =>
    cases h with
    | cons live linked =>
      cases h' with
      | cons live' linked' =>
        rw [live] at live'
        cases live'
        rw [linked] at linked'
        exact (List.head?_eq_none_iff.1 linked'.symm).symm
  | cons parent keys ih =>
    cases h with
    | cons live linked above =>
      cases h' with
      | cons live' linked' above' =>
        rw [live] at live'
        cases live'
        rw [linked] at linked'
        obtain ⟨rest, rfl⟩ := List.head?_eq_some_iff.1 linked'.symm
        rw [ih above above']

lemma Chain.nodup {keys : List NodeKey} (h : t.Chain keys) : keys.Nodup := by
  induction h with
  | nil => exact .nil
  | @cons key n keys live linked above ih =>
    refine List.nodup_cons.2 ⟨fun hmem => ?_, ih⟩
    obtain ⟨front, back, rfl⟩ := List.append_of_mem hmem
    -- The key would have a chain and a part of it above it.
    have hback := above.of_append.unique (.cons live linked above)
    have hlength := congrArg List.length hback
    rw [List.length_append, List.length_cons] at hlength
    omega

lemma Chain.length_le (hsize : t.nodes.size = t.nodes.full) {keys : List NodeKey} (h : t.Chain keys) :
    keys.length ≤ t.size := by
  rw [size, hsize]
  exact Arena.length_le_full h.nodup h.isSome_node?

/-- What the visits behind an edge out of `parent` come to without a bound: a defect, or their number. -/
inductive Visits (t : Tree) : (parent : Option NodeKey) → Edge → Except Defect Nat → Prop where
  | nowhere {parent : Option NodeKey} {e : Edge} (null : e.target = none) : Visits t parent e (.ok 0)
  | dead {parent : Option NodeKey} {e : Edge} {key : NodeKey} (target : e.target = some key)
      (dead : t.node? key = none) : Visits t parent e (.error (.danglingEdge key))
  | defect {parent : Option NodeKey} {e : Edge} {key : NodeKey} {n : Node} {d : Defect}
      (target : e.target = some key) (live : t.node? key = some n)
      (hdefect : t.defectAt? key parent n = some d) : Visits t parent e (.error d)
  | right {parent : Option NodeKey} {e : Edge} {key : NodeKey} {n : Node} {d : Defect}
      (target : e.target = some key) (live : t.node? key = some n)
      (hnone : t.defectAt? key parent n = none) (hright : Visits t (some key) n.right (.error d)) :
      Visits t parent e (.error d)
  | left {parent : Option NodeKey} {e : Edge} {key : NodeKey} {n : Node} {right : Nat} {d : Defect}
      (target : e.target = some key) (live : t.node? key = some n)
      (hnone : t.defectAt? key parent n = none) (hright : Visits t (some key) n.right (.ok right))
      (hleft : Visits t (some key) n.left (.error d)) : Visits t parent e (.error d)
  | node {parent : Option NodeKey} {e : Edge} {key : NodeKey} {n : Node} {right left : Nat}
      (target : e.target = some key) (live : t.node? key = some n)
      (hnone : t.defectAt? key parent n = none) (hright : Visits t (some key) n.right (.ok right))
      (hleft : Visits t (some key) n.left (.ok left)) : Visits t parent e (.ok (1 + right + left))

/-- A walk below a chain has as many steps to go as there are nodes that are not on it. -/
lemma visits_visitEdge (hsize : t.nodes.size = t.nodes.full) {fuel : Nat} {keys : List NodeKey}
    (hchain : t.Chain keys) (hfuel : t.size < fuel + keys.length) :
    t.Visits keys.head? e (t.visitEdge fuel keys.head? e) := by
  induction fuel generalizing keys e with
  | zero =>
    have := hchain.length_le hsize
    omega
  | succ fuel ih =>
    cases target : e.target with
    | none =>
      rw [visitEdge_null target]
      exact .nowhere target
    | some key =>
      cases live : t.node? key with
      | none =>
        rw [visitEdge_dead target live]
        exact .dead target live
      | some n =>
        cases hdefect : t.defectAt? key keys.head? n with
        | some d =>
          rw [visitEdge_defect target live hdefect]
          exact .defect target live hdefect
        | none =>
          have hchain' : t.Chain (key :: keys) := .cons live (defectAt?_eq_none_iff.1 hdefect).1 hchain
          have hfuel' : t.size < fuel + (key :: keys).length := by
            rw [List.length_cons]
            omega
          have hright := ih (e := n.right) hchain' hfuel'
          have hleft := ih (e := n.left) hchain' hfuel'
          rw [List.head?_cons] at hright hleft
          rw [visitEdge_node target live hdefect]
          cases hr : t.visitEdge fuel (some key) n.right with
          | error d =>
            rw [hr] at hright
            exact .right target live hdefect hright
          | ok right =>
            rw [hr] at hright
            cases hl : t.visitEdge fuel (some key) n.left with
            | error d =>
              rw [hl] at hleft
              exact .left target live hdefect hright hleft
            | ok left =>
              rw [hl] at hleft
              exact .node target live hdefect hright hleft

lemma visits_root (hsize : t.nodes.size = t.nodes.full) :
    t.Visits none t.root (t.visitEdge (t.size + 1) none t.root) :=
  visits_visitEdge hsize .nil (Nat.lt_succ_self _)

lemma Visits.ne_unreachable {found : Except Defect Nat} (h : t.Visits parent e found) (count : Int) :
    found ≠ .error (.unreachable count) := by
  intro hfound
  induction h with
  | nowhere | dead | node => cases hfound
  | @defect parent _ key n d _ _ hdefect =>
    cases hfound
    unfold defectAt? at hdefect
    split_ifs at hdefect <;> cases hdefect
  | right _ _ _ _ ih => exact ih hfound
  | left _ _ _ _ _ _ ih => exact ih hfound

/-- The rounds of the check go on behind the visits, unless these come upon a defect. -/
lemma Visits.endsIn {found last : Except Defect Nat} (h : t.Visits parent e found)
    {rest : List (NodeKey × Option NodeKey)} {visits : Nat}
    (hok : ∀ k, found = .ok k → t.EndsIn rest (visits + k) last)
    (herror : ∀ d, found = .error d → last = .error d) : t.EndsIn (e.pending parent ++ rest) visits last := by
  induction h generalizing rest visits with
  | nowhere null =>
    rw [Edge.pending, null]
    exact hok 0 rfl
  | dead target dead =>
    rw [Edge.pending, target, herror _ rfl]
    exact .dead dead
  | defect target live hdefect =>
    rw [Edge.pending, target, herror _ rfl]
    exact .defect live hdefect
  | right target live hnone _ ih =>
    rw [Edge.pending, target]
    exact .next live hnone (ih (fun k hk => by cases hk) herror)
  | left target live hnone _ _ ihr ihl =>
    rw [Edge.pending, target]
    refine .next live hnone (ihr (fun k hk => ?_) fun d hd => by cases hd)
    cases hk
    exact ihl (fun k hk => by cases hk) herror
  | node target live hnone _ _ ihr ihl =>
    rw [Edge.pending, target]
    refine .next live hnone (ihr (fun right hr => ?_) fun d hd => by cases hd)
    cases hr
    refine ihl (fun left hl => ?_) fun d hd => by cases hd
    cases hl
    have hlast := hok _ rfl
    rwa [← Nat.add_assoc, ← Nat.add_assoc] at hlast

/-! ### Counting ways -/

lemma keyAt?_cons {above : List Side} {key : NodeKey} {n : Node} (hkey : t.keyAt? above = some key)
    (live : t.node? key = some n) (side : Side) :
    t.keyAt? (side :: above) = (n.edgeAt side).target := by
  rw [keyAt?, hkey, Option.bind_some, live, Option.bind_some]

/-- The ways from a place down, none of which leads to a defect. -/
structure Tour (t : Tree) (above : List Side) (ways : List (List Side)) : Prop where
  nodup : ways.Nodup
  mem_iff : ∀ path, path ∈ ways ↔ above <:+ path ∧ (t.keyAt? path).isSome
  flawless : ∀ path, above <:+ path → t.IsFlawless path

lemma keyAt?_eq_none_of_suffix {above path : List Side} (hnone : t.keyAt? above = none)
    (h : above <:+ path) : t.keyAt? path = none := by
  obtain ⟨below, rfl⟩ := h
  induction below with
  | nil => exact hnone
  | cons side below ih => rw [List.cons_append, keyAt?, ih, Option.bind_none, Option.bind_none]

lemma Tour.nowhere {above : List Side} (hnone : t.keyAt? above = none) : t.Tour above [] where
  nodup := .nil
  mem_iff path := by
    refine ⟨fun h => (List.not_mem_nil h).elim, ?_⟩
    rintro ⟨h, hsome⟩
    rw [keyAt?_eq_none_of_suffix hnone h] at hsome
    cases hsome
  flawless path h key hkey := by
    rw [keyAt?_eq_none_of_suffix hnone h] at hkey
    cases hkey

lemma Tour.node {above : List Side} {key : NodeKey} {n : Node} {right left : List (List Side)}
    (hkey : t.keyAt? above = some key) (live : t.node? key = some n)
    (hnone : t.defectAt? key (t.keyAbove? above) n = none) (hright : t.Tour (.right :: above) right)
    (hleft : t.Tour (.left :: above) left) : t.Tour above (above :: (right ++ left)) where
  nodup := by
    have hbelow : ∀ side, ¬ side :: above <:+ above := fun side h => by
      have := h.length_le
      rw [List.length_cons] at this
      omega
    refine List.nodup_cons.2 ⟨fun hmem => ?_, List.nodup_append.2 ⟨hright.nodup, hleft.nodup, ?_⟩⟩
    · rcases List.mem_append.1 hmem with hmem | hmem
      · exact hbelow _ ((hright.mem_iff _).1 hmem).1
      · exact hbelow _ ((hleft.mem_iff _).1 hmem).1
    · rintro path hr _ hl rfl
      have hsides := List.suffix_of_suffix_length_le ((hright.mem_iff _).1 hr).1
        ((hleft.mem_iff _).1 hl).1 (Nat.le_refl _)
      cases hsides.eq_of_length rfl
  mem_iff path := by
    rw [List.mem_cons, List.mem_append, hright.mem_iff, hleft.mem_iff, Side.suffix_iff above]
    constructor
    · rintro (rfl | ⟨h, hsome⟩ | ⟨h, hsome⟩)
      · exact ⟨.inl rfl, by rw [hkey]; rfl⟩
      · exact ⟨.inr (.inl h), hsome⟩
      · exact ⟨.inr (.inr h), hsome⟩
    · rintro ⟨h | h | h, hsome⟩
      · exact .inl h
      · exact .inr (.inl ⟨h, hsome⟩)
      · exact .inr (.inr ⟨h, hsome⟩)
  flawless path h := by
    rcases (Side.suffix_iff above path).1 h with rfl | h | h
    · intro key' hkey'
      rw [hkey] at hkey'
      cases hkey'
      exact ⟨n, live, defectAt?_eq_none_iff.1 hnone⟩
    · exact hright.flawless path h
    · exact hleft.flawless path h

/-- The number of visits that come upon no defect is that of the ways. -/
lemma Visits.exists_tour {found : Except Defect Nat} (h : t.Visits parent e found) (above : List Side)
    (target : t.keyAt? above = e.target) (habove : t.keyAbove? above = parent) {k : Nat}
    (hok : found = .ok k) : ∃ ways, t.Tour above ways ∧ ways.length = k := by
  induction h generalizing above k with
  | nowhere null =>
    cases hok
    exact ⟨[], .nowhere (target.trans null), rfl⟩
  | dead | defect | right | left => cases hok
  | node hkey live hnone _ _ ihr ihl =>
    cases hok
    rw [hkey] at target
    rw [← habove] at hnone
    obtain ⟨rights, htour, hr⟩ := ihr (.right :: above) (keyAt?_cons target live .right) target rfl
    obtain ⟨lefts, htour', hl⟩ := ihl (.left :: above) (keyAt?_cons target live .left) target rfl
    refine ⟨_, .node target live hnone htour htour', ?_⟩
    rw [List.length_cons, List.length_append, hr, hl]
    omega

/-- A defect that the visits come upon is on a way. -/
lemma Visits.exists_not_flawless {found : Except Defect Nat} (h : t.Visits parent e found)
    (above : List Side) (target : t.keyAt? above = e.target) (habove : t.keyAbove? above = parent)
    {d : Defect} (herror : found = .error d) : ∃ path, ¬ t.IsFlawless path := by
  induction h generalizing above with
  | nowhere | node => cases herror
  | dead hkey dead =>
    refine ⟨above, fun hflawless => ?_⟩
    obtain ⟨n, live, _⟩ := hflawless _ (target.trans hkey)
    rw [dead] at live
    cases live
  | defect hkey live hdefect =>
    refine ⟨above, fun hflawless => ?_⟩
    obtain ⟨n', live', hgood⟩ := hflawless _ (target.trans hkey)
    rw [live] at live'
    cases live'
    rw [habove, ← defectAt?_eq_none_iff, hdefect] at hgood
    cases hgood
  | right hkey live _ _ ih =>
    rw [hkey] at target
    exact ih (.right :: above) (keyAt?_cons target live .right) target herror
  | left hkey live _ _ _ _ ih =>
    rw [hkey] at target
    exact ih (.left :: above) (keyAt?_cons target live .left) target herror

lemma Tour.ncard_eq {ways : List (List Side)} (h : t.Tour [] ways) :
    {path | (t.keyAt? path).isSome}.ncard = ways.length := by
  have heq : {path | (t.keyAt? path).isSome} = ↑ways.toFinset := by
    ext path
    simp [h.mem_iff]
  rw [heq, Set.ncard_coe_finset, List.toFinset_card_of_nodup h.nodup]

section Flawless

variable (hflawless : ∀ path, t.IsFlawless path)

include hflawless

lemma node_of_flawless {path : List Side} {key : NodeKey} {n : Node} (hkey : t.keyAt? path = some key)
    (live : t.node? key = some n) : n.parent = t.keyAbove? path ∧ n.bookmark.isSome = n.isLeaf ∧
      (t.compress = true → n.hasSingleChild = false) := by
  obtain ⟨n', live', hgood⟩ := hflawless path key hkey
  rw [live] at live'
  cases live'
  exact hgood

lemma isSome_node?_of_reached {key : NodeKey} (h : ∃ path, t.keyAt? path = some key) :
    (t.node? key).isSome := by
  obtain ⟨path, hkey⟩ := h
  obtain ⟨n, live, _⟩ := hflawless path key hkey
  rw [live]
  rfl

/-- Ways to one node are one way, unless they part at a node with one child on both sides. -/
lemma eq_of_keyAt?_eq (hno : ¬ t.HasTwins) {path other : List Side} {key : NodeKey}
    (hpath : t.keyAt? path = some key) (hother : t.keyAt? other = some key) : path = other := by
  have hstep : ∀ {side above key}, t.keyAt? (side :: above) = some key → t.keyAt? above ≠ none := by
    intro side above key hkey hnone
    rw [keyAt?_eq_none_of_suffix hnone (List.suffix_cons _ _)] at hkey
    cases hkey
  induction path generalizing other key with
  | nil =>
    obtain ⟨n, live, _⟩ := hflawless _ _ hpath
    have hroot := (node_of_flawless hflawless hpath live).1
    cases other with
    | nil => rfl
    | cons side above =>
      exact absurd ((node_of_flawless hflawless hother live).1.symm.trans hroot) (hstep hother)
  | cons side above ih =>
    obtain ⟨n, live, _⟩ := hflawless _ _ hpath
    have hsame : t.keyAbove? (side :: above) = t.keyAbove? other :=
      (node_of_flawless hflawless hpath live).1.symm.trans (node_of_flawless hflawless hother live).1
    cases other with
    | nil => exact absurd hsame (hstep hpath)
    | cons side' above' =>
      obtain ⟨parent, hparent⟩ := Option.ne_none_iff_exists'.1 (hstep hpath)
      obtain rfl := ih hparent (hsame.symm.trans hparent)
      cases side <;> cases side'
      · rfl
      · exact absurd ⟨above, key, hpath, hother⟩ hno
      · exact absurd ⟨above, key, hother, hpath⟩ hno
      · rfl

/-- The nodes that are reached, each once. -/
lemma Tour.exists_keys (hno : ¬ t.HasTwins) {ways : List (List Side)} (h : t.Tour [] ways) :
    ∃ keys : List NodeKey, keys.Nodup ∧ keys.length = ways.length ∧
      ∀ key, key ∈ keys ↔ ∃ path, t.keyAt? path = some key := by
  have hways : ∀ path, path ∈ ways ↔ (t.keyAt? path).isSome := fun path => by
    rw [h.mem_iff, and_iff_right List.nil_suffix]
  refine ⟨ways.filterMap t.keyAt?, h.nodup.filterMap fun path other key hpath hother => ?_, ?_, fun key => ?_⟩
  · exact eq_of_keyAt?_eq hflawless hno hpath hother
  · exact List.filterMap_length_eq_length.2 fun path hpath => (hways path).1 hpath
  · rw [List.mem_filterMap]
    constructor
    · rintro ⟨path, _, hkey⟩
      exact ⟨path, hkey⟩
    · rintro ⟨path, hkey⟩
      exact ⟨path, (hways path).2 (by rw [hkey]; rfl), hkey⟩

end Flawless

/-- The ways from the root to a node. -/
def ways (t : Tree) : Set (List Side) := {path | (t.keyAt? path).isSome}

lemma visits_of_flawless (hsize : t.nodes.size = t.nodes.full) (hflawless : ∀ path, t.IsFlawless path) :
    t.visitEdge (t.size + 1) none t.root = .ok t.ways.ncard := by
  cases hvisits : t.visitEdge (t.size + 1) none t.root with
  | error d =>
    obtain ⟨path, hnot⟩ := (visits_root hsize).exists_not_flawless [] rfl rfl hvisits
    exact absurd (hflawless path) hnot
  | ok k =>
    obtain ⟨ways, htour, rfl⟩ := (visits_root hsize).exists_tour [] rfl rfl hvisits
    rw [Tree.ways, htour.ncard_eq]

/-- The rounds end with what the bounded walk finds. -/
lemma endsIn_root (hsize : t.nodes.size = t.nodes.full) :
    t.EndsIn (t.root.pending none) 0 (t.visitEdge (t.size + 1) none t.root) := by
  rw [← List.append_nil (t.root.pending none)]
  refine (visits_root hsize).endsIn (fun k hk => ?_) fun d hd => hd
  rw [hk, Nat.zero_add]
  exact .done

lemma check_eq_ok_iff : t.check = .ok () ↔ t.visitEdge (t.size + 1) none t.root = .ok t.size := by
  rw [check_eq]
  cases t.visitEdge (t.size + 1) none t.root with
  | error d => simp [verdict]
  | ok k => by_cases hk : k = t.size <;> simp [verdict, hk]

lemma visits_of_unreachable (hsize : t.nodes.size = t.nodes.full) {count : Int}
    (h : t.check = .error (.unreachable count)) :
    ∃ k, t.visitEdge (t.size + 1) none t.root = .ok k ∧ k ≠ t.size ∧ count = t.size - k := by
  rw [check_eq] at h
  cases hvisits : t.visitEdge (t.size + 1) none t.root with
  | error d =>
    rw [hvisits] at h
    cases h
    exact absurd hvisits ((visits_root hsize).ne_unreachable count)
  | ok k =>
    rw [hvisits, verdict] at h
    split at h
    · cases h
    next hk =>
    cases h
    exact ⟨k, rfl, hk, rfl⟩

lemma IsSound.flawless (h : t.IsSound) (path : List Side) : t.IsFlawless path := by
  intro key hkey
  obtain ⟨n, live⟩ := Option.isSome_iff_exists.1 (h.live path key hkey)
  exact ⟨n, live, h.linked path key n hkey live, h.bookmarked key n live,
    fun hcompress => h.full hcompress key n live⟩

lemma IsSound.not_hasTwins (h : t.IsSound) : ¬ t.HasTwins := by
  rintro ⟨above, key, hleft, hright⟩
  obtain ⟨n, live⟩ := Option.isSome_iff_exists.1 (h.live _ key hleft)
  cases (h.reached key n live).unique hleft hright

lemma Tour.length_le (hsize : t.nodes.size = t.nodes.full) (hflawless : ∀ path, t.IsFlawless path)
    (hno : ¬ t.HasTwins) {ways : List (List Side)} (htour : t.Tour [] ways) : ways.length ≤ t.size := by
  obtain ⟨keys, hnodup, hkeys, hmem⟩ := htour.exists_keys hflawless hno
  rw [← hkeys, size, hsize]
  exact Arena.length_le_full hnodup fun key hkey => isSome_node?_of_reached hflawless ((hmem key).1 hkey)

/-- If as many nodes are reached as there are, then all are. -/
lemma Tour.exists_keyAt? (hsize : t.nodes.size = t.nodes.full) (hflawless : ∀ path, t.IsFlawless path)
    (hno : ¬ t.HasTwins) {ways : List (List Side)} (htour : t.Tour [] ways)
    (hlength : ways.length = t.size) {key : NodeKey} {n : Node} (live : t.node? key = some n) :
    ∃ path, t.keyAt? path = some key := by
  obtain ⟨keys, hnodup, hkeys, hmem⟩ := htour.exists_keys hflawless hno
  by_contra hnot
  have hlive : ∀ other ∈ key :: keys, (t.nodes.get? other).isSome := by
    refine List.forall_mem_cons.2 ⟨Option.isSome_iff_exists.2 ⟨n, live⟩, fun other hother => ?_⟩
    exact isSome_node?_of_reached hflawless ((hmem other).1 hother)
  have hle := Arena.length_le_full (List.nodup_cons.2 ⟨mt (hmem key).1 hnot, hnodup⟩) hlive
  rw [List.length_cons, hkeys, hlength, size, hsize] at hle
  omega

lemma isSound_of_length_ways (hsize : t.nodes.size = t.nodes.full)
    (hflawless : ∀ path, t.IsFlawless path) (hno : ¬ t.HasTwins) {ways : List (List Side)}
    (htour : t.Tour [] ways) (hlength : ways.length = t.size) : t.IsSound where
  live path key hkey := isSome_node?_of_reached hflawless ⟨path, hkey⟩
  reached key n live := by
    obtain ⟨path, hpath⟩ := htour.exists_keyAt? hsize hflawless hno hlength live
    exact ⟨path, hpath, fun other hother => eq_of_keyAt?_eq hflawless hno hother hpath⟩
  linked path key n hkey live := (node_of_flawless hflawless hkey live).1
  bookmarked key n live := by
    obtain ⟨path, hpath⟩ := htour.exists_keyAt? hsize hflawless hno hlength live
    exact (node_of_flawless hflawless hpath live).2.1
  full hcompress key n live := by
    obtain ⟨path, hpath⟩ := htour.exists_keyAt? hsize hflawless hno hlength live
    exact (node_of_flawless hflawless hpath live).2.2 hcompress

lemma IsSound.ncard_ways (h : t.IsSound) (hsize : t.nodes.size = t.nodes.full)
    (hsmall : t.nodes.slots.size ≤ UInt32.size) : t.ways.ncard = t.size := by
  obtain ⟨ways, htour, hlength⟩ :=
    (visits_root hsize).exists_tour [] rfl rfl (visits_of_flawless hsize h.flawless)
  obtain ⟨keys, _, hkeys, hmem⟩ := htour.exists_keys h.flawless h.not_hasTwins
  have hle := htour.length_le hsize h.flawless h.not_hasTwins
  have hge : t.nodes.full ≤ keys.length := by
    refine Arena.full_le_length hsmall fun key hkey => (hmem key).2 ?_
    obtain ⟨n, live⟩ := Option.isSome_iff_exists.1 hkey
    obtain ⟨path, hpath, _⟩ := h.reached key n live
    exact ⟨path, hpath⟩
  rw [hkeys, ← hsize] at hge
  rw [← hlength]
  exact Nat.le_antisymm hle hge

end Visits

/-- What the check finds. Its rounds come to an end with any nodes and edges, and nothing else can come of
them. It finds no defect exactly if no way from the root leads to one and there are as many ways as live
nodes; then the tree is sound exactly if no node that is reached has one child on both sides. With a sound
tree it finds no defect. The number of nodes not reached is reported as that of the live nodes less that of
the ways, which is above zero unless there are such twins. (The counter of an arena counts its full slots
after any requests: `Arena.size_serveAll`.) -/
theorem check_counts_ways (t : Tree) (hsize : t.nodes.size = t.nodes.full) :
    (∃ found, (∀ other, t.EndsIn (t.root.pending none) 0 other ↔ other = found) ∧
        t.check = t.verdict found) ∧
      (t.check = .ok () ↔ (∀ path, t.IsFlawless path) ∧ t.ways.ncard = t.size) ∧
      (t.check = .ok () → (t.IsSound ↔ ¬ t.HasTwins)) ∧
      (t.nodes.slots.size ≤ UInt32.size → t.IsSound → t.check = .ok ()) ∧
      ∀ count, t.check = .error (.unreachable count) →
        count = t.size - t.ways.ncard ∧ (¬ t.HasTwins → 0 < count) := by
  refine ⟨⟨_, fun other => ⟨fun h => (endsIn_root hsize).unique h, ?_⟩, check_eq t⟩, ⟨fun hok => ?_, ?_⟩,
    fun hok => ⟨IsSound.not_hasTwins, fun hno => ?_⟩, fun hsmall hsound => ?_, fun count hcount => ?_⟩
  · rintro rfl
    exact endsIn_root hsize
  · obtain ⟨ways, htour, hlength⟩ := (visits_root hsize).exists_tour [] rfl rfl (check_eq_ok_iff.1 hok)
    refine ⟨fun path => htour.flawless path List.nil_suffix, ?_⟩
    rw [Tree.ways, htour.ncard_eq, hlength]
  · rintro ⟨hflawless, hcount⟩
    rw [check_eq_ok_iff, visits_of_flawless hsize hflawless, hcount]
  · obtain ⟨ways, htour, hlength⟩ := (visits_root hsize).exists_tour [] rfl rfl (check_eq_ok_iff.1 hok)
    exact isSound_of_length_ways hsize (fun path => htour.flawless path List.nil_suffix) hno htour hlength
  · have hvisits := visits_of_flawless hsize hsound.flawless
    rw [check_eq_ok_iff, hvisits, hsound.ncard_ways hsize hsmall]
  · obtain ⟨k, hvisits, hne, rfl⟩ := visits_of_unreachable hsize hcount
    obtain ⟨ways, htour, rfl⟩ := (visits_root hsize).exists_tour [] rfl rfl hvisits
    rw [Tree.ways, htour.ncard_eq]
    refine ⟨rfl, fun hno => ?_⟩
    have hle := htour.length_le hsize (fun path => htour.flawless path List.nil_suffix) hno
    omega

/-- A fork, and two nodes beside it that are each other's only child. -/
theorem check_counts_ways_beside_ring :
    let fork : Node := ⟨none, .plain ⟨1, 0⟩, .plain ⟨2, 0⟩, none, none⟩
    let leaf := Node.leaf (some ⟨0, 0⟩) ⟨0⟩ none
    let ring (other : NodeKey) : Node := ⟨some other, .plain other, .null, none, none⟩
    let requests := [fork, leaf, leaf, ring ⟨4, 0⟩, ring ⟨3, 0⟩].map Arena.Request.insert
    let t : Tree :=
      { bare false false with nodes := (Arena.serveAll .empty requests).2, root := .plain ⟨0, 0⟩ }
    t.nodes.size = t.nodes.full ∧ t.check = .error (.unreachable 2) ∧ t.ways.ncard = 3 ∧ ¬ t.IsSound := by
  intro fork leaf ring requests t
  have hsize := Arena.size_serveAll requests
  obtain ⟨_, _, _, hsound, hcount⟩ := check_counts_ways t hsize
  have hcheck : t.check = .error (.unreachable 2) := rfl
  obtain ⟨hways, _⟩ := hcount 2 hcheck
  have hfive : t.size = 5 := rfl
  refine ⟨hsize, hcheck, by omega, fun h => ?_⟩
  have hok := hsound (by decide) h
  rw [hcheck] at hok
  cases hok

/-- A node with one child on both sides is enough for the check to miss a node that no way leads to. With no
node to miss, the check reports that one node less than none is not reached. -/
theorem twins_hide_orphan :
    let twins : Node := ⟨none, .plain ⟨1, 0⟩, .plain ⟨1, 0⟩, none, none⟩
    let leaf := Node.leaf (some ⟨0, 0⟩) ⟨0⟩ none
    let grown (nodes : List Node) : Tree :=
      { bare true false with
        nodes := (Arena.serveAll .empty (nodes.map .insert)).2, root := .plain ⟨0, 0⟩ }
    let t := grown [twins, leaf, leaf]
    (t.check = .ok () ∧ t.node? ⟨2, 0⟩ = some leaf ∧ (∀ path, t.keyAt? path ≠ some ⟨2, 0⟩) ∧
        t.keyAt? [.left] = some ⟨1, 0⟩ ∧ t.keyAt? [.right] = some ⟨1, 0⟩) ∧
      (grown [twins, leaf]).check = .error (.unreachable (-1)) := by
  intro twins leaf grown t
  have hkeys : ∀ path, t.keyAt? path = some ⟨0, 0⟩ ∨ t.keyAt? path = some ⟨1, 0⟩ ∨
      t.keyAt? path = none := by
    intro path
    induction path with
    | nil => exact .inl rfl
    | cons side above ih =>
      rw [keyAt?]
      rcases ih with h | h | h
      · rw [h]
        cases side <;> exact .inr (.inl rfl)
      · rw [h]
        cases side <;> exact .inr (.inr rfl)
      · rw [h]
        exact .inr (.inr rfl)
  refine ⟨⟨rfl, rfl, fun path hpath => ?_, rfl, rfl⟩, rfl⟩
  rcases hkeys path with h | h | h <;> rw [h] at hpath <;> cases hpath

end Tree

end ForkTree
