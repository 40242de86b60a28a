import ForkTree.Proofs.Ancestry
import ForkTree.Proofs.LiveMarks

/-!
What an update of a searcher leaves alone. Two trees are `Rebits` of each other if they only differ in bits
on edges that lead somewhere, and in none of the bits that are kept. An update keeps all bits but those of
its searcher, whatever tree and keys it is given (`rebits_retrack`).
-/

namespace ForkTree

/-- The edge leads where it did, and what is kept of its bits is what it was. -/
structure Edge.Rebits (kept : Mask → Prop) (e e' : Edge) : Prop where
  target_eq : e'.target = e.target
  null_eq : e.target = none → e' = e
  kept_eq : ∀ mask, kept mask → e'.tag &&& mask = e.tag &&& mask

namespace Tree

/-- Only bits of edges that lead somewhere differ, and only bits that are not kept. -/
structure Rebits (kept : Mask → Prop) (t u : Tree) : Prop where
  root : t.root.Rebits kept u.root
  dead : ∀ key, t.node? key = none → u.node? key = none
  live : ∀ key n, t.node? key = some n → ∃ m, u.node? key = some m ∧ m.parent = n.parent ∧
    m.bookmark = n.bookmark ∧ m.note = n.note ∧ ∀ side, (n.edgeAt side).Rebits kept (m.edgeAt side)

end Tree

namespace Edge.Rebits

variable {kept : Mask → Prop} {e e' e'' : Edge}

lemma refl (e : Edge) : e.Rebits kept e := ⟨rfl, fun _ => rfl, fun _ _ => rfl⟩

lemma trans (h : e.Rebits kept e') (h' : e'.Rebits kept e'') : e.Rebits kept e'' where
  target_eq := h'.target_eq.trans h.target_eq
  null_eq hnull := (h'.null_eq (h.target_eq.trans hnull)).trans (h.null_eq hnull)
  kept_eq mask hmask := (h'.kept_eq mask hmask).trans (h.kept_eq mask hmask)

end Edge.Rebits

namespace Tree

variable {t u : Tree} {key : NodeKey} {kept : Mask → Prop}

namespace Rebits

variable {v : Tree}

lemma refl (t : Tree) : t.Rebits kept t :=
  ⟨.refl _, fun _ h => h, fun _ n h => ⟨n, h, rfl, rfl, rfl, fun _ => .refl _⟩⟩

lemma trans (h : t.Rebits kept u) (h' : u.Rebits kept v) : t.Rebits kept v where
  root := h.root.trans h'.root
  dead key hkey := h'.dead key (h.dead key hkey)
  live key n hn := by
    obtain ⟨m, hm, hparent, hbookmark, hnote, hedge⟩ := h.live key n hn
    obtain ⟨l, hl, hparent', hbookmark', hnote', hedge'⟩ := h'.live key m hm
    exact ⟨l, hl, hparent'.trans hparent, hbookmark'.trans hbookmark, hnote'.trans hnote,
      fun side => (hedge side).trans (hedge' side)⟩

lemma live_back (h : t.Rebits kept u) {m : Node} (hm : u.node? key = some m) :
    ∃ n, t.node? key = some n ∧ m.parent = n.parent ∧ m.isLeaf = n.isLeaf := by
  cases hn : t.node? key with
  | none =>
    rw [h.dead key hn] at hm
    cases hm
  | some n =>
    obtain ⟨m', hm', hparent, _, _, hedge⟩ := h.live key n hn
    cases hm.symm.trans hm'
    have hl : m.left.target = n.left.target := (hedge .left).target_eq
    have hr : m.right.target = n.right.target := (hedge .right).target_eq
    exact ⟨n, rfl, hparent, by rw [Node.isLeaf, Node.isLeaf, Edge.isNull, Edge.isNull, hl, hr]; rfl⟩

lemma isLeaf_iff (h : t.Rebits kept u) : u.IsLeaf key ↔ t.IsLeaf key := by
  constructor
  · rintro ⟨m, hm, hleaf⟩
    obtain ⟨n, hn, _, hsame⟩ := h.live_back hm
    exact ⟨n, hn, hsame ▸ hleaf⟩
  · rintro ⟨n, hn, hleaf⟩
    obtain ⟨m, hm, _⟩ := h.live key n hn
    obtain ⟨n', hn', _, hsame⟩ := h.live_back hm
    cases hn.symm.trans hn'
    exact ⟨m, hm, hsame.trans hleaf⟩

lemma above_iff (h : t.Rebits kept u) {a : NodeKey} : u.Above a key ↔ t.Above a key := by
  constructor
  · intro habove
    induction habove with
    | parent live linked =>
      obtain ⟨n, hn, hparent, _⟩ := h.live_back live
      exact .parent hn (hparent.symm.trans linked)
    | up live linked _ ih =>
      obtain ⟨n, hn, hparent, _⟩ := h.live_back live
      exact .up hn (hparent.symm.trans linked) ih
  · intro habove
    induction habove with
    | parent live linked =>
      obtain ⟨m, hm, hparent, _⟩ := h.live _ _ live
      exact .parent hm (hparent.trans linked)
    | up live linked _ ih =>
      obtain ⟨m, hm, hparent, _⟩ := h.live _ _ live
      exact .up hm (hparent.trans linked) ih

end Rebits

lemma rebits_modify {change : Node → Node}
    (hsame : ∀ n, t.node? key = some n → (change n).parent = n.parent ∧
      (change n).bookmark = n.bookmark ∧ (change n).note = n.note ∧
      ∀ side, (n.edgeAt side).Rebits kept ((change n).edgeAt side)) :
    t.Rebits kept (t.modify key change) := by
  refine ⟨.refl _, fun k hk => ?_, fun k n hn => ?_⟩
  · rw [node?_modify]
    split
    · next e => rw [← e, hk]; rfl
    · exact hk
  · rw [node?_modify]
    by_cases hk : k = key
    · subst hk
      rw [if_pos rfl, hn]
      exact ⟨_, rfl, hsame n hn⟩
    · rw [if_neg hk]
      exact ⟨n, hn, rfl, rfl, rfl, fun _ => .refl _⟩

lemma rebits_modifyIncoming {change : Edge → Edge}
    (hchange : ∀ e : Edge, e.pointsTo key = true → e.Rebits kept (change e)) :
    t.Rebits kept (t.modifyIncoming key change) := by
  unfold Tree.modifyIncoming
  split
  · exact .refl t
  · split
    · refine rebits_modify fun n _ => ?_
      unfold Node.modifyEdgeTo
      split
      · next hto =>
        refine ⟨rfl, rfl, rfl, fun side => ?_⟩
        cases side with
        | left => exact hchange _ hto
        | right => exact .refl _
      · split
        · next hto =>
          refine ⟨rfl, rfl, rfl, fun side => ?_⟩
          cases side with
          | left => exact .refl _
          | right => exact hchange _ hto
        · exact ⟨rfl, rfl, rfl, fun _ => .refl _⟩
    · split
      · next hto =>
        exact ⟨hchange _ hto, fun _ h => h, fun _ n h => ⟨n, h, rfl, rfl, rfl, fun _ => .refl _⟩⟩
      · exact .refl t

/-- Setting and clearing bits changes no others. -/
lemma rebits_mark (mask : Mask) (key : NodeKey) (hkept : ∀ other, kept other → mask &&& other = 0) :
    t.Rebits kept (t.modifyIncoming key (Edge.mark · mask)) :=
  rebits_modifyIncoming fun e hto => by
    refine ⟨rfl, fun hnull => ?_, fun other hother => Mask.mark_and_of_disjoint e.tag (hkept other hother)⟩
    simp [Edge.pointsTo, hnull] at hto

lemma rebits_unmark (mask : Mask) (key : NodeKey) (hkept : ∀ other, kept other → mask &&& other = 0) :
    t.Rebits kept (t.modifyIncoming key (Edge.unmark · mask)) :=
  rebits_modifyIncoming fun e hto => by
    refine ⟨rfl, fun hnull => ?_, fun other hother => Mask.unmark_and_of_disjoint e.tag (hkept other hother)⟩
    simp [Edge.pointsTo, hnull] at hto

section Updates

variable {P : Tree → Prop} {mask : Mask}

lemma markUp_keeps (hmark : ∀ t key, P t → P (t.modifyIncoming key (Edge.mark · mask))) (fuel : Nat)
    (h : P t) (key : NodeKey) : P (Tree.markUp mask fuel t key) := by
  induction fuel generalizing t key with
  | zero => exact h
  | succ fuel ih =>
    unfold Tree.markUp
    split
    · exact h
    · split
      · exact h
      · simp only
        split
        · exact ih (hmark t key h) _
        · exact hmark t key h

lemma unmarkUp_keeps (hunmark : ∀ t key, P t → P (t.modifyIncoming key (Edge.unmark · mask)))
    (fuel : Nat) (h : P t) (key : NodeKey) : P (Tree.unmarkUp mask fuel t key) := by
  induction fuel generalizing t key with
  | zero => exact h
  | succ fuel ih =>
    unfold Tree.unmarkUp
    split
    · exact h
    · split
      · exact h
      · simp only
        split
        · exact ih (hunmark t key h) _
        · exact hunmark t key h

/-- An update keeps what is kept by setting and clearing the searcher's bit on any one edge. -/
lemma retrack_keeps (hmark : ∀ t key, P t → P (t.modifyIncoming key (Edge.mark · mask)))
    (hunmark : ∀ t key, P t → P (t.modifyIncoming key (Edge.unmark · mask))) (h : P t)
    (added removed : List NodeKey) : P (Tree.retrack mask t added removed) := by
  have hadded : P (added.foldl (Tree.mark mask) t) := by
    induction added generalizing t with
    | nil => exact h
    | cons key added ih => exact ih (markUp_keeps hmark t.size h key)
  unfold Tree.retrack
  generalize added.foldl (Tree.mark mask) t = u at hadded
  induction removed generalizing u with
  | nil => exact hadded
  | cons key removed ih => exact ih _ (unmarkUp_keeps hunmark u.size hadded key)

end Updates

theorem rebits_retrack {mask : Mask} (hkept : ∀ other, kept other → mask &&& other = 0) (t : Tree)
    (added removed : List NodeKey) : t.Rebits kept (Tree.retrack mask t added removed) :=
  retrack_keeps (fun _ key h => h.trans (rebits_mark mask key hkept))
    (fun _ key h => h.trans (rebits_unmark mask key hkept)) (.refl t) added removed

end Tree

end ForkTree
