/-!
Shapes: binary trees of values, without keys and links. The live tree and the rebuilt tree are both
read as shapes, so that they can be compared. A leaf is a node with nothing below it. `prune` cuts a
shape down to what has a kept leaf at or below it and `contract` elides every node with a single
child. Both leave the order of the leaves alone (`leaves_prune`, `leaves_contract`), and what
`contract` yields is full, so its size follows from the number of its leaves (`IsFull.size_eq`).
-/

namespace ForkTree

inductive Shape (α : Type) where
  | empty
  | node (a : α) (left right : Shape α)
  deriving DecidableEq, Repr, Inhabited

namespace Shape

variable {α β : Type}

def isEmpty : Shape α → Bool
  | empty => true
  | node .. => false

def leaf (a : α) : Shape α := node a empty empty

def size : Shape α → Nat
  | empty => 0
  | node _ left right => 1 + left.size + right.size

/-- The number of nodes on the longest way down. -/
def height : Shape α → Nat
  | empty => 0
  | node _ left right => 1 + max left.height right.height

/-- The nodes in pre-order, left before right. -/
def preorder : Shape α → List α
  | empty => []
  | node a left right => a :: (left.preorder ++ right.preorder)

def leaves : Shape α → List α
  | empty => []
  | node a left right =>
    if left.isEmpty && right.isEmpty then [a] else left.leaves ++ right.leaves

def map (f : α → β) : Shape α → Shape β
  | empty => empty
  | node a left right => node (f a) (left.map f) (right.map f)

/-- Every node has two children or none. -/
def IsFull : Shape α → Prop
  | empty => True
  | node _ left right => left.isEmpty = right.isEmpty ∧ left.IsFull ∧ right.IsFull

/-- The nodes at or below which there is a leaf to keep, on the sides where they were. -/
def prune (keep : α → Bool) : Shape α → Shape α
  | empty => empty
  | node a left right =>
    if left.isEmpty && right.isEmpty then if keep a then leaf a else empty
    else if (left.prune keep).isEmpty && (right.prune keep).isEmpty then empty
    else node a (left.prune keep) (right.prune keep)

/-- A single child takes the place of its parent, all the way down. -/
def contract : Shape α → Shape α
  | empty => empty
  | node a left right =>
    if left.isEmpty && right.isEmpty then leaf a
    else if left.isEmpty then right.contract
    else if right.isEmpty then left.contract
    else node a left.contract right.contract

theorem isEmpty_iff {s : Shape α} : s.isEmpty = true ↔ s = empty := by cases s <;> simp [isEmpty]

theorem leaves_of_isEmpty {s : Shape α} (h : s.isEmpty = true) : s.leaves = [] := by
  rw [isEmpty_iff.1 h, leaves]

theorem length_leaves_pos {s : Shape α} (h : s.isEmpty = false) : 0 < s.leaves.length := by
  induction s with
  | empty => simp [isEmpty] at h
  | node a left right hleft hright =>
    rw [leaves]
    cases hl : left.isEmpty with
    | false =>
      have := hleft hl
      simp
      omega
    | true =>
      cases hr : right.isEmpty with
      | false =>
        have := hright hr
        simp
        omega
      | true => simp

theorem isEmpty_contract (s : Shape α) : s.contract.isEmpty = s.isEmpty := by
  induction s with
  | empty => rfl
  | node a left right hleft hright =>
    rw [contract]
    cases hl : left.isEmpty <;> cases hr : right.isEmpty <;> simp_all [isEmpty, leaf]

theorem leaves_contract (s : Shape α) : s.contract.leaves = s.leaves := by
  induction s with
  | empty => rfl
  | node a left right hleft hright =>
    rw [contract, leaves]
    cases hl : left.isEmpty <;> cases hr : right.isEmpty
    · simp [leaves, isEmpty_contract, hl, hleft, hright]
    · simp [hleft, leaves_of_isEmpty hr]
    · simp [hright, leaves_of_isEmpty hl]
    · rfl

theorem isFull_contract (s : Shape α) : s.contract.IsFull := by
  induction s with
  | empty => trivial
  | node a left right hleft hright =>
    rw [contract]
    cases hl : left.isEmpty <;> cases hr : right.isEmpty
    · exact ⟨by rw [isEmpty_contract, isEmpty_contract, hl, hr], hleft, hright⟩
    · simpa using hleft
    · simpa using hright
    · exact ⟨rfl, trivial, trivial⟩

/-- A full shape that is not empty has one node fewer than twice its leaves. -/
theorem IsFull.size_eq {s : Shape α} (h : s.IsFull) (hs : s.isEmpty = false) :
    s.size + 1 = 2 * s.leaves.length := by
  induction s with
  | empty => simp [isEmpty] at hs
  | node a left right hleft hright =>
    obtain ⟨hsame, hfull, hfull'⟩ := h
    rw [size, leaves]
    cases hl : left.isEmpty with
    | false =>
      have hleft := hleft hfull hl
      have hright := hright hfull' (hsame ▸ hl)
      simp
      omega
    | true =>
      have hr : right.isEmpty = true := hsame ▸ hl
      rw [isEmpty_iff.1 hl, isEmpty_iff.1 hr]
      rfl

theorem leaves_prune (keep : α → Bool) (s : Shape α) :
    (s.prune keep).leaves = s.leaves.filter keep := by
  induction s with
  | empty => rfl
  | node a left right hleft hright =>
    rw [prune, leaves]
    split
    · cases hk : keep a <;> simp [leaf, leaves, isEmpty, hk]
    · rw [List.filter_append, ← hleft, ← hright]
      split
      · next h =>
        rw [Bool.and_eq_true] at h
        rw [leaves_of_isEmpty h.1, leaves_of_isEmpty h.2, leaves, List.append_nil]
      · next h => rw [leaves, if_neg h]

end Shape

end ForkTree
