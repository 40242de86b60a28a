import ForkTree.Ident

/-!
An arena of values under short-lived keys. Values sit in slots. A slot that was emptied is used again,
the one emptied last first, and its generation, which is part of the key, goes up by one each time,
modulo 2 ^ 32. A key is live as long as its slot is full and in the key's generation.
-/

namespace ForkTree

structure Arena.Slot (α : Type) where
  generation : UInt32
  value : Option α
  deriving DecidableEq, Repr

structure Arena (α : Type) where
  slots : Array (Arena.Slot α)
  /-- The empty slots, the one to be used next in front. -/
  free : List UInt32
  /-- The number of full slots. -/
  size : Nat
  deriving Repr

namespace Arena

variable {α : Type}

def empty : Arena α := ⟨#[], [], 0⟩

instance : Inhabited (Arena α) := ⟨empty⟩

/-- The slot of a key, if it is in the key's generation. -/
def slot? (a : Arena α) (key : NodeKey) : Option (Slot α) :=
  (a.slots[key.slot.toNat]?).filter fun s => s.generation = key.generation

def get? (a : Arena α) (key : NodeKey) : Option α := (a.slot? key).bind Slot.value

def contains (a : Arena α) (key : NodeKey) : Bool := (a.get? key).isSome

/-- Put a value under a new key. -/
def insert (a : Arena α) (v : α) : NodeKey × Arena α :=
  match a.free with
  | i :: free =>
    let generation := ((a.slots[i.toNat]?).map Slot.generation).getD 0
    (⟨i, generation⟩,
      ⟨a.slots.setIfInBounds i.toNat ⟨generation, some v⟩, free, a.size + 1⟩)
  | [] =>
    (⟨UInt32.ofNat a.slots.size, 0⟩, ⟨a.slots.push ⟨0, some v⟩, [], a.size + 1⟩)

def remove (a : Arena α) (key : NodeKey) : Option α × Arena α :=
  match a.get? key with
  | some v =>
    (some v,
      ⟨a.slots.setIfInBounds key.slot.toNat ⟨key.generation + 1, none⟩, key.slot :: a.free,
        a.size - 1⟩)
  | none => (none, a)

def modify (a : Arena α) (key : NodeKey) (change : α → α) : Arena α :=
  match a.get? key with
  | some v =>
    { a with slots := a.slots.setIfInBounds key.slot.toNat ⟨key.generation, some (change v)⟩ }
  | none => a

/-- The live keys with their values, in the order of the slots. -/
def entries (a : Arena α) : List (NodeKey × α) :=
  a.slots.toList.zipIdx.filterMap fun (s, i) =>
    s.value.map fun v => (⟨UInt32.ofNat i, s.generation⟩, v)

end Arena

end ForkTree
