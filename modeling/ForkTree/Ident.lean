import ForkTree.Json.Decode
import ForkTree.Text.Decimal
import ForkTree.Text.Hex

/-!
Identities. A `NodeKey` names a live node by its slot and the slot's generation; it is short-lived. A
`NodeId` is the number under which a node is recorded, and a `StateId` the number of a path. A
`RunId` tells recorded runs apart.
-/

namespace ForkTree

structure NodeId where
  val : UInt64
  deriving DecidableEq, Repr, Inhabited, Hashable

namespace NodeId

instance : LT NodeId := ⟨fun a b => a.val < b.val⟩

instance : LE NodeId := ⟨fun a b => a.val ≤ b.val⟩

instance : DecidableLT NodeId := fun a b => inferInstanceAs (Decidable (a.val < b.val))

instance : Std.LawfulOrderLT NodeId := ⟨fun a b => Std.LawfulOrderLT.lt_iff a.val b.val⟩

instance : Std.IsLinearOrder NodeId where
  le_refl a := Std.le_refl a.val
  le_trans a b c := Std.le_trans (a := a.val) (b := b.val) (c := c.val)
  le_antisymm a b hab hba := congrArg mk (Std.le_antisymm (a := a.val) (b := b.val) hab hba)
  le_total a b := Std.le_total (a := a.val) (b := b.val)

def shown (id : NodeId) : String := "NodeId(" ++ Text.decimal id.val.toNat ++ ")"

def toJson (id : NodeId) : Json := .nat id.val.toNat

def ofJson? (j : Json) : Option NodeId := j.toUInt64?.map NodeId.mk

end NodeId

structure StateId where
  val : UInt32
  deriving DecidableEq, Repr, Inhabited, Hashable

namespace StateId

def shown (id : StateId) : String := "StateId(" ++ Text.decimal id.val.toNat ++ ")"

def toJson (id : StateId) : Json := .nat id.val.toNat

def ofJson? (j : Json) : Option StateId := j.toUInt32?.map StateId.mk

end StateId

/-- A slot of the arena and the generation the slot was in when the node was put there. -/
structure NodeKey where
  slot : UInt32
  generation : UInt32
  deriving DecidableEq, Repr, Inhabited, Hashable

namespace NodeKey

def shown (key : NodeKey) : String :=
  "n" ++ Text.decimal key.slot.toNat ++ "g" ++ Text.decimal key.generation.toNat

def toJson (key : NodeKey) : Json :=
  .object [("slot", .nat key.slot.toNat), ("generation", .nat key.generation.toNat)]

def ofJson? (j : Json) : Option NodeKey := do
  match ← j.fields? [Json.required "slot", Json.required "generation"] with
  | [slot, generation] => return ⟨← slot.toUInt32?, ← generation.toUInt32?⟩
  | _ => none

end NodeKey

/-- Sixteen bytes that name a run. -/
structure RunId where
  bytes : Bytes
  length_eq : bytes.length = 16
  deriving DecidableEq, Repr

namespace RunId

instance : Inhabited RunId := ⟨⟨List.replicate 16 0, rfl⟩⟩

/-- The run named by a number, which counts modulo 2 ^ 128. -/
def ofNat (n : Nat) : RunId := ⟨(Bytes.le 16 n).reverse, by simp⟩

/-- The digits of four bytes, two, two, two and six bytes, with hyphens between the groups. -/
def shown (run : RunId) : String :=
  let group := fun start len => Text.Hex.encode (Bytes.slice run.bytes start len)
  group 0 4 ++ "-" ++ group 4 2 ++ "-" ++ group 6 2 ++ "-" ++ group 8 2 ++ "-" ++ group 10 6

def ofBytes? (b : Bytes) : Option RunId :=
  if h : b.length = 16 then some ⟨b, h⟩ else none

/-- Thirty-two digits without hyphens. -/
def ofDigits? (cs : List Char) : Option RunId := (Text.Hex.decodeChars? cs).bind ofBytes?

/-- Thirty-two digits with a hyphen after the eighth, twelfth, sixteenth and twentieth. -/
def ofHyphenated? (cs : List Char) : Option RunId :=
  if [8, 13, 18, 23].all fun i => cs[i]? = some '-' then
    let group := fun start len => (cs.drop start).take len
    let groups := [group 0 8, group 9 4, group 14 4, group 19 4, cs.drop 24]
    if groups.map List.length = [8, 4, 4, 4, 12] then ofDigits? groups.flatten else none
  else none

/-- The accepted spellings: the digits alone, hyphenated, hyphenated in braces, or hyphenated after
`urn:uuid:`, with letters of either case. -/
def ofText? (s : String) : Option RunId :=
  let cs := s.toList
  if cs.length = 32 then ofDigits? cs
  else if cs.length = 36 then ofHyphenated? cs
  else if cs.length = 38 ∧ cs.head? = some '\x7b' ∧ cs.getLast? = some '\x7d' then
    ofHyphenated? cs.tail.dropLast
  else if cs.length = 45 ∧ (cs.take 9).map Char.toLower = "urn:uuid:".toList then ofHyphenated? (cs.drop 9)
  else none

def toJson (run : RunId) : Json := .text run.shown

def ofJson? (j : Json) : Option RunId := j.toText?.bind ofText?

end RunId

end ForkTree
