import ForkTree.Ident

/-!
Edges with marks. An edge leads to a node or nowhere, and carries one bit for each of eight searchers.
Searchers claim their bits from `Masks`, lowest first.
-/

namespace ForkTree

/-- A set of searchers' bits. -/
abbrev Mask := UInt8

structure Edge where
  target : Option NodeKey
  tag : Mask
  deriving DecidableEq, Repr, Inhabited

namespace Edge

/-- An edge to nowhere. -/
def null : Edge := ⟨none, 0⟩

/-- An unmarked edge to a node. -/
def plain (key : NodeKey) : Edge := ⟨some key, 0⟩

def isNull (e : Edge) : Bool := e.target.isNone

/-- The edge leads somewhere and carries one of the bits. -/
def isMarked (e : Edge) (mask : Mask) : Bool := e.target.isSome && e.tag &&& mask != 0

def pointsTo (e : Edge) (key : NodeKey) : Bool := e.target = some key

def setTag (e : Edge) (tag : Mask) : Edge := { e with tag }

def mark (e : Edge) (mask : Mask) : Edge := e.setTag (e.tag ||| mask)

def unmark (e : Edge) (mask : Mask) : Edge := e.setTag (e.tag &&& ~~~mask)

end Edge

/-- The bits that are claimed: the lowest `claimed` ones. -/
structure Masks where
  claimed : Nat
  deriving DecidableEq, Repr, Inhabited

namespace Masks

/-- The number of bits on an edge. -/
def width : Nat := 8

def empty : Masks := ⟨0⟩

/-- All bits are claimed. -/
structure Exhausted where
  deriving DecidableEq, Repr

def Exhausted.message (_ : Exhausted) : String :=
  "execution tree cannot support more than " ++ Text.decimal width ++ " tagging searchers"

def claim (m : Masks) : Except Exhausted Mask × Masks :=
  if m.claimed < width then (.ok (1 <<< UInt8.ofNat m.claimed), ⟨m.claimed + 1⟩)
  else (.error ⟨⟩, m)

end Masks

end ForkTree
