import ForkTree.Double.Basic
import ForkTree.Sorted.Map

/-!
JSON values. A number is an integer of 64 bits or a double with a sign. Objects keep their members in
the order of the text, repeated names included, so that a decoder can decide what a repetition means.

A literal may be well formed and still stand for nothing: a string whose escapes pair up to no
character or whose bytes are no UTF-8, or a number beyond the finite doubles. It becomes
`unreadable`, which no decoder accepts, so it does harm only where it is looked at.
-/

namespace ForkTree

inductive Json where
  | null
  | bool (b : Bool)
  | int (n : Int)
  | real (negative : Bool) (magnitude : Double)
  | text (s : String)
  | array (items : List Json)
  | object (members : List (String × Json))
  | unreadable
  deriving Repr, Inhabited

namespace Json

def names (members : List (String × Json)) : List String := members.map Prod.fst

/-- Nothing in the value is unreadable, and no more than `room` arrays and objects lie inside one
another. A value that has to be kept aside before anyone asks for it must be of this kind. -/
def keepable : (room : Nat) → Json → Bool
  | 0, .array _ => false
  | 0, .object _ => false
  | room + 1, .array items => items.all (keepable room)
  | room + 1, .object members => members.all fun (_, j) => keepable room j
  | _, .unreadable => false
  | _, _ => true

/-- Members sorted by name; of repeated names the last counts. -/
def sortMembers (members : List (String × Json)) : List (String × Json) :=
  (SortedMap.ofList members).entries

mutual

/-- The same value with the members of every object sorted. -/
def canonical : Json → Json
  | .array items => .array (canonicalItems items)
  | .object members => .object (sortMembers (canonicalMembers members))
  | j => j

def canonicalItems : List Json → List Json
  | [] => []
  | j :: rest => canonical j :: canonicalItems rest

def canonicalMembers : List (String × Json) → List (String × Json)
  | [] => []
  | (name, j) :: rest => (name, canonical j) :: canonicalMembers rest

end

/-- A natural number as a JSON integer. -/
def nat (n : Nat) : Json := .int n

/-- `null` for nothing. -/
def option {α : Type} (encode : α → Json) : Option α → Json
  | none => .null
  | some a => encode a

end Json

end ForkTree
