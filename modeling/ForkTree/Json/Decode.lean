import ForkTree.Json.Basic

/-!
Reading domain values out of JSON values. A record is an object with the record's fields under
their names, in any order and among others, or an array of exactly its fields in order. A field
given twice is refused; an optional field may be left out of an object. A symbol is its name, or an
object with the name as its only member and `null` as the value.
-/

namespace ForkTree.Json

def toNat? (bound : Nat) : Json → Option Nat
  | .int n => if 0 ≤ n ∧ n < bound then some n.toNat else none
  | _ => none

def toUInt8? (j : Json) : Option UInt8 := (toNat? UInt8.size j).map UInt8.ofNat

def toUInt32? (j : Json) : Option UInt32 := (toNat? UInt32.size j).map UInt32.ofNat

def toUInt64? (j : Json) : Option UInt64 := (toNat? UInt64.size j).map UInt64.ofNat

def toBool? : Json → Option Bool
  | .bool b => some b
  | _ => none

def toText? : Json → Option String
  | .text s => some s
  | _ => none

def toList? {α : Type} (decode : Json → Option α) : Json → Option (List α)
  | .array items => items.mapM decode
  | _ => none

def toOption? {α : Type} (decode : Json → Option α) : Json → Option (Option α)
  | .null => some none
  | j => (decode j).map some

/-- An object as names with decoded values, in the order of the text. -/
def toMembers? {α : Type} (decode : Json → Option α) : Json → Option (List (String × α))
  | .object members => members.mapM fun (name, j) => (decode j).map (name, ·)
  | _ => none

/-- The value of a member, the first of several of that name. -/
def member? (name : String) : Json → Option Json
  | .object members => (members.find? (·.1 = name)).map Prod.snd
  | _ => none

structure Field where
  name : String
  optional : Bool

def required (name : String) : Field := ⟨name, false⟩

def optional (name : String) : Field := ⟨name, true⟩

/-- The values given for a field among the members of an object: at most one. -/
def Field.value? (f : Field) (members : List (String × Json)) : Option Json :=
  match members.filter (·.1 = f.name) with
  | [] => if f.optional then some .null else none
  | [(_, j)] => some j
  | _ => none

/-- The values of a record's fields, in the order of `fields`. -/
def fields? (fields : List Field) : Json → Option (List Json)
  | .array items => if items.length = fields.length then some items else none
  | .object members => fields.mapM fun f => f.value? members
  | _ => none

/-- A symbol by its name. -/
def symbol? {α : Type} (ofName? : String → Option α) : Json → Option α
  | .text s => ofName? s
  | .object [(s, .null)] => ofName? s
  | _ => none

/-- The number of arrays and objects that may lie around a value that is kept aside. -/
def maxDepth : Nat := 127

/-- A value that may be kept aside inside `outer` containers. -/
def mayKeep (outer : Nat) (j : Json) : Bool := j.keepable (maxDepth - outer)

/-- A symbol inside a value that was kept aside, where an empty object may stand for `null`. -/
def keptSymbol? {α : Type} (ofName? : String → Option α) : Json → Option α
  | .object [(s, .object [])] => ofName? s
  | j => symbol? ofName? j

end ForkTree.Json
