import ForkTree.Json.Token

/-!
Reading JSON text. The reader is a machine that takes one token at a time and keeps the containers
that are still open; a value is finished when the last of them closes. `read?` accepts a text when
exactly one value, with nothing but blanks around it, was read.
-/

namespace ForkTree.Json

/-- An open container around the value that is being read. What it holds is in reverse. -/
inductive Frame where
  | array (items : List Json)
  /-- An object whose member `name` waits for its value. A name may be no Unicode text. -/
  | object (members : List (Option String × Json)) (name : Option String)
  deriving Repr, Inhabited

/-- What the reader waits for, with the open containers from the inside out. -/
inductive Reader where
  | value (outer : List Frame)
  /-- Right after an opening bracket: a value or the closing bracket. -/
  | firstItem (outer : List Frame)
  /-- Right after an opening brace: a name or the closing brace. -/
  | firstName (outer : List Frame)
  | nextName (members : List (Option String × Json)) (outer : List Frame)
  | colon (members : List (Option String × Json)) (name : Option String) (outer : List Frame)
  | afterItem (items : List Json) (outer : List Frame)
  | afterMember (members : List (Option String × Json)) (outer : List Frame)
  | done (j : Json)
  deriving Repr, Inhabited

namespace Reader

/-- An object of finished members, unreadable if one of the names is. -/
def closeObject (members : List (Option String × Json)) : Json :=
  match members.reverse.mapM fun (name, j) => name.map (·, j) with
  | some members => .object members
  | none => .unreadable

/-- Hand a finished value to the innermost open container. -/
def deliver (j : Json) : List Frame → Reader
  | [] => .done j
  | .array items :: outer => .afterItem (j :: items) outer
  | .object members name :: outer => .afterMember ((name, j) :: members) outer

/-- Take the first token of a value. -/
def start (outer : List Frame) : Token → Option Reader
  | .word j => some (deliver j outer)
  | .quoted (some s) => some (deliver (.text s) outer)
  | .quoted none => some (deliver .unreadable outer)
  | .openArray => some (.firstItem outer)
  | .openObject => some (.firstName outer)
  | _ => none

def step : Reader → Token → Option Reader
  | .value outer, t => start outer t
  | .firstItem outer, .closeArray => some (deliver (.array []) outer)
  | .firstItem outer, t => start (.array [] :: outer) t
  | .firstName outer, .closeObject => some (deliver (.object []) outer)
  | .firstName outer, .quoted name => some (.colon [] name outer)
  | .nextName members outer, .quoted name => some (.colon members name outer)
  | .colon members name outer, .colon => some (.value (.object members name :: outer))
  | .afterItem items outer, .comma => some (.value (.array items :: outer))
  | .afterItem items outer, .closeArray => some (deliver (.array items.reverse) outer)
  | .afterMember members outer, .comma => some (.nextName members outer)
  | .afterMember members outer, .closeObject => some (deliver (closeObject members) outer)
  | _, _ => none

def run : Reader → List Token → Option Reader
  | r, [] => some r
  | r, t :: rest =>
    match step r t with
    | some r => run r rest
    | none => none

end Reader

/-- The value that a row of tokens writes. -/
def ofTokens? (tokens : List Token) : Option Json :=
  match Reader.run (.value []) tokens with
  | some (.done j) => some j
  | _ => none

/-- The value that a text in UTF-8 writes. -/
def read? (b : Bytes) : Option Json := (tokens? b).bind ofTokens?

def ofText? (s : String) : Option Json := read? (Bytes.ofText s)

end ForkTree.Json
