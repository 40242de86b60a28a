import ForkTree.Json.Number
import ForkTree.Text.Hex

/-!
Writing JSON text: `compact` without blanks, `pretty` with two blanks of indentation a level and
nothing inside empty containers. In strings the quote, the backslash and the control characters
below U+0020 are escaped and everything else stands for itself.
-/

namespace ForkTree.Json

def escapeChar (c : Char) : List Char :=
  if c = '"' then ['\\', '"']
  else if c = '\\' then ['\\', '\\']
  else if c.toNat = 0x08 then ['\\', 'b']
  else if c.toNat = 0x0c then ['\\', 'f']
  else if c = '\n' then ['\\', 'n']
  else if c = '\r' then ['\\', 'r']
  else if c = '\t' then ['\\', 't']
  else if c.toNat < 0x20 then
    ['\\', 'u', '0', '0', Text.Hex.digit (c.toNat / 16), Text.Hex.digit (c.toNat % 16)]
  else [c]

def quote (s : String) : String :=
  String.ofList ('"' :: s.toList.flatMap escapeChar ++ ['"'])

/-- A value that is no container. -/
def writeScalar : Json → String
  | .bool true => "true"
  | .bool false => "false"
  | .int n => writeInt n
  | .real negative x => writeReal negative x
  | .text s => quote s
  | _ => "null"

mutual

/-- The text without blanks. -/
def compact : Json → String
  | .array [] => "[]"
  | .array (j :: rest) => "[" ++ compact j ++ compactItems rest ++ "]"
  | .object [] => "\x7b\x7d"
  | .object ((name, j) :: rest) =>
    "\x7b" ++ quote name ++ ":" ++ compact j ++ compactMembers rest ++ "\x7d"
  | j => writeScalar j

/-- The items after the first, each with its comma. -/
def compactItems : List Json → String
  | [] => ""
  | j :: rest => "," ++ compact j ++ compactItems rest

/-- The members after the first, each with its comma. -/
def compactMembers : List (String × Json) → String
  | [] => ""
  | (name, j) :: rest => "," ++ quote name ++ ":" ++ compact j ++ compactMembers rest

end

/-- A line break and the indentation of a level. -/
def newline (level : Nat) : String := "\n" ++ String.ofList (List.replicate (2 * level) ' ')

mutual

/-- The text with each item and member on a line of its own, inside containers `level` deep. -/
def prettyAt (level : Nat) : Json → String
  | .array [] => "[]"
  | .array (j :: rest) =>
    "[" ++ newline (level + 1) ++ prettyAt (level + 1) j ++ prettyItems (level + 1) rest ++
      newline level ++ "]"
  | .object [] => "\x7b\x7d"
  | .object ((name, j) :: rest) =>
    "\x7b" ++ newline (level + 1) ++ quote name ++ ": " ++ prettyAt (level + 1) j ++
      prettyMembers (level + 1) rest ++ newline level ++ "\x7d"
  | j => writeScalar j

def prettyItems (level : Nat) : List Json → String
  | [] => ""
  | j :: rest => "," ++ newline level ++ prettyAt level j ++ prettyItems level rest

def prettyMembers (level : Nat) : List (String × Json) → String
  | [] => ""
  | (name, j) :: rest =>
    "," ++ newline level ++ quote name ++ ": " ++ prettyAt level j ++ prettyMembers level rest

end

def pretty (j : Json) : String := prettyAt 0 j

end ForkTree.Json
