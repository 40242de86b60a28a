import ForkTree.Bytes
import ForkTree.Text.Blank

/-!
How the payload of a log segment is stored. Three codecs have a number and a name; only the plain
one, which stores the payload as it is, can be used, and the other two are refused by name when a
payload has to be packed or unpacked.
-/

namespace ForkTree.Log

inductive Codec where
  | plain | zstd | lz4
  deriving DecidableEq, Repr, Inhabited

namespace Codec

def toByte : Codec → UInt8
  | plain => 0
  | zstd => 1
  | lz4 => 2

def ofByte? (b : UInt8) : Option Codec :=
  if b = 0 then some plain
  else if b = 1 then some zstd
  else if b = 2 then some lz4
  else none

/-- The codec of a configured name, with blanks around it and in either case. No name means none. -/
def ofName? (s : String) : Option Codec :=
  match (Text.trim s).toLower with
  | "none" | "" => some plain
  | "zstd" => some zstd
  | "lz4" => some lz4
  | _ => none

/-- The name under which a codec is refused. -/
def name : Codec → String
  | plain => "none"
  | zstd => "zstd"
  | lz4 => "lz4"

/-- A payload as it is stored; the codec itself when it cannot be used. -/
def pack (c : Codec) (payload : Bytes) : Except Codec Bytes :=
  match c with
  | plain => .ok payload
  | c => .error c

/-- A payload out of what is stored; the codec itself when it cannot be used. -/
def unpack (c : Codec) (stored : Bytes) : Except Codec Bytes :=
  match c with
  | plain => .ok stored
  | c => .error c

theorem ofByte?_toByte (c : Codec) : ofByte? c.toByte = some c := by cases c <;> rfl

end Codec

end ForkTree.Log
