import ForkTree.Bytes
import ForkTree.Json.Number
import ForkTree.Text.Hex

/-!
The tokens of JSON text. The lexer walks over the bytes once. Outside quotes a maximal run of bytes
that are neither blank, punctuation nor a quote is a word, which must be `null`, `true`, `false` or a
number; inside quotes it only looks for the closing quote, and the content is read by `literal?`.
-/

namespace ForkTree.Json

inductive Token where
  | openArray
  | closeArray
  | openObject
  | closeObject
  | comma
  | colon
  | word (value : Json)
  /-- A string; `none` when its content is no Unicode text. -/
  | quoted (content : Option String)
  deriving Repr, Inhabited

namespace Token

def isDigit (b : UInt8) : Bool := 0x30 ≤ b && b ≤ 0x39

/-- The number that a row of decimal digits writes. -/
def decimalValue (digits : Bytes) : Nat :=
  digits.foldl (fun n b => 10 * n + (b.toNat - 0x30)) 0

/-- The exponent part, empty or `e` with an optional sign and at least one digit. -/
def exponent? : Bytes → Option Int
  | [] => some 0
  | mark :: rest =>
    if mark = 0x65 ∨ mark = 0x45 then
      let (negative, digits) := match rest with
        | 0x2b :: digits => (false, digits)
        | 0x2d :: digits => (true, digits)
        | digits => (false, digits)
      if digits.isEmpty || !digits.all isDigit then none
      else if negative then some (-(decimalValue digits : Int))
      else some (decimalValue digits)
    else none

def digitsOf (row : Bytes) : List Nat := row.map fun b => b.toNat - 0x30

/-- A number without its sign: no superfluous leading zero, digits on both sides of a point. -/
def unsigned? (negative : Bool) (w : Bytes) : Option Json :=
  let whole := w.takeWhile isDigit
  let rest := w.dropWhile isDigit
  if whole.isEmpty || (whole.head? = some 0x30 && 1 < whole.length) then none
  else
    match rest with
    | [] => some (ofDigits negative (digitsOf whole))
    | 0x2e :: rest =>
      let fraction := rest.takeWhile isDigit
      if fraction.isEmpty then none
      else (exponent? (rest.dropWhile isDigit)).map fun e =>
        ofParts negative (digitsOf whole) (digitsOf fraction) e
    | rest => (exponent? rest).map fun e => ofParts negative (digitsOf whole) [] e

def number? : Bytes → Option Json
  | 0x2d :: rest => unsigned? true rest
  | w => unsigned? false w

def word? (w : Bytes) : Option Json :=
  if w = Bytes.ofText "null" then some .null
  else if w = Bytes.ofText "true" then some (.bool true)
  else if w = Bytes.ofText "false" then some (.bool false)
  else number? w

/-- A part of a string's content: a byte that stands for itself, or an escaped UTF-16 unit. -/
inductive Piece where
  | byte (b : UInt8)
  | unit (u : Nat)
  deriving DecidableEq, Repr

/-- The byte that a one-letter escape stands for. -/
def escapedByte? (letter : UInt8) : Option UInt8 :=
  match letter with
  | 0x22 => some 0x22
  | 0x5c => some 0x5c
  | 0x2f => some 0x2f
  | 0x62 => some 0x08
  | 0x66 => some 0x0c
  | 0x6e => some 0x0a
  | 0x72 => some 0x0d
  | 0x74 => some 0x09
  | _ => none

/-- The number that four hexadecimal digits write. -/
def unit? (a b c d : UInt8) : Option Nat :=
  Text.Hex.valueOf? ([a, b, c, d].map fun x => Char.ofNat x.toNat)

/-- The pieces of a content, in front of which those in `done` stand in reverse. -/
def pieces? (done : List Piece) : Bytes → Option (List Piece)
  | [] => some done.reverse
  | 0x5c :: 0x75 :: a :: b :: c :: d :: rest => do
    let u ← unit? a b c d
    pieces? (.unit u :: done) rest
  | 0x5c :: letter :: rest => do
    let b ← escapedByte? letter
    pieces? (.byte b :: done) rest
  | 0x5c :: [] => none
  | b :: rest => pieces? (.byte b :: done) rest

def isHighSurrogate (u : Nat) : Bool := 0xd800 ≤ u && u < 0xdc00

def isLowSurrogate (u : Nat) : Bool := 0xdc00 ≤ u && u < 0xe000

/-- The bytes of the pieces, after those in `done` in reverse. A surrogate without its partner has
none. -/
def encode? (done : Bytes) : List Piece → Option Bytes
  | [] => some done.reverse
  | .byte b :: rest => encode? (b :: done) rest
  | .unit u :: .unit v :: rest =>
    if isHighSurrogate u then
      if isLowSurrogate v then
        let c := Char.ofNat (0x10000 + 0x400 * (u - 0xd800) + (v - 0xdc00))
        encode? ((String.utf8EncodeChar c).reverse ++ done) rest
      else none
    else if isLowSurrogate u then none
    else encode? ((String.utf8EncodeChar (Char.ofNat u)).reverse ++ done) (.unit v :: rest)
  | .unit u :: rest =>
    if isHighSurrogate u || isLowSurrogate u then none
    else encode? ((String.utf8EncodeChar (Char.ofNat u)).reverse ++ done) rest

/-- The content of a string: no value for an ill-formed escape, no text for one that is well formed
but spells none. -/
def literal? (content : Bytes) : Option (Option String) :=
  (pieces? [] content).map fun pieces => (encode? [] pieces).bind Bytes.toText?

/-! ### The lexer -/

def isSpace (b : UInt8) : Bool := b = 0x20 || b = 0x0a || b = 0x0d || b = 0x09

def punctuation? (b : UInt8) : Option Token :=
  match b with
  | 0x5b => some .openArray
  | 0x5d => some .closeArray
  | 0x7b => some .openObject
  | 0x7d => some .closeObject
  | 0x2c => some .comma
  | 0x3a => some .colon
  | _ => none

/-- Where the lexer stands; what it holds of an unfinished token is in reverse. -/
inductive Mode where
  | between
  | word (held : Bytes)
  | quoted (held : Bytes)
  /-- Inside quotes, right after a backslash. -/
  | escaped (held : Bytes)
  deriving DecidableEq, Repr

/-- Take a byte outside of any token. -/
def enter (b : UInt8) (out : List Token) : Mode × List Token :=
  if isSpace b then (.between, out)
  else if b = 0x22 then (.quoted [], out)
  else
    match punctuation? b with
    | some t => (.between, t :: out)
    | none => (.word [b], out)

def endsWord (b : UInt8) : Bool := isSpace b || b = 0x22 || (punctuation? b).isSome

/-- Take one byte; the finished tokens are in reverse. -/
def step (b : UInt8) (out : List Token) : Mode → Option (Mode × List Token)
  | .between => some (enter b out)
  | .word held =>
    if endsWord b then (word? held.reverse).map fun j => enter b (.word j :: out)
    else some (.word (b :: held), out)
  | .quoted held =>
    if b = 0x22 then (literal? held.reverse).map fun content => (.between, .quoted content :: out)
    else if b = 0x5c then some (.escaped (b :: held), out)
    else if b < 0x20 then none
    else some (.quoted (b :: held), out)
  | .escaped held => some (.quoted (b :: held), out)

/-- The tokens of the rest of a text. -/
def scan? (mode : Mode) (out : List Token) : Bytes → Option (List Token)
  | [] =>
    match mode with
    | .between => some out.reverse
    | .word held => (word? held.reverse).map fun j => (Token.word j :: out).reverse
    | _ => none
  | b :: rest =>
    match step b out mode with
    | some (mode, out) => scan? mode out rest
    | none => none

end Token

def tokens? (b : Bytes) : Option (List Token) := Token.scan? .between [] b

end ForkTree.Json
