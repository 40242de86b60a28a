import ForkTree.Double.Shortest
import ForkTree.Json.Basic
import ForkTree.Text.Decimal

/-!
Numbers in JSON text. A literal without fraction and exponent that is a 64-bit integer stands for
itself. Any other stands for a double, which is found in two roundings: of the digits as many count
as fit in 64 bits, their number is rounded to a double, and the decimal point of that is moved to its
place. The text of a double has the fewest digits that are nearest to it.
-/

namespace ForkTree.Json

/-- The number that digits write behind a number that is already read, as long as it fits in 64 bits,
and how many digits are left then. -/
def takeDigits (n : Nat) : List Nat → Nat × Nat
  | [] => (n, 0)
  | digit :: rest =>
    if 10 * n + digit < UInt64.size then takeDigits (10 * n + digit) rest
    else (n, rest.length + 1)

/-- A number that is no integer, from the number in its digits and the place of its decimal point.
It is unreadable if it is too large for a finite double. -/
def ofScientific (negative : Bool) (digits : Nat) (power : Int) : Json :=
  match (Double.ofNat digits).shift? power with
  | some x => .real negative x
  | none => .unreadable

/-- An integer literal. A negative zero is no integer, nor is what fits neither 64-bit range. -/
def ofDigits (negative : Bool) (whole : List Nat) : Json :=
  match takeDigits 0 whole with
  | (n, 0) =>
    if negative then
      if 0 < n ∧ n ≤ 0x8000000000000000 then .int (-n) else .real true (Double.ofNat n)
    else .int n
  | (n, left) => ofScientific negative n left

/-- A literal with a fraction or an exponent. Digits behind the point may still fit when some in
front of it did not. -/
def ofParts (negative : Bool) (whole fraction : List Nat) (power : Int) : Json :=
  let (n, left) := takeDigits 0 whole
  let (n, dropped) := takeDigits n fraction
  ofScientific negative n (left - (fraction.length - dropped : Nat) + power)

/-- Digits with their exponent: with a point where it falls among sixteen digits or behind at most
four zeros, and otherwise with one digit before the point and a signed exponent. -/
def layOut (digits : String) (power : Int) : String :=
  let point := digits.length + power
  let zeros := fun n : Int => String.ofList (List.replicate n.toNat '0')
  let front := fun n : Int => String.ofList (digits.toList.take n.toNat)
  let back := fun n : Int => String.ofList (digits.toList.drop n.toNat)
  if 0 ≤ power ∧ point ≤ 16 then digits ++ zeros power ++ ".0"
  else if 0 < point ∧ point ≤ 16 then front point ++ "." ++ back point
  else if -5 < point ∧ point ≤ 0 then "0." ++ zeros (-point) ++ digits
  else
    let sign := if point ≤ 0 then "-" else "+"
    front 1 ++ (if digits.length = 1 then "" else "." ++ back 1) ++ "e" ++ sign ++
      Text.decimal (point - 1).natAbs

def writeReal (negative : Bool) (x : Double) : String :=
  let magnitude :=
    if x.isZero then "0.0"
    else
      let (digits, power) := x.shortest
      layOut (Text.decimal digits) power
  if negative then "-" ++ magnitude else magnitude

def writeInt (n : Int) : String :=
  if n < 0 then "-" ++ Text.decimal n.natAbs else Text.decimal n.natAbs

end ForkTree.Json
