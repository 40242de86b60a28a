/-!
Finite doubles without a sign, and the arithmetic on them that rounds to the nearest. A double is a
mantissa times a power of two, `nearest` rounds a quotient of natural numbers, and a product or a
quotient of doubles is the double nearest to the exact one. All of it is computed on natural numbers.
-/

namespace ForkTree

/-- The double `mantissa · 2 ^ exponent`. The mantissa has fifty-three bits, or fewer if the exponent
is the least one. -/
structure Double where
  mantissa : Nat
  exponent : Int
  deriving DecidableEq, Repr, Inhabited

/-- The natural number next to a quotient; of two that are equally near the even one. -/
def roundToEven (num den : Nat) : Nat :=
  let q := num / den
  if 2 * (num % den) < den ∨ (2 * (num % den) = den ∧ q % 2 = 0) then q else q + 1

/-- Numerator and denominator times a power, which may be negative. -/
def scale (base : Nat) (power : Int) (num den : Nat) : Nat × Nat :=
  if 0 ≤ power then (num * Nat.pow base power.toNat, den) else (num, den * Nat.pow base (-power).toNat)

namespace Double

def leastExponent : Int := -1074

def greatestExponent : Int := 971

/-- The least mantissa of fifty-three bits. -/
def leastMantissa : Nat := 0x10000000000000

def zero : Double := ⟨0, leastExponent⟩

def isZero (x : Double) : Bool := x.mantissa = 0

/-- What rounding makes of a quotient may lie beyond the greatest finite double. -/
def isFinite (x : Double) : Bool := x.exponent ≤ greatestExponent

/-- The exponent of the doubles around a positive quotient. -/
def exponentOf (num den : Nat) : Int :=
  let guess := (num.log2 : Int) - den.log2
  let (n, d) := scale 2 (-guess) num den
  max ((if d ≤ n then guess else guess - 1) - 52) leastExponent

/-- The double nearest to a quotient. -/
def nearest (num den : Nat) : Double :=
  if num = 0 then zero
  else
    let exponent := exponentOf num den
    let (n, d) := scale 2 (-exponent) num den
    let mantissa := roundToEven n d
    if mantissa = 2 * leastMantissa then ⟨leastMantissa, exponent + 1⟩ else ⟨mantissa, exponent⟩

def ofNat (n : Nat) : Double := nearest n 1

/-- The double nearest to a power of ten. -/
def tenTo (power : Nat) : Double := ofNat (Nat.pow 10 power)

def times (x y : Double) : Double :=
  let (n, d) := scale 2 (x.exponent + y.exponent) (x.mantissa * y.mantissa) 1
  nearest n d

def dividedBy (x y : Double) : Double :=
  let (n, d) := scale 2 (x.exponent - y.exponent) x.mantissa y.mantissa
  nearest n d

/-- The greatest power of ten below the greatest finite double. -/
def maxTenTo : Nat := 308

/-- Move the decimal point of a double: multiply or divide it by the double nearest to a power of
ten, and round. A power out of the doubles' range is taken in steps when it divides, and is too large
when it multiplies anything but zero. Nothing comes out of a result that is not finite. -/
def shift? (x : Double) (power : Int) : Option Double :=
  if 0 ≤ power then
    if power ≤ maxTenTo then
      let y := x.times (tenTo power.toNat)
      if y.isFinite then some y else none
    else if x.isZero then some zero
    else none
  else if -maxTenTo ≤ power then some (x.dividedBy (tenTo (-power).toNat))
  else if x.isZero then some zero
  else shift? (x.dividedBy (tenTo maxTenTo)) (power + maxTenTo)
termination_by (-power).toNat
decreasing_by simp only [maxTenTo] at *; omega

end Double

end ForkTree
