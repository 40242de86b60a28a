import ForkTree.Double.Basic

/-!
The shortest decimal that a double is nearest to. The decimal grids are tried from the coarsest on:
the first grid with a point in the double's interval gives the digits, and of two points on it the
nearer one, or the even one if both are equally near.
-/

namespace ForkTree.Double

/-- Whether the quotient rounds to the double. In units of a quarter of its last bit the double's
interval ends two units above it, and two below, or one where the doubles below lie closer. -/
def isNearest (x : Double) (num den : Nat) : Bool :=
  let (n, d) := scale 2 (2 - x.exponent) num den
  let below := if x.mantissa = leastMantissa ∧ leastExponent < x.exponent then 1 else 2
  let low := (4 * x.mantissa - below) * d
  let high := (4 * x.mantissa + 2) * d
  if x.mantissa % 2 = 0 then low ≤ n && n ≤ high else low < n && n < high

/-- The decimal exponent below the first digit: the power `k` with `10 ^ k ≤ x < 10 ^ (k + 1)`. It is
looked for upwards from `start`, which must not exceed it; `fuel` bounds the search. -/
def leadingPower (num den : Nat) : (fuel : Nat) → (start : Int) → Int
  | 0, start => start
  | fuel + 1, start =>
    let (n, d) := scale 10 (-(start + 1)) num den
    if d ≤ n then leadingPower num den fuel (start + 1) else start

/-- The shortest decimal near the double, as digits and an exponent, on a grid with `done` digits or
on a finer one. -/
def search (x : Double) (num den : Nat) (leading : Int) : (fuel : Nat) → (done : Nat) → Nat × Int
  | 0, done =>
    let power := leading + 1 - done
    let (n, d) := scale 10 (-power) num den
    (roundToEven n d, power)
  | fuel + 1, done =>
    let power := leading + 1 - done
    let (n, d) := scale 10 (-power) num den
    let hit := fun digits : Nat =>
      let (n, d) := scale 10 power digits 1
      x.isNearest n d
    let first := roundToEven n d
    let second := if first = n / d then first + 1 else n / d
    if hit first then (first, power)
    else if hit second then (second, power)
    else search x num den leading fuel (done + 1)

/-- The digits and the exponent of the shortest decimal that rounds to a double other than zero.
Seventeen digits are always enough. The search starts below the power that the logarithm of two,
0.30103, gives. A single digit may have been rounded up to ten. -/
def shortest (x : Double) : Nat × Int :=
  let (num, den) := scale 2 x.exponent x.mantissa 1
  let start : Int := ((x.mantissa.log2 : Int) + x.exponent) * 30103 / 100000 - 2
  let (digits, power) := search x num den (leadingPower num den 4 start) 16 1
  if digits % 10 = 0 then (digits / 10, power + 1) else (digits, power)

end ForkTree.Double
