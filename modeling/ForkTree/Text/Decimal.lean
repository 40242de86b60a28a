/-!
Numbers in decimal digits, without superfluous zeros.
-/

namespace ForkTree.Text

def decimal (n : Nat) : String := String.ofList (Nat.toDigits 10 n)

/-- The number that a row of decimal digits writes, most significant first. -/
def decimalValue (digits : List Char) : Nat :=
  digits.foldl (fun n c => 10 * n + (c.toNat - '0'.toNat)) 0

end ForkTree.Text
