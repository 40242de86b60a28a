import ForkTree.Bytes

/-!
Hexadecimal text. Bytes are written as two lower-case digits each and digits of either case are
read back; `digitValue?_digit` ties the two.
-/

namespace ForkTree.Text.Hex

/-- The lower-case digit of a number below sixteen. -/
def digit (n : Nat) : Char := Nat.digitChar n

/-- The value of a hexadecimal digit of either case. -/
def digitValue? (c : Char) : Option Nat :=
  if '0' ≤ c ∧ c ≤ '9' then some (c.toNat - 48)
  else if 'a' ≤ c ∧ c ≤ 'f' then some (c.toNat - 87)
  else if 'A' ≤ c ∧ c ≤ 'F' then some (c.toNat - 55)
  else none

/-- The number that a row of digits writes, most significant first. -/
def valueOf? (cs : List Char) : Option Nat :=
  cs.foldlM (fun n c => (16 * n + ·) <$> digitValue? c) 0

/-- Two digits a byte. -/
def encode (b : Bytes) : String :=
  String.ofList (b.flatMap fun x => [digit (x.toNat / 16), digit (x.toNat % 16)])

/-- The bytes that pairs of digits write. -/
def decodeChars? : List Char → Option Bytes
  | [] => some []
  | [_] => none
  | high :: low :: rest => do
    let h ← digitValue? high
    let l ← digitValue? low
    let tail ← decodeChars? rest
    return UInt8.ofNat (16 * h + l) :: tail

def decode? (s : String) : Option Bytes := decodeChars? s.toList

theorem digitValue?_digit : ∀ n < 16, digitValue? (digit n) = some n := by decide

end ForkTree.Text.Hex
