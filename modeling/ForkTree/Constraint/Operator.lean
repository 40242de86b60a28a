/-!
The operators of constraints. In prefix form an operator is written by name, signed and unsigned
variants apart; in infix form both variants share a symbol. Bitwise operators and shifts are written
in parentheses. Each comparison has a complement, which holds exactly where the comparison fails.
-/

namespace ForkTree.Constraint

inductive Operator where
  | eq | ne | lt | le | gt | ge
  | add | sub | mul | div | rem
  | and | or | xor | shl | shr
  deriving DecidableEq, Repr, Inhabited

namespace Operator

def ofName? : String → Option Operator
  | "Eq" => some .eq
  | "Ne" => some .ne
  | "Slt" | "Ult" => some .lt
  | "Sle" | "Ule" => some .le
  | "Sgt" | "Ugt" => some .gt
  | "Sge" | "Uge" => some .ge
  | "Add" => some .add
  | "Sub" => some .sub
  | "Mul" => some .mul
  | "UDiv" | "SDiv" => some .div
  | "URem" | "SRem" => some .rem
  | "And" => some .and
  | "Or" => some .or
  | "Xor" => some .xor
  | "Shl" => some .shl
  | "LShr" | "AShr" => some .shr
  | _ => none

def symbol : Operator → String
  | .eq => "=="
  | .ne => "!="
  | .lt => "<"
  | .le => "<="
  | .gt => ">"
  | .ge => ">="
  | .add => "+"
  | .sub => "-"
  | .mul => "*"
  | .div => "/"
  | .rem => "%"
  | .and => "&"
  | .or => "|"
  | .xor => "^"
  | .shl => "<<"
  | .shr => ">>"

/-- Written in parentheses. -/
def isGrouped : Operator → Bool
  | .and | .or | .xor | .shl | .shr => true
  | _ => false

def complement? : Operator → Option Operator
  | .eq => some .ne
  | .ne => some .eq
  | .lt => some .ge
  | .ge => some .lt
  | .gt => some .le
  | .le => some .gt
  | _ => none

def ofSymbol? (symbol : String) : Option Operator :=
  [Operator.eq, .ne, .lt, .le, .gt, .ge].find? fun op => op.symbol = symbol

/-- The operator between its operands. -/
def write (op : Operator) (left right : String) : String :=
  let body := left ++ " " ++ op.symbol ++ " " ++ right
  if op.isGrouped then "(" ++ body ++ ")" else body

end Operator

end ForkTree.Constraint
