import ForkTree.Constraint.Operator
import ForkTree.Constraint.Token

/-!
Constraints in infix form, for display. The tokens of the prefix form are taken from right to left
and operands are kept on a stack, so that the top of the stack is the leftmost operand of the
operator that is taken next. The word `false` is no operand: it negates the next `Eq`, which then
has one operand. A comparison is negated by its complement and anything else by `!(…)`. Where an
operator lacks operands the work stops, and what is on top of the stack is the answer.
-/

namespace ForkTree.Constraint

/-- A character of a comparison's symbol. -/
def isRelational (c : Char) : Bool := c = '<' || c = '>' || c = '=' || c = '!'

/-- The comparison, between blanks, whose leading blank was just taken, with what follows it. -/
def comparisonAt? (s : List Char) : Option (Operator × List Char) :=
  match s.dropWhile isRelational with
  | ' ' :: right =>
    (Operator.ofSymbol? (String.ofList (s.takeWhile isRelational))).map (·, right)
  | _ => none

/-- The text around its rightmost comparison. -/
def splitLast? : List Char → Option (List Char × Operator × List Char)
  | [] => none
  | c :: rest =>
    match splitLast? rest with
    | some (left, op, right) => some (c :: left, op, right)
    | none =>
      if c = ' ' then (comparisonAt? rest).map fun (op, right) => ([], op, right)
      else none

/-- The text around its rightmost comparison; a blank at the very start does not count. -/
def splitRelation? : List Char → Option (List Char × Operator × List Char)
  | [] => none
  | c :: rest => (splitLast? rest).map fun (left, op, right) => (c :: left, op, right)

/-- The negation of an expression in infix form. -/
def negate (s : String) : String :=
  match splitRelation? s.toList with
  | some (left, op, right) =>
    match op.complement? with
    | some op => op.write (String.ofList left) (String.ofList right)
    | none => "!(" ++ s ++ ")"
  | none => "!(" ++ s ++ ")"

/-! ### The evaluation -/

/-- What a word of the prefix form asks for. -/
inductive Command where
  | negateNext
  /-- Of a width, an index and an array, keep the array. -/
  | read
  | complement
  | apply (op : Operator)
  | push (s : String)
  deriving DecidableEq, Repr, Inhabited

def Command.ofWord (s : String) : Command :=
  if s = "false" then .negateNext
  else if s = "ReadLSB" ∨ s = "ReadMSB" ∨ s = "Read" then .read
  else if s = "Not" then .complement
  else
    match Operator.ofName? s with
    | some op => .apply op
    | none => .push s

structure Evaluation where
  /-- The operands, the leftmost on top. -/
  stack : List String
  /-- Whether the next `Eq` is to be negated. -/
  negates : Bool
  deriving DecidableEq, Repr, Inhabited

namespace Evaluation

/-- Obey a command; `none` where operands are missing. -/
def obey (e : Evaluation) : Command → Option Evaluation
  | .negateNext => some { e with negates := true }
  | .push s => some { e with stack := s :: e.stack }
  | .read =>
    match e.stack with
    | _ :: _ :: array :: rest => some { e with stack := array :: rest }
    | _ => none
  | .complement =>
    match e.stack with
    | operand :: rest => some { e with stack := ("~(" ++ operand ++ ")") :: rest }
    | [] => none
  | .apply op =>
    if op = .eq ∧ e.negates then
      match e.stack with
      | operand :: rest => some ⟨negate operand :: rest, false⟩
      | [] => none
    else
      match e.stack with
      | left :: right :: rest => some { e with stack := op.write left right :: rest }
      | _ => none

def take (e : Evaluation) : Token → Option Evaluation
  | .word s => e.obey (.ofWord s)
  | _ => some e

/-- Take tokens until one of them gets stuck. -/
def run (e : Evaluation) : List Token → Evaluation
  | [] => e
  | t :: rest =>
    match e.take t with
    | some e => e.run rest
    | none => e

def result (e : Evaluation) : String := e.stack.headD ""

end Evaluation

def toInfix (s : String) : String :=
  (Evaluation.run ⟨[], false⟩ (tokens s).reverse).result

end ForkTree.Constraint
