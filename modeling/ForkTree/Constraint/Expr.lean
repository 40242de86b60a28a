import ForkTree.Constraint.Infix

/-!
Constraints as expression trees. An expression has a prefix form, the row of its words, and an infix
form, by recursion; `negated` is the infix form of its negation. `Layout` says which texts write a row
of words: between words and around them there may be any blanks and parentheses.
-/

namespace ForkTree.Constraint

/-- A constraint without negation. Names are those of the prefix form. -/
inductive Expr where
  | atom (s : String)
  | apply (name : String) (op : Operator) (left right : Expr)
  | complement (operand : Expr)
  | read (name : String) (width index array : Expr)
  deriving DecidableEq, Repr, Inhabited

namespace Expr

/-- The names stand for what the expression says, and an atom's for nothing but itself. -/
def WellNamed : Expr → Prop
  | atom s => Command.ofWord s = .push s
  | apply name op left right => Command.ofWord name = .apply op ∧ left.WellNamed ∧ right.WellNamed
  | complement operand => operand.WellNamed
  | read name width index array =>
    Command.ofWord name = .read ∧ width.WellNamed ∧ index.WellNamed ∧ array.WellNamed

/-- The prefix form. -/
def words : Expr → List String
  | atom s => [s]
  | apply name _ left right => name :: (left.words ++ right.words)
  | complement operand => "Not" :: operand.words
  | read name width index array => name :: (width.words ++ index.words ++ array.words)

/-- The infix form. -/
def shown : Expr → String
  | atom s => s
  | apply _ op left right => op.write left.shown right.shown
  | complement operand => "~(" ++ operand.shown ++ ")"
  | read _ _ _ array => array.shown

def hasComparison : Expr → Bool
  | atom _ => false
  | apply _ op left right => op.complement?.isSome || left.hasComparison || right.hasComparison
  | complement operand => operand.hasComparison
  | read _ width index array =>
    width.hasComparison || index.hasComparison || array.hasComparison

/-- The infix form of the negation: of a comparison the complement, with the same operands. -/
def negated : Expr → String
  | apply name op left right =>
    match op.complement? with
    | some op => op.write left.shown right.shown
    | none => "!(" ++ (apply name op left right).shown ++ ")"
  | e => "!(" ++ e.shown ++ ")"

end Expr

/-- A character that ends a word. -/
def isSeparator (c : Char) : Bool := Text.isBlank c || (Token.ofParen? c).isSome

/-- A text in which the given words stand, in order, between separators. -/
inductive Layout : List String → List Char → Prop where
  | done {gap : List Char} (separators : ∀ c ∈ gap, isSeparator c) : Layout [] gap
  | word {gap rest : List Char} {w : String} {ws : List String}
      (separators : ∀ c ∈ gap, isSeparator c) (nonempty : w ≠ "")
      (solid : ∀ c ∈ w.toList, !isSeparator c) (ended : ∀ c ∈ rest.head?, isSeparator c)
      (later : Layout ws rest) : Layout (w :: ws) (gap ++ w.toList ++ rest)

end ForkTree.Constraint
