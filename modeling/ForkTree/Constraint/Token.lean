import ForkTree.Text.Blank

/-!
The tokens of a constraint in prefix form, such as `(Eq false (Slt x 5))`: parentheses, and words
that blanks and parentheses separate. `normalize` prepares a constraint for display: it deletes
line feeds and shortens each run of blanks to its first one.
-/

namespace ForkTree.Constraint

inductive Token where
  | opening
  | closing
  | word (s : String)
  deriving DecidableEq, Repr, Inhabited

namespace Token

def ofParen? (c : Char) : Option Token :=
  if c = '(' then some .opening
  else if c = ')' then some .closing
  else none

/-- The word held in reverse, if any, in front of the tokens found so far, in reverse as well. -/
def flush (held : List Char) (out : List Token) : List Token :=
  if held.isEmpty then out else .word (String.ofList held.reverse) :: out

/-- The tokens of the rest of a text after the characters `held` of a word. -/
def scan (held : List Char) (out : List Token) : List Char → List Token
  | [] => (flush held out).reverse
  | c :: rest =>
    match ofParen? c with
    | some paren => scan [] (paren :: flush held out) rest
    | none =>
      if Text.isBlank c then scan [] (flush held out) rest
      else scan (c :: held) out rest

end Token

def tokens (s : String) : List Token := Token.scan [] [] s.toList

/-- Each run of blanks shortened to its first; `afterBlank` tells that a run is going on. -/
def collapse (afterBlank : Bool) : List Char → List Char
  | [] => []
  | c :: rest =>
    if Text.isBlank c then
      if afterBlank then collapse true rest else c :: collapse true rest
    else c :: collapse false rest

/-- The text without line feeds and with single blanks. -/
def normalize (s : String) : String :=
  String.ofList (collapse false (s.toList.filter (· ≠ '\n')))

end ForkTree.Constraint
