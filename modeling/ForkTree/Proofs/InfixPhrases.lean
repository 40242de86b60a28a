import ForkTree.Proofs.InfixPrinting

/-!
The infix form by recursion. A phrase is a constraint in prefix form whose names are taken from tables of
their own, so it can be printed without knowing how words are obeyed: operators go between their operands,
some with parentheses around, and of a read only the array is kept. The tables agree with what the words ask
for (`describe?_of_plain`, `describe?_of_grouped`, `ofWord_of_read`, `ofWord_of_free`), hence each phrase is
an expression with the same words and the same infix form (`Phrase.exists_expr`). The main result is
`toInfix_phrase`: whatever blanks and parentheses stand between the words, the infix form is the one that
is printed.
-/

namespace ForkTree.Constraint

/-- The operators that are written between their operands, by name, with their symbols. -/
def plainNames : List (String × String) :=
  [("Eq", "=="), ("Ne", "!="), ("Slt", "<"), ("Ult", "<"), ("Sle", "<="), ("Ule", "<="), ("Sgt", ">"),
    ("Ugt", ">"), ("Sge", ">="), ("Uge", ">="), ("Add", "+"), ("Sub", "-"), ("Mul", "*"), ("UDiv", "/"),
    ("SDiv", "/"), ("URem", "%"), ("SRem", "%")]

/-- The operators that are written with parentheses around. -/
def groupedNames : List (String × String) :=
  [("And", "&"), ("Or", "|"), ("Xor", "^"), ("Shl", "<<"), ("LShr", ">>"), ("AShr", ">>")]

def readNames : List String := ["ReadLSB", "ReadMSB", "Read"]

/-- The words that are no atoms. -/
def reserved : List String :=
  "false" :: "Not" :: (readNames ++ (plainNames ++ groupedNames).map Prod.fst)

/-- A constraint in prefix form without negated comparisons. -/
inductive Phrase where
  | atom (word : String) (free : word ∉ reserved)
  | plain (name symbol : String) (known : (name, symbol) ∈ plainNames) (left right : Phrase)
  | grouped (name symbol : String) (known : (name, symbol) ∈ groupedNames) (left right : Phrase)
  | complement (operand : Phrase)
  | read (name : String) (known : name ∈ readNames) (width index array : Phrase)

namespace Phrase

def words : Phrase → List String
  | atom word _ => [word]
  | plain name _ _ left right => name :: (left.words ++ right.words)
  | grouped name _ _ left right => name :: (left.words ++ right.words)
  | complement operand => "Not" :: operand.words
  | read name _ width index array => name :: (width.words ++ index.words ++ array.words)

/-- The infix form. -/
def printed : Phrase → String
  | atom word _ => word
  | plain _ symbol _ left right => left.printed ++ " " ++ symbol ++ " " ++ right.printed
  | grouped _ symbol _ left right => "(" ++ left.printed ++ " " ++ symbol ++ " " ++ right.printed ++ ")"
  | complement operand => "~(" ++ operand.printed ++ ")"
  | read _ _ _ _ array => array.printed

end Phrase

lemma ofWord_of_free {word : String} (free : word ∉ reserved) : Command.ofWord word = .push word := by
  have hname : Operator.ofName? word = none := by
    unfold Operator.ofName?
    split <;> first | rfl | exact absurd (by decide) free
  simp only [reserved, readNames, List.mem_cons, List.mem_append, List.not_mem_nil, not_or] at free
  obtain ⟨hfalse, hnot, ⟨hlsb, hmsb, hread, _⟩, _⟩ := free
  simp only [Command.ofWord, hfalse, hnot, hlsb, hmsb, hread, hname, if_false, or_self]

/-- The operator of a name, with its symbol, and whether it is written in parentheses. -/
def Operator.describe? (name : String) : Option (String × Bool) :=
  match Command.ofWord name with
  | .apply op => some (op.symbol, op.isGrouped)
  | _ => none

lemma exists_operator {name symbol : String} {isGrouped : Bool}
    (h : Operator.describe? name = some (symbol, isGrouped)) :
    ∃ op, Command.ofWord name = .apply op ∧ op.symbol = symbol ∧ op.isGrouped = isGrouped := by
  unfold Operator.describe? at h
  split at h
  · next op hop =>
    cases h
    exact ⟨op, hop, rfl, rfl⟩
  · cases h

lemma describe?_of_plain {name symbol : String} (known : (name, symbol) ∈ plainNames) :
    Operator.describe? name = some (symbol, false) := by
  have hall : ∀ entry ∈ plainNames, Operator.describe? entry.1 = some (entry.2, false) := by decide +kernel
  exact hall _ known

lemma describe?_of_grouped {name symbol : String} (known : (name, symbol) ∈ groupedNames) :
    Operator.describe? name = some (symbol, true) := by
  have hall : ∀ entry ∈ groupedNames, Operator.describe? entry.1 = some (entry.2, true) := by
    decide +kernel
  exact hall _ known

lemma ofWord_of_read {name : String} (known : name ∈ readNames) : Command.ofWord name = .read := by
  have hall : ∀ name ∈ readNames, Command.ofWord name = .read := by decide +kernel
  exact hall name known

lemma Phrase.exists_expr (p : Phrase) :
    ∃ e : Expr, e.WellNamed ∧ e.words = p.words ∧ e.shown = p.printed := by
  induction p with
  | atom word free => exact ⟨.atom word, ofWord_of_free free, rfl, rfl⟩
  | plain name symbol known left right ihl ihr =>
    obtain ⟨op, hop, rfl, hgrouped⟩ := exists_operator (describe?_of_plain known)
    obtain ⟨l, hl, hlwords, hlshown⟩ := ihl
    obtain ⟨r, hr, hrwords, hrshown⟩ := ihr
    refine ⟨.apply name op l r, ⟨hop, hl, hr⟩, ?_, ?_⟩
    · rw [Expr.words, hlwords, hrwords, words]
    · simp only [Expr.shown, Operator.write, hgrouped, hlshown, hrshown, printed, Bool.false_eq_true,
        if_false]
  | grouped name symbol known left right ihl ihr =>
    obtain ⟨op, hop, rfl, hgrouped⟩ := exists_operator (describe?_of_grouped known)
    obtain ⟨l, hl, hlwords, hlshown⟩ := ihl
    obtain ⟨r, hr, hrwords, hrshown⟩ := ihr
    refine ⟨.apply name op l r, ⟨hop, hl, hr⟩, ?_, ?_⟩
    · rw [Expr.words, hlwords, hrwords, words]
    · simp only [Expr.shown, Operator.write, hgrouped, hlshown, hrshown, printed, if_true,
        String.append_assoc]
  | complement operand ih =>
    obtain ⟨e, he, hwords, hshown⟩ := ih
    refine ⟨.complement e, he, ?_, ?_⟩
    · rw [Expr.words, hwords, words]
    · rw [Expr.shown, hshown, printed]
  | read name known width index array ihw ihi iha =>
    obtain ⟨w, hw, hwwords, _⟩ := ihw
    obtain ⟨i, hi, hiwords, _⟩ := ihi
    obtain ⟨a, ha, hawords, hashown⟩ := iha
    refine ⟨.read name w i a, ⟨ofWord_of_read known, hw, hi, ha⟩, ?_, ?_⟩
    · rw [Expr.words, hwwords, hiwords, hawords, words]
    · rw [Expr.shown, hashown, printed]

/-- In every layout the infix form of a phrase is the one that is printed by recursion. -/
theorem toInfix_phrase (p : Phrase) {text : String} (h : Layout p.words text.toList) :
    toInfix text = p.printed := by
  obtain ⟨e, hnames, hwords, hshown⟩ := p.exists_expr
  rw [← hwords] at h
  rw [Expr.toInfix_layout hnames h, hshown]

/-- A read in a comparison in a conjunction, with blanks of several kinds and parentheses at odd places. -/
theorem toInfix_phrase_of_odd_layout :
    let width : Phrase := .atom "w32" (by decide)
    let read : Phrase := .read "ReadMSB" (by decide) width (.atom "0" (by decide)) (.atom "y" (by decide))
    let p : Phrase := .grouped "And" "&" (by decide)
      (.plain "Ule" "<=" (by decide) (.complement read) (.atom "5" (by decide)))
      (.grouped "Shl" "<<" (by decide) (.atom "x" (by decide)) (.atom "1" (by decide)))
    let text := "And((Ule\u2003Not ReadMSB w32\n\t0(y\u00a0)5)Shl)x(1"
    Layout p.words text.toList ∧ toInfix text = "(~(y) <= 5 & (x << 1))" := by
  intro width read p text
  have h : Layout p.words text.toList := layout_iff.2 (by decide +kernel)
  exact ⟨h, toInfix_phrase p h⟩

end ForkTree.Constraint
