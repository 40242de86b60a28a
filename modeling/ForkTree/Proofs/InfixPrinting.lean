import ForkTree.Constraint.Expr
import Mathlib.Tactic.Lemma

/-!
The infix form and the layouts of an expression. A text is a layout of exactly the words among its tokens
(`layout_iff`), and the evaluation looks at nothing but these words, from the last to the first
(`Layout.toInfix_eq`). After the words of an expression its infix form is on top of the stack, with what
was there before below it (`Expr.run_words`).
-/

namespace ForkTree.Constraint

/-- The word that a token is, if it is no parenthesis. -/
def Token.word? : Token → Option String
  | .word s => some s
  | _ => none

def wordsOf (ts : List Token) : List String := ts.filterMap Token.word?

@[simp]
lemma wordsOf_nil : wordsOf [] = [] := rfl

@[simp]
lemma wordsOf_word (s : String) (ts : List Token) : wordsOf (.word s :: ts) = s :: wordsOf ts := rfl

@[simp]
lemma wordsOf_append (ts us : List Token) : wordsOf (ts ++ us) = wordsOf ts ++ wordsOf us :=
  List.filterMap_append

@[simp]
lemma wordsOf_reverse (ts : List Token) : wordsOf ts.reverse = (wordsOf ts).reverse :=
  List.filterMap_reverse

lemma wordsOf_ofParen? {c : Char} {t : Token} (h : Token.ofParen? c = some t) (ts : List Token) :
    wordsOf (t :: ts) = wordsOf ts := by
  unfold Token.ofParen? at h
  split at h
  · cases h
    rfl
  · split at h
    · cases h
      rfl
    · cases h

namespace Token

variable {c : Char}

@[simp]
lemma flush_nil (out : List Token) : flush [] out = out := rfl

lemma flush_word {w : String} (h : w ≠ "") (out : List Token) :
    flush w.toList.reverse out = .word w :: out := by
  have hne : w.toList ≠ [] := fun e => h (String.toList_eq_nil_iff.1 e)
  simp [flush, hne]

lemma scan_solid (hc : isSeparator c = false) (held : List Char) (out : List Token) (rest : List Char) :
    scan held out (c :: rest) = scan (c :: held) out rest := by
  rw [isSeparator, Bool.or_eq_false_iff, Option.isSome_eq_false_iff, Option.isNone_iff_eq_none] at hc
  simp [scan, hc.1, hc.2]

/-- A separator ends the word before it and adds no word. -/
lemma exists_scan_separator (hc : isSeparator c = true) (held : List Char) (out : List Token) :
    ∃ out', (∀ rest, scan held out (c :: rest) = scan [] out' rest) ∧
      wordsOf out' = wordsOf (flush held out) := by
  cases hparen : ofParen? c with
  | some paren =>
    refine ⟨paren :: flush held out, fun rest => ?_, wordsOf_ofParen? hparen _⟩
    simp [scan, hparen]
  | none =>
    refine ⟨flush held out, fun rest => ?_, rfl⟩
    rw [isSeparator, hparen, Option.isSome_none, Bool.or_false] at hc
    simp [scan, hparen, hc]

/-- The words of a text are the ones found so far and the ones of the rest. -/
lemma wordsOf_scan (held : List Char) (out : List Token) (cs : List Char) :
    wordsOf (scan held out cs) = (wordsOf out).reverse ++ wordsOf (scan held [] cs) := by
  induction cs generalizing held out with
  | nil =>
    cases held with
    | nil => simp [scan]
    | cons c held => simp [scan, flush]
  | cons c rest ih =>
    cases hc : isSeparator c with
    | false => rw [scan_solid hc, scan_solid hc, ih]
    | true =>
      obtain ⟨out₁, heq₁, hwords₁⟩ := exists_scan_separator hc held out
      obtain ⟨out₂, heq₂, hwords₂⟩ := exists_scan_separator hc held []
      rw [heq₁, heq₂, ih, ih [] out₂, hwords₁, hwords₂]
      cases held <;> simp [flush]

end Token

section Layouts

variable {ws : List String} {cs : List Char} {c : Char}

/-- The words of a text after the characters `held` of a word. -/
def wordsAfter (held cs : List Char) : List String := wordsOf (Token.scan held [] cs)

lemma wordsAfter_solid (hc : isSeparator c = false) (held cs : List Char) :
    wordsAfter held (c :: cs) = wordsAfter (c :: held) cs :=
  congrArg wordsOf (Token.scan_solid hc held [] cs)

lemma wordsAfter_separator (hc : isSeparator c = true) (held cs : List Char) :
    wordsAfter held (c :: cs) = wordsOf (Token.flush held []) ++ wordsAfter [] cs := by
  obtain ⟨out, heq, hwords⟩ := Token.exists_scan_separator hc held []
  rw [wordsAfter, heq, Token.wordsOf_scan, hwords, wordsAfter]
  cases held <;> simp [Token.flush]

lemma wordsAfter_gap {gap : List Char} (h : ∀ c ∈ gap, isSeparator c) (cs : List Char) :
    wordsAfter [] (gap ++ cs) = wordsAfter [] cs := by
  induction gap with
  | nil => rfl
  | cons c gap ih =>
    obtain ⟨hc, hgap⟩ := List.forall_mem_cons.1 h
    rw [List.cons_append, wordsAfter_separator hc, ih hgap, Token.flush_nil, wordsOf_nil, List.nil_append]

lemma wordsAfter_append {w : List Char} (h : ∀ c ∈ w, !isSeparator c) (held cs : List Char) :
    wordsAfter held (w ++ cs) = wordsAfter (w.reverse ++ held) cs := by
  induction w generalizing held with
  | nil => rfl
  | cons c w ih =>
    obtain ⟨hc, hw⟩ := List.forall_mem_cons.1 h
    rw [Bool.not_eq_true'] at hc
    rw [List.cons_append, wordsAfter_solid hc, ih hw, List.reverse_cons, List.append_assoc,
      List.singleton_append]

/-- A word ends where the text ends or a separator follows. -/
lemma wordsAfter_word {w : String} (hw : w ≠ "") (h : ∀ c ∈ cs.head?, isSeparator c) :
    wordsAfter w.toList.reverse cs = w :: wordsAfter [] cs := by
  cases cs with
  | nil => simp [wordsAfter, Token.scan, Token.flush_word hw]
  | cons c cs =>
    have hc : isSeparator c = true := h c rfl
    rw [wordsAfter_separator hc, wordsAfter_separator hc, Token.flush_word hw]
    simp

lemma Layout.wordsAfter_eq (h : Layout ws cs) : wordsAfter [] cs = ws := by
  induction h with
  | @done gap separators =>
    have hgap := wordsAfter_gap separators []
    rwa [List.append_nil] at hgap
  | word separators nonempty solid ended _ ih =>
    rw [List.append_assoc, wordsAfter_gap separators, wordsAfter_append solid, List.append_nil,
      wordsAfter_word nonempty ended, ih]

lemma Layout.separator (h : Layout ws cs) (hc : isSeparator c = true) : Layout ws (c :: cs) := by
  cases h with
  | done separators => exact .done (List.forall_mem_cons.2 ⟨hc, separators⟩)
  | word separators nonempty solid ended later =>
    exact .word (List.forall_mem_cons.2 ⟨hc, separators⟩) nonempty solid ended later

lemma Layout.first {w : List Char} (hne : w ≠ []) (solid : ∀ c ∈ w, !isSeparator c)
    (ended : ∀ c ∈ cs.head?, isSeparator c) (h : Layout ws cs) :
    Layout (String.ofList w :: ws) (w ++ cs) := by
  have hword : Layout (String.ofList w :: ws) ([] ++ (String.ofList w).toList ++ cs) := by
    refine .word (by simp) (fun e => hne ?_) (by simpa using solid) ended h
    rw [← String.toList_ofList (l := w), e]
    rfl
  simpa using hword

lemma layout_wordsAfter (held cs : List Char) (solid : ∀ c ∈ held, !isSeparator c) :
    Layout (wordsAfter held cs) (held.reverse ++ cs) := by
  have solid' : ∀ c ∈ held.reverse, !isSeparator c := fun c hc => solid c (List.mem_reverse.1 hc)
  induction cs generalizing held with
  | nil =>
    cases held with
    | nil => exact .done (by simp)
    | cons c held => exact Layout.first (by simp) solid' (by simp) (.done (by simp))
  | cons c cs ih =>
    cases hc : isSeparator c with
    | false =>
      have hheld : ∀ d ∈ c :: held, !isSeparator d :=
        List.forall_mem_cons.2 ⟨by rw [hc]; rfl, solid⟩
      have h := ih (c :: held) hheld fun d hd => hheld d (List.mem_reverse.1 hd)
      rw [List.reverse_cons, List.append_assoc, List.singleton_append] at h
      rwa [wordsAfter_solid hc]
    | true =>
      have hlater : Layout (wordsAfter [] cs) (c :: cs) := (ih [] (by simp) (by simp)).separator hc
      rw [wordsAfter_separator hc]
      cases held with
      | nil => exact hlater
      | cons d held => exact Layout.first (by simp) solid' (by simpa using hc) hlater

/-- A text is a layout of the words among its tokens, and of no others. -/
theorem layout_iff {text : String} : Layout ws text.toList ↔ wordsOf (tokens text) = ws := by
  constructor
  · exact fun h => h.wordsAfter_eq
  · intro h
    have hlayout := layout_wordsAfter [] text.toList (by simp)
    rwa [wordsAfter, ← tokens, h] at hlayout

lemma Layout.solid (h : Layout ws cs) {w : String} (hw : w ∈ ws) :
    w ≠ "" ∧ ∀ c ∈ w.toList, !isSeparator c := by
  induction h with
  | done => cases hw
  | word _ nonempty solid _ _ ih =>
    rcases List.mem_cons.1 hw with rfl | hw
    · exact ⟨nonempty, solid⟩
    · exact ih hw

end Layouts

/-! ### The evaluation -/

namespace Evaluation

/-- Parentheses do not matter. -/
lemma run_eq (e : Evaluation) (ts : List Token) : e.run ts = e.run ((wordsOf ts).map .word) := by
  induction ts generalizing e with
  | nil => rfl
  | cons t ts ih =>
    cases t with
    | opening => exact ih e
    | closing => exact ih e
    | word s =>
      rw [wordsOf_word, List.map_cons, run, run]
      cases e.take (.word s) with
      | none => rfl
      | some e => exact ih e

lemma run_word {e e' : Evaluation} {s : String} (h : e.obey (.ofWord s) = some e') (ws : List String) :
    e.run ((s :: ws).map .word) = e'.run (ws.map .word) := by
  have htake : e.take (.word s) = some e' := h
  rw [List.map_cons, run, htake]

end Evaluation

/-- The words of an expression leave its infix form on top of the stack. -/
lemma Expr.run_words {e : Expr} (hnames : e.WellNamed) (stack : List String) (ws : List String) :
    Evaluation.run ⟨stack, false⟩ ((e.words.reverse ++ ws).map .word) =
      Evaluation.run ⟨e.shown :: stack, false⟩ (ws.map .word) := by
  induction e generalizing stack ws with
  | atom s =>
    have h : Command.ofWord s = .push s := hnames
    exact Evaluation.run_word (by rw [h]; rfl) ws
  | apply name op left right ihl ihr =>
    obtain ⟨h, hleft, hright⟩ := hnames
    rw [words, List.reverse_cons, List.reverse_append, List.append_assoc, List.append_assoc, ihr hright,
      ihl hleft]
    refine Evaluation.run_word ?_ ws
    rw [h]
    simp [Evaluation.obey, shown]
  | complement operand ih =>
    rw [words, List.reverse_cons, List.append_assoc, ih hnames]
    exact Evaluation.run_word rfl ws
  | read name width index array ihw ihi iha =>
    obtain ⟨h, hwidth, hindex, harray⟩ := hnames
    rw [words, List.reverse_cons, List.reverse_append, List.reverse_append, List.append_assoc,
      List.append_assoc, List.append_assoc, iha harray, ihi hindex, ihw hwidth]
    refine Evaluation.run_word ?_ ws
    rw [h]
    rfl

/-- The infix form of a text depends on its words alone. -/
lemma Layout.toInfix_eq {ws : List String} {text : String} (h : Layout ws text.toList) :
    toInfix text = (Evaluation.run ⟨[], false⟩ (ws.reverse.map .word)).result := by
  rw [toInfix, Evaluation.run_eq, wordsOf_reverse, layout_iff.1 h]

lemma Expr.toInfix_layout {e : Expr} (hnames : e.WellNamed) {text : String}
    (h : Layout e.words text.toList) : toInfix text = e.shown := by
  have hrun := run_words hnames [] []
  rw [List.append_nil] at hrun
  rw [h.toInfix_eq, hrun]
  rfl

end ForkTree.Constraint
