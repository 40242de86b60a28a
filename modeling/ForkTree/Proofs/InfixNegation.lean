import ForkTree.Proofs.InfixPrinting

/-!
What an expression in infix form turns into when it is negated. The complement goes to the rightmost
comparison in the text, whether it is the expression's own or one inside an operand (`flipLast?`), and
only a text without comparisons gets `!(…)` around it. So the negation is printed as such exactly if no
comparison stands to the right of the expression's own, or none at all if it has no own
(`toInfix_negation`).
-/

namespace ForkTree.Constraint

namespace Expr

/-- The atoms, those that the infix form leaves out as well. -/
def atoms : Expr → List String
  | atom s => [s]
  | apply _ _ left right => left.atoms ++ right.atoms
  | complement operand => operand.atoms
  | read _ width index array => width.atoms ++ index.atoms ++ array.atoms

/-- The complement of a comparison, with the same operands. -/
def flip? : Expr → Option Expr
  | apply name op left right => op.complement?.map (apply name · left right)
  | _ => none

/-- The expression with a complement where the last comparison of its infix form stands. -/
def flipLast? : Expr → Option Expr
  | atom _ => none
  | apply name op left right =>
    (right.flipLast?.map (apply name op left)).or
      ((op.complement?.map (apply name · left right)).or (left.flipLast?.map (apply name op · right)))
  | complement operand => operand.flipLast?.map complement
  | read name width index array => array.flipLast?.map (read name width index)

end Expr

/-- An operator and its right operand, with the blanks before them. -/
def operation (op : Operator) (right : List Char) : List Char := ' ' :: (op.symbol.toList ++ ' ' :: right)

/-- The text with a complement in place of its last comparison. -/
def flipText? (s : List Char) : Option (List Char) :=
  (splitLast? s).bind fun (left, op, right) => op.complement?.map fun op => left ++ operation op right

/-- The text with a complement in place of the comparison whose leading blank was just taken. -/
def flipAt? (s : List Char) : Option (List Char) :=
  (comparisonAt? s).bind fun (op, right) => op.complement?.map fun op => operation op right

section Text

variable {s left right tail : List Char} {op : Operator} {c : Char}

lemma isSome_complement?_of_comparisonAt? (h : comparisonAt? s = some (op, right)) :
    op.complement?.isSome = true := by
  unfold comparisonAt? at h
  split at h
  · obtain ⟨op', hop, heq⟩ := Option.map_eq_some_iff.1 h
    cases heq
    have hmem := List.mem_of_find?_eq_some hop
    revert hmem
    cases op <;> decide
  · cases h

lemma isSome_complement?_of_splitLast? (h : splitLast? s = some (left, op, right)) :
    op.complement?.isSome = true := by
  induction s generalizing left with
  | nil => cases h
  | cons c rest ih =>
    rw [splitLast?] at h
    cases hrest : splitLast? rest with
    | some found =>
      rw [hrest] at h
      cases h
      exact ih hrest
    | none =>
      rw [hrest] at h
      simp only at h
      split at h
      · obtain ⟨found, hfound, heq⟩ := Option.map_eq_some_iff.1 h
        cases heq
        exact isSome_complement?_of_comparisonAt? hfound
      · cases h

lemma flipText?_nil : flipText? [] = none := rfl

lemma flipText?_cons (c : Char) (s : List Char) :
    flipText? (c :: s) = ((flipText? s).map (c :: ·)).or (if c = ' ' then flipAt? s else none) := by
  rw [flipText?, splitLast?, flipText?]
  cases h : splitLast? s with
  | some found =>
    obtain ⟨left, op, right⟩ := found
    obtain ⟨op', hop⟩ := Option.isSome_iff_exists.1 (isSome_complement?_of_splitLast? h)
    simp [hop]
  | none =>
    by_cases hc : c = ' '
    · cases hcomparison : comparisonAt? s <;> simp [hc, flipAt?, hcomparison]
    · simp [hc]

/-- A comparison further to the right goes first. -/
lemma flipText?_append_of_some (h : flipText? tail = some right) (s : List Char) :
    flipText? (s ++ tail) = some (s ++ right) := by
  induction s with
  | nil => exact h
  | cons c s ih =>
    rw [List.cons_append, flipText?_cons, ih, Option.map_some, Option.some_or, List.cons_append]

/-- There is no comparison in what has no blanks. -/
lemma flipText?_append (h : ' ' ∉ s) (tail : List Char) :
    flipText? (s ++ tail) = (flipText? tail).map (s ++ ·) := by
  induction s with
  | nil => simp
  | cons c s ih =>
    rw [List.mem_cons, not_or] at h
    rw [List.cons_append, flipText?_cons, if_neg (Ne.symm h.1), Option.or_none, ih h.2, Option.map_map]
    rfl

lemma comparisonAt?_symbol (op : Operator) (right : List Char) :
    comparisonAt? (op.symbol.toList ++ ' ' :: right) =
      if op.complement?.isSome then some (op, right) else none := by
  cases op <;> rfl

lemma flipAt?_symbol (op : Operator) (right : List Char) :
    flipAt? (op.symbol.toList ++ ' ' :: right) = op.complement?.map fun op => operation op right := by
  rw [flipAt?, comparisonAt?_symbol]
  cases h : op.complement? <;> simp [h]

/-- An operand does not look like a comparison. -/
lemma flipAt?_cons (h : isRelational c = false) (s : List Char) : flipAt? (c :: s) = none := by
  have hnone : Operator.ofSymbol? "" = none := rfl
  have htake : (c :: s).takeWhile isRelational = [] := by rw [List.takeWhile_cons, h]; rfl
  have hcomparison : comparisonAt? (c :: s) = none := by
    unfold comparisonAt?
    rw [htake]
    split
    · exact congrArg (Option.map _) hnone
    · rfl
  rw [flipAt?, hcomparison, Option.bind_none]

lemma flipText?_operation (h : flipAt? right = none) (op : Operator) :
    flipText? (operation op right) =
      ((flipText? right).map (operation op)).or (op.complement?.map fun op => operation op right) := by
  have hsymbol : ' ' ∉ op.symbol.toList := by cases op <;> decide
  rw [operation, flipText?_cons, if_pos rfl, flipText?_append hsymbol, flipText?_cons, if_pos rfl, h,
    Option.or_none, flipAt?_symbol, Option.map_map, Option.map_map]
  rfl

end Text

/-- The operator between its operands, without parentheses. -/
def Operator.between (op : Operator) (left right : String) : String :=
  left ++ " " ++ op.symbol ++ " " ++ right

/-- With a complement for its last comparison the text is the other one, if it has any. That is so with
anything behind it that has no comparison. -/
def Turns (s : String) (turned : Option String) : Prop :=
  ∀ tail, flipText? tail = none → flipText? (s.toList ++ tail) = turned.map (·.toList ++ tail)

/-- The text starts as an operand does, with what is neither blank nor part of a comparison. -/
def Opens (s : String) : Prop := ∃ c ∈ s.toList.head?, isRelational c = false ∧ c ≠ ' '

section Write

variable {op op' : Operator} {s left right : String} {turned turnedLeft turnedRight : Option String}

lemma isGrouped_eq_false (h : op.complement? = some op') :
    op.isGrouped = false ∧ op'.isGrouped = false := by
  cases op <;> cases h <;> exact ⟨rfl, rfl⟩

lemma write_eq (op : Operator) (left right : String) :
    op.write left right =
      if op.isGrouped then "(" ++ op.between left right ++ ")" else op.between left right := rfl

lemma write_eq_between (h : op.isGrouped = false) : op.write = op.between := by
  funext left right
  simp [write_eq, h]

lemma toList_between (op : Operator) (left right : String) (tail : List Char) :
    (op.between left right).toList ++ tail = left.toList ++ operation op (right.toList ++ tail) := by
  simp [Operator.between, operation, String.toList_append]

lemma Opens.flipAt?_append (h : Opens s) (tail : List Char) : flipAt? (s.toList ++ tail) = none := by
  obtain ⟨c, hc, hplain, _⟩ := h
  obtain ⟨rest, hrest⟩ := List.head?_eq_some_iff.1 hc
  rw [hrest, List.cons_append]
  exact flipAt?_cons hplain _

lemma Opens.append (h : Opens left) (right : String) : Opens (left ++ right) := by
  obtain ⟨c, hc, hplain⟩ := h
  obtain ⟨rest, hrest⟩ := List.head?_eq_some_iff.1 hc
  exact ⟨c, by rw [String.toList_append, hrest]; rfl, hplain⟩

lemma Opens.write (h : Opens left) (op : Operator) (right : String) : Opens (op.write left right) := by
  rw [write_eq]
  split
  · exact ⟨'(', by simp [String.toList_append], rfl, by decide⟩
  · exact (((h.append " ").append op.symbol).append " ").append right

lemma turns_of_solid (h : ' ' ∉ s.toList) : Turns s none := by
  intro tail htail
  rw [flipText?_append h, htail]
  rfl

lemma Turns.wrap (h : Turns s turned) {front back : String} (hfront : ' ' ∉ front.toList)
    (hback : ' ' ∉ back.toList) : Turns (front ++ s ++ back) (turned.map (front ++ · ++ back)) := by
  intro tail htail
  have hbehind : flipText? (back.toList ++ tail) = none := by
    rw [flipText?_append hback, htail]
    rfl
  rw [String.toList_append, String.toList_append, List.append_assoc, List.append_assoc,
    flipText?_append hfront, h _ hbehind, Option.map_map, Option.map_map]
  congr 1
  funext text
  simp [String.toList_append]

/-- A comparison of the right operand goes first, then the operator's own. -/
lemma Turns.between (hleft : Turns left turnedLeft) (hright : Turns right turnedRight)
    (hopens : Opens right) (op : Operator) :
    Turns (op.between left right)
      ((turnedRight.map (op.between left)).or
        ((op.complement?.map (·.between left right)).or (turnedLeft.map (op.between · right)))) := by
  intro tail htail
  have hoperation := flipText?_operation (hopens.flipAt?_append tail) op
  rw [hright tail htail] at hoperation
  rw [toList_between]
  cases turnedRight with
  | some right' =>
    rw [Option.map_some, Option.map_some, Option.some_or] at hoperation
    rw [flipText?_append_of_some hoperation, ← toList_between]
    rfl
  | none =>
    rw [Option.map_none, Option.map_none, Option.none_or] at hoperation
    cases hop : op.complement? with
    | some op' =>
      rw [hop, Option.map_some] at hoperation
      rw [flipText?_append_of_some hoperation, ← toList_between]
      rfl
    | none =>
      rw [hop, Option.map_none] at hoperation
      rw [hleft _ hoperation, Option.map_none, Option.map_none, Option.none_or, Option.none_or,
        Option.map_map]
      congr 1
      funext text
      exact (toList_between op text right tail).symm

lemma Turns.write (hleft : Turns left turnedLeft) (hright : Turns right turnedRight)
    (hopens : Opens right) (op : Operator) :
    Turns (op.write left right)
      ((turnedRight.map (op.write left)).or
        ((op.complement?.map (·.write left right)).or (turnedLeft.map (op.write · right)))) := by
  have h := hleft.between hright hopens op
  cases hop : op.complement? with
  | some op' =>
    obtain ⟨hgrouped, hgrouped'⟩ := isGrouped_eq_false hop
    rw [hop, Option.map_some] at h
    rwa [Option.map_some, write_eq_between hgrouped, write_eq_between hgrouped']
  | none =>
    rw [hop] at h
    cases hgrouped : op.isGrouped with
    | false => rwa [write_eq_between hgrouped]
    | true =>
      have hwrite : ∀ left right, op.write left right = "(" ++ op.between left right ++ ")" :=
        fun left right => by rw [write_eq, if_pos hgrouped]
      have hopen : ' ' ∉ "(".toList := by decide
      have hclose : ' ' ∉ ")".toList := by decide
      have hwrap := h.wrap hopen hclose
      rw [hwrite]
      cases turnedRight <;> cases turnedLeft <;> simpa [hwrite] using hwrap

end Write

lemma splitRelation?_eq {s : List Char} (h : s.head? ≠ some ' ') : splitRelation? s = splitLast? s := by
  cases s with
  | nil => rfl
  | cons c s =>
    have hc : c ≠ ' ' := fun e => h (congrArg some e)
    rw [splitRelation?, splitLast?]
    cases splitLast? s with
    | none => simp [hc]
    | some found => rfl

/-- The negation of a text that starts as an operand does. -/
lemma negate_eq {s : String} (h : Opens s) :
    negate s = ((flipText? s.toList).map String.ofList).getD ("!(" ++ s ++ ")") := by
  have hhead : s.toList.head? ≠ some ' ' := by
    obtain ⟨c, hc, _, hblank⟩ := h
    rw [hc]
    exact fun e => hblank (Option.some.inj e)
  rw [negate, splitRelation?_eq hhead, flipText?]
  cases hsplit : splitLast? s.toList with
  | none => rfl
  | some found =>
    obtain ⟨left, op, right⟩ := found
    obtain ⟨op', hop⟩ := Option.isSome_iff_exists.1 (isSome_complement?_of_splitLast? hsplit)
    simp only [hop, Option.bind_some, Option.map_some, Option.getD_some]
    rw [write_eq_between (isGrouped_eq_false hop).2, ← String.toList_inj]
    simp [Operator.between, operation, String.toList_append]

namespace Expr

variable {e : Expr}

/-- Atoms are words, and without the characters of comparisons. -/
def Inert (e : Expr) : Prop :=
  ∀ s ∈ e.atoms, s ≠ "" ∧ ' ' ∉ s.toList ∧ s.toList.any isRelational = false

lemma Inert.opens (h : e.Inert) : Opens e.shown := by
  induction e with
  | atom s =>
    obtain ⟨hne, hblank, hplain⟩ := h s List.mem_cons_self
    cases hs : s.toList with
    | nil => exact absurd (String.toList_eq_nil_iff.1 hs) hne
    | cons c cs =>
      have hc : c ∈ s.toList := by
        rw [hs]
        exact List.mem_cons_self
      have hnot := List.any_eq_false.1 hplain c hc
      rw [Bool.not_eq_true] at hnot
      exact ⟨c, by rw [shown, hs]; rfl, hnot, fun e => hblank (e ▸ hc)⟩
  | apply name op left right ihl _ => exact (ihl fun s hs => h s (List.mem_append_left _ hs)).write op _
  | complement operand => exact ⟨'~', by simp [shown, String.toList_append], rfl, by decide⟩
  | read _ _ _ _ _ _ iha => exact iha fun s hs => h s (List.mem_append_right _ hs)

/-- The text and the expression change in the same place. -/
lemma Inert.turns (h : e.Inert) : Turns e.shown (e.flipLast?.map shown) := by
  induction e with
  | atom s =>
    obtain ⟨_, hblank, _⟩ := h s List.mem_cons_self
    exact turns_of_solid hblank
  | apply name op left right ihl ihr =>
    have hright : right.Inert := fun s hs => h s (List.mem_append_right _ hs)
    have hwrite := (ihl fun s hs => h s (List.mem_append_left _ hs)).write (ihr hright) hright.opens op
    rw [shown, flipLast?, Option.map_or, Option.map_or, Option.map_map, Option.map_map, Option.map_map]
    rwa [Option.map_map, Option.map_map] at hwrite
  | complement operand ih =>
    have hopen : ' ' ∉ "~(".toList := by decide
    have hclose : ' ' ∉ ")".toList := by decide
    have hwrap := (ih h).wrap hopen hclose
    rw [Option.map_map] at hwrap
    rw [shown, flipLast?, Option.map_map]
    exact hwrap
  | read _ _ _ _ _ _ iha =>
    have harray := iha fun s hs => h s (List.mem_append_right _ hs)
    rw [shown, flipLast?, Option.map_map]
    exact harray

lemma Inert.negate_shown (h : e.Inert) :
    negate e.shown = (e.flipLast?.map shown).getD ("!(" ++ e.shown ++ ")") := by
  have hturns := h.turns [] flipText?_nil
  rw [List.append_nil] at hturns
  rw [negate_eq h.opens, hturns, Option.map_map]
  simp [Function.comp_def]

/-! ### Negations that are right -/

lemma negated_eq (e : Expr) : e.negated = (e.flip?.map shown).getD ("!(" ++ e.shown ++ ")") := by
  cases e with
  | apply name op left right =>
    rw [negated, flip?]
    cases op.complement? <;> rfl
  | atom => rfl
  | complement => rfl
  | read => rfl

lemma flipLast?_of_hasComparison (h : e.hasComparison = false) : e.flipLast? = none := by
  induction e with
  | atom s => rfl
  | apply name op left right ihl ihr =>
    simp only [hasComparison, Bool.or_eq_false_iff, Option.isSome_eq_false_iff,
      Option.isNone_iff_eq_none] at h
    rw [flipLast?, ihr h.2, h.1.1, ihl h.1.2]
    rfl
  | complement operand ih => rw [flipLast?, ih h, Option.map_none]
  | read name width index array _ _ iha =>
    simp only [hasComparison, Bool.or_eq_false_iff] at h
    rw [flipLast?, iha h.2, Option.map_none]

lemma length_write (op : Operator) (left right : String) :
    (op.write left right).length =
      left.length + op.symbol.length + right.length + if op.isGrouped then 4 else 2 := by
  have hblank : " ".length = 1 := rfl
  have hopen : "(".length = 1 := rfl
  have hclose : ")".length = 1 := rfl
  rw [write_eq, Operator.between]
  split <;> simp only [String.length_append, hblank, hopen, hclose] <;> omega

/-- A complement adds at most one character. -/
lemma length_shown_le {f : Expr} (h : e.flipLast? = some f) : f.shown.length ≤ e.shown.length + 1 := by
  induction e generalizing f with
  | atom s => cases h
  | apply name op left right ihl ihr =>
    rw [flipLast?, Option.or_eq_some_iff, Option.or_eq_some_iff] at h
    rcases h with hright | ⟨_, hop | ⟨_, hleft⟩⟩
    · obtain ⟨g, hg, rfl⟩ := Option.map_eq_some_iff.1 hright
      have hlength := ihr hg
      rw [shown, shown, length_write, length_write]
      omega
    · obtain ⟨op', hcomplement, rfl⟩ := Option.map_eq_some_iff.1 hop
      have hsymbol : op'.symbol.length ≤ op.symbol.length + 1 := by
        cases op <;> cases hcomplement <;> decide
      obtain ⟨hgrouped, hgrouped'⟩ := isGrouped_eq_false hcomplement
      rw [shown, shown, length_write, length_write, hgrouped, hgrouped']
      omega
    · obtain ⟨g, hg, rfl⟩ := Option.map_eq_some_iff.1 hleft
      have hlength := ihl hg
      rw [shown, shown, length_write, length_write]
      omega
  | complement operand ih =>
    rw [flipLast?] at h
    obtain ⟨g, hg, rfl⟩ := Option.map_eq_some_iff.1 h
    have hlength := ih hg
    simp only [shown, String.length_append]
    omega
  | read name width index array _ _ iha =>
    rw [flipLast?] at h
    obtain ⟨g, hg, rfl⟩ := Option.map_eq_some_iff.1 h
    have hlength := iha hg
    exact hlength

lemma between_ne {op op' : Operator} (h : op.complement? = some op') (left right right' : String) :
    op.between left right ≠ op'.between left right' := by
  intro e
  have hleft := toList_between op left right []
  have hright := toList_between op' left right' []
  rw [e, hright] at hleft
  have hoperation := List.append_cancel_left hleft
  cases op <;> cases h <;> simp [operation, Operator.symbol] at hoperation

/-- The texts agree only if the expressions do. -/
lemma shown_flipLast?_eq_iff (e : Expr) :
    (e.flipLast?.map shown).getD ("!(" ++ e.shown ++ ")") = e.negated ↔ e.flipLast? = e.flip? := by
  rw [negated_eq]
  refine ⟨fun h => ?_, fun h => by rw [h]⟩
  cases hlast : e.flipLast? with
  | none =>
    cases e with
    | apply name op left right =>
      rw [flipLast?, Option.or_eq_none_iff, Option.or_eq_none_iff] at hlast
      exact hlast.2.1.symm
    | atom => rfl
    | complement => rfl
    | read => rfl
  | some f =>
    rw [hlast] at h
    cases hown : e.flip? with
    | none =>
      -- The text in `!(…)` is longer by three characters.
      have hlength := length_shown_le hlast
      rw [hown] at h
      have heq := congrArg String.length h
      have hopen : "!(".length = 2 := rfl
      have hclose : ")".length = 1 := rfl
      simp only [Option.map_some, Option.map_none, Option.getD_some, Option.getD_none,
        String.length_append, hopen, hclose] at heq
      omega
    | some g =>
      cases e with
      | apply name op left right =>
        obtain ⟨op', hop, rfl⟩ := Option.map_eq_some_iff.1 hown
        obtain ⟨hgrouped, hgrouped'⟩ := isGrouped_eq_false hop
        rw [flipLast?, hop] at hlast
        cases hright : right.flipLast? with
        | none =>
          rw [hright] at hlast
          exact hlast.symm
        | some right' =>
          rw [hright] at hlast
          cases hlast
          rw [hown] at h
          simp only [Option.map_some, Option.getD_some, shown, write_eq_between hgrouped,
            write_eq_between hgrouped'] at h
          exact absurd h (between_ne hop _ _ _)
      | atom => cases hown
      | complement => cases hown
      | read => cases hown

lemma atoms_sublist_words (e : Expr) : e.atoms.Sublist e.words := by
  induction e with
  | atom s => exact List.Sublist.refl _
  | apply name op left right ihl ihr => exact (ihl.append ihr).cons name
  | complement operand ih => exact ih.cons "Not"
  | read name width index array ihw ihi iha => exact ((ihw.append ihi).append iha).cons name

lemma inert_of_layout {cs : List Char} (h : Layout e.words cs)
    (hatoms : ∀ s ∈ e.atoms, s.toList.any isRelational = false) : e.Inert := by
  intro s hs
  obtain ⟨hne, hsolid⟩ := h.solid (e.atoms_sublist_words.subset hs)
  refine ⟨hne, fun hblank => ?_, hatoms s hs⟩
  have hnot := hsolid ' ' hblank
  revert hnot
  decide

/-- After `Eq` and `false`, the infix form is negated. -/
lemma toInfix_layout_negation (hnames : e.WellNamed) {text : String}
    (h : Layout ("Eq" :: "false" :: e.words) text.toList) : toInfix text = negate e.shown := by
  rw [h.toInfix_eq, List.reverse_cons, List.reverse_cons, List.append_assoc, run_words hnames]
  rfl

/-- Negation puts a complement where the last comparison is shown, and `!(…)` around what shows none. That
is the negation of the expression exactly if the last comparison shown is its own, or there is none: in
particular for a comparison with nothing compared in its right operand. -/
theorem toInfix_negation (hnames : e.WellNamed)
    (hatoms : ∀ s ∈ e.atoms, s.toList.any isRelational = false) {text negation : String}
    (h : Layout e.words text.toList) (hnegation : Layout ("Eq" :: "false" :: e.words) negation.toList) :
    toInfix negation = (e.flipLast?.map shown).getD ("!(" ++ toInfix text ++ ")") ∧
      (toInfix negation = e.negated ↔ e.flipLast? = e.flip?) ∧
      ∀ name op op' left right, e = .apply name op left right → op.complement? = some op' →
        right.hasComparison = false → toInfix negation = op'.write left.shown right.shown := by
  have hnegate := (toInfix_layout_negation hnames hnegation).trans (inert_of_layout h hatoms).negate_shown
  rw [toInfix_layout hnames h, hnegate]
  refine ⟨rfl, shown_flipLast?_eq_iff e, ?_⟩
  rintro name op op' left right rfl hop hright
  rw [flipLast?, flipLast?_of_hasComparison hright, hop]
  rfl

/-- A read that is compared with a number, and its negation. -/
theorem toInfix_negation_of_read :
    let e : Expr := .apply "Slt" .lt (.read "ReadLSB" (.atom "w32") (.atom "0") (.atom "Y")) (.atom "5")
    let text := "(Slt (ReadLSB w32 0 Y) 5)"
    let negation := "(Eq false (Slt (ReadLSB w32 0 Y) 5))"
    e.WellNamed ∧ (∀ s ∈ e.atoms, s.toList.any isRelational = false) ∧ Layout e.words text.toList ∧
      Layout ("Eq" :: "false" :: e.words) negation.toList ∧
      toInfix negation = (e.flipLast?.map shown).getD ("!(" ++ toInfix text ++ ")") ∧
      (toInfix negation = e.negated ↔ e.flipLast? = e.flip?) ∧
      ∀ name op op' left right, e = .apply name op left right → op.complement? = some op' →
        right.hasComparison = false → toInfix negation = op'.write left.shown right.shown := by
  intro e text negation
  have hnames : e.WellNamed := ⟨rfl, ⟨rfl, rfl, rfl, rfl⟩, rfl⟩
  have hatoms : ∀ s ∈ e.atoms, s.toList.any isRelational = false := by decide
  have h : Layout e.words text.toList := layout_iff.2 (by decide +kernel)
  have hnegation : Layout ("Eq" :: "false" :: e.words) negation.toList := layout_iff.2 (by decide +kernel)
  exact ⟨hnames, hatoms, h, hnegation, toInfix_negation hnames hatoms h hnegation⟩

/-- The comparison in the operand of a conjunction takes the complement. -/
theorem negation_changes_operand :
    let e : Expr := .apply "And" .and (.apply "Slt" .lt (.atom "a") (.atom "b")) (.atom "c")
    let text := "(And (Slt a b) c)"
    let negation := "(Eq false (And (Slt a b) c))"
    e.WellNamed ∧ (∀ s ∈ e.atoms, s.toList.any isRelational = false) ∧ Layout e.words text.toList ∧
      Layout ("Eq" :: "false" :: e.words) negation.toList ∧ e.flip? = none ∧
      toInfix text = "(a < b & c)" ∧ toInfix negation = "(a >= b & c)" ∧
      toInfix negation ≠ "!(" ++ toInfix text ++ ")" := by
  intro e text negation
  have hatoms : ∀ s ∈ e.atoms, s.toList.any isRelational = false := by decide
  have htext : toInfix text = "(a < b & c)" := by decide +kernel
  have hnegated : toInfix negation = "(a >= b & c)" := by decide +kernel
  refine ⟨⟨rfl, ⟨rfl, rfl, rfl⟩, rfl⟩, hatoms, layout_iff.2 (by decide +kernel),
    layout_iff.2 (by decide +kernel), rfl, htext, hnegated, ?_⟩
  rw [htext, hnegated]
  decide

end Expr

end ForkTree.Constraint
