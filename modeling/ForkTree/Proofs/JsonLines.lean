import ForkTree.Proofs.JsonTokens

/-!
JSON on one line. Control characters are escaped and all other tokens are made of letters, digits and signs,
so the text without blanks has no line break in it, whatever the value (`Json.oneLine_compact`). Texts of
that kind, each with a line break behind it, are told apart again by their line breaks (`Text.splitOn_lines`).
-/

namespace ForkTree

namespace Text

/-- No line break is in the text. -/
def OneLine (s : String) : Prop := '\n' ∉ s.toList

instance (s : String) : Decidable (OneLine s) := inferInstanceAs (Decidable (_ ∉ _))

@[simp]
lemma oneLine_append {a b : String} : OneLine (a ++ b) ↔ OneLine a ∧ OneLine b := by
  rw [OneLine, String.toList_append, List.mem_append, not_or]
  rfl

lemma oneLine_ofList {cs : List Char} : OneLine (String.ofList cs) ↔ '\n' ∉ cs := by
  rw [OneLine, String.toList_ofList]

lemma oneLine_decimal (n : Nat) : OneLine (decimal n) := by
  rw [decimal, oneLine_ofList]
  intro hmem
  have hdigit := Nat.isDigit_of_mem_toDigits (by decide) (by decide) hmem
  exact absurd hdigit (by decide)

/-- The texts one after the other, each with a line break behind it. -/
def lines (texts : List String) : List Char := texts.flatMap fun s => s.toList ++ ['\n']

lemma lines_concat (texts : List String) (s : String) :
    lines (texts ++ [s]) = lines texts ++ (s ++ "\n").toList := by
  rw [lines, List.flatMap_append, List.flatMap_singleton, String.toList_append]
  rfl

theorem splitOn_lines {texts : List String} (h : ∀ s ∈ texts, OneLine s) :
    (lines texts).splitOn '\n' = texts.map String.toList ++ [[]] := by
  induction texts with
  | nil => rfl
  | cons s rest ih =>
    have hs : s.toList.splitOn '\n' = [s.toList] := List.splitOnP_eq_singleton fun c hc =>
      beq_eq_false_iff_ne.2 fun e => h s List.mem_cons_self (e ▸ hc)
    have hrest := ih fun t ht => h t (List.mem_cons_of_mem _ ht)
    rw [lines, List.flatMap_cons, List.append_assoc, List.singleton_append, List.splitOn_append_cons_self, hs,
      ← lines, hrest]
    rfl

end Text

namespace Json

open Text

lemma oneLine_writeInt (n : Int) : OneLine (writeInt n) := by
  rw [writeInt]
  split
  · exact oneLine_append.2 ⟨by decide, oneLine_decimal _⟩
  · exact oneLine_decimal _

lemma oneLine_layOut {digits : String} (h : OneLine digits) (power : Int) : OneLine (layOut digits power) := by
  have hzeros : ∀ n, OneLine (String.ofList (List.replicate n '0')) := fun n =>
    oneLine_ofList.2 fun hmem => absurd (List.eq_of_mem_replicate hmem) (by decide)
  have hfront : ∀ n, OneLine (String.ofList (digits.toList.take n)) := fun n =>
    oneLine_ofList.2 fun hmem => h (List.mem_of_mem_take hmem)
  have hback : ∀ n, OneLine (String.ofList (digits.toList.drop n)) := fun n =>
    oneLine_ofList.2 fun hmem => h (List.mem_of_mem_drop hmem)
  have hpoint : OneLine "." := by decide
  have hzero : OneLine ".0" := by decide
  have hleading : OneLine "0." := by decide
  unfold layOut
  simp only
  split
  · simp only [oneLine_append, h, hzeros, hzero, and_self]
  split
  · simp only [oneLine_append, hfront, hback, hpoint, and_self]
  split
  · simp only [oneLine_append, h, hzeros, hleading, and_self]
  · have hexponent : OneLine "e" := by decide
    have hsign : ∀ p : Prop, [Decidable p] → OneLine (if p then "-" else "+") := by
      intro p _
      split <;> decide
    have hrest : OneLine (if digits.length = 1 then "" else
        "." ++ String.ofList (digits.toList.drop (1 : Int).toNat)) := by
      split
      · decide
      · exact oneLine_append.2 ⟨hpoint, hback _⟩
    simp only [oneLine_append, hfront, hrest, hexponent, hsign, oneLine_decimal, and_self]

lemma oneLine_writeReal (negative : Bool) (x : Double) : OneLine (writeReal negative x) := by
  have hmagnitude : OneLine (if x.isZero then "0.0" else layOut (decimal x.shortest.1) x.shortest.2) := by
    split
    · decide
    · exact oneLine_layOut (oneLine_decimal _) _
  unfold writeReal
  simp only
  split
  · exact oneLine_append.2 ⟨by decide, hmagnitude⟩
  · exact hmagnitude

lemma not_mem_escapeChar (c : Char) : '\n' ∉ escapeChar c := by
  by_cases hquote : c = '"'
  · subst hquote
    decide
  by_cases hslash : c = '\\'
  · subst hslash
    decide
  by_cases hlow : c.toNat < 0x20
  · have hcontrol : ∀ n < 0x20, '\n' ∉ escapeChar (Char.ofNat n) := by decide
    have h := hcontrol c.toNat hlow
    rwa [Char.ofNat_toNat] at h
  · rw [Token.escapeChar_self hquote hslash hlow, List.mem_singleton]
    rintro rfl
    exact hlow (by decide)

lemma oneLine_quote (s : String) : OneLine (quote s) := by
  rw [quote, oneLine_ofList]
  intro hmem
  rw [List.cons_append, List.mem_cons, List.mem_append, List.mem_flatMap] at hmem
  rcases hmem with h | ⟨c, _, hc⟩ | h
  · exact absurd h (by decide)
  · exact not_mem_escapeChar c hc
  · exact absurd h (by decide)

lemma oneLine_writeScalar (j : Json) : OneLine (writeScalar j) := by
  unfold writeScalar
  split
  · decide
  · decide
  · exact oneLine_writeInt _
  · exact oneLine_writeReal _ _
  · exact oneLine_quote _
  · decide

mutual

theorem oneLine_compact (j : Json) : OneLine j.compact := by
  cases j with
  | array items =>
    cases items with
    | nil => decide
    | cons j rest =>
      have hopen : OneLine "[" := by decide
      have hclose : OneLine "]" := by decide
      simp only [compact, oneLine_append, hopen, oneLine_compact j, oneLine_compactItems rest, hclose, and_self]
  | object members =>
    cases members with
    | nil => decide
    | cons m rest =>
      have hopen : OneLine "\x7b" := by decide
      have hcolon : OneLine ":" := by decide
      have hclose : OneLine "\x7d" := by decide
      simp only [compact, oneLine_append, hopen, oneLine_quote, hcolon, oneLine_compact m.2,
        oneLine_compactMembers rest, hclose, and_self]
  | _ => exact oneLine_writeScalar _

lemma oneLine_compactItems (items : List Json) : OneLine (compactItems items) := by
  cases items with
  | nil => decide
  | cons j rest =>
    have hcomma : OneLine "," := by decide
    simp only [compactItems, oneLine_append, hcomma, oneLine_compact j, oneLine_compactItems rest, and_self]

lemma oneLine_compactMembers (members : List (String × Json)) : OneLine (compactMembers members) := by
  cases members with
  | nil => decide
  | cons m rest =>
    have hcomma : OneLine "," := by decide
    have hcolon : OneLine ":" := by decide
    simp only [compactMembers, oneLine_append, hcomma, oneLine_quote, hcolon, oneLine_compact m.2,
      oneLine_compactMembers rest, and_self]

end

end Json

end ForkTree
