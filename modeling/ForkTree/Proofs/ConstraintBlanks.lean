import ForkTree.Proofs.InfixPrinting
import Mathlib.Data.List.Chain

/-!
Constraints prepared for display. In a prepared text there is no line feed, and no blank stands right behind
another (`isNormal_normalize`); a text of this kind is left as it is (`normalize_of_isNormal`). A word ends at
the first blank behind it, so the tokens do not tell how long a run of blanks is (`Token.scan_collapse`). Line
feeds are deleted altogether, which joins what they alone kept apart: the tokens stay the same without such a
place (`Token.scan_filter`), and become fewer with one (`Token.count_filter_lt`).
-/

namespace ForkTree.Constraint

variable {c : Char} {cs rest held : List Char} {out : List Token}

/-- No line feed, and no blank right behind another. -/
structure IsNormal (cs : List Char) : Prop where
  solid : ∀ c ∈ cs, c ≠ '\n'
  apart : cs.IsChain fun a b => Text.isBlank a = true → Text.isBlank b = false

lemma collapse_sublist (afterBlank : Bool) (cs : List Char) : (collapse afterBlank cs).Sublist cs := by
  induction cs generalizing afterBlank with
  | nil => exact .slnil
  | cons c rest ih =>
    rw [collapse]
    split
    · split
      · exact (ih true).cons c
      · exact (ih true).cons_cons c
    · exact (ih false).cons_cons c

/-- Behind a blank the shortened text does not go on with a blank. -/
lemma head?_collapse_true (cs : List Char) : ∀ c ∈ (collapse true cs).head?, Text.isBlank c = false := by
  induction cs with
  | nil =>
    intro c hc
    cases hc
  | cons c rest ih =>
    rw [collapse]
    split
    · exact ih
    · next hblank =>
      intro d hd
      cases hd
      exact Bool.eq_false_iff.2 hblank

lemma isChain_collapse (afterBlank : Bool) (cs : List Char) :
    (collapse afterBlank cs).IsChain fun a b => Text.isBlank a = true → Text.isBlank b = false := by
  induction cs generalizing afterBlank with
  | nil => exact .nil
  | cons c rest ih =>
    rw [collapse]
    split
    · split
      · exact ih true
      · exact (ih true).cons fun b hb _ => head?_collapse_true rest b hb
    · next hblank => exact (ih false).cons fun _ _ hc => absurd hc hblank

lemma collapse_eq_self {afterBlank : Bool}
    (hapart : cs.IsChain fun a b => Text.isBlank a = true → Text.isBlank b = false)
    (hfirst : afterBlank = true → ∀ c ∈ cs.head?, Text.isBlank c = false) :
    collapse afterBlank cs = cs := by
  induction cs generalizing afterBlank with
  | nil => rfl
  | cons c rest ih =>
    obtain ⟨hnext, hrest⟩ := List.isChain_cons.1 hapart
    rw [collapse]
    cases hc : Text.isBlank c with
    | true =>
      have hnot : afterBlank ≠ true := fun h => by
        rw [hfirst h c rfl] at hc
        cases hc
      rw [if_pos rfl, if_neg hnot, ih hrest fun _ b hb => hnext b hb hc]
    | false => rw [if_neg Bool.false_ne_true, ih hrest fun h => (by cases h)]

theorem isNormal_normalize (s : String) : IsNormal (normalize s).toList := by
  rw [normalize, String.toList_ofList]
  refine ⟨fun c hc => ?_, isChain_collapse false _⟩
  have hmem := (collapse_sublist false _).subset hc
  exact of_decide_eq_true (List.mem_filter.1 hmem).2

theorem normalize_of_isNormal {s : String} (h : IsNormal s.toList) : normalize s = s := by
  rw [normalize, List.filter_eq_self.2 fun c hc => decide_eq_true (h.solid c hc),
    collapse_eq_self h.apart fun hfalse => (by cases hfalse), String.ofList_toList]

namespace Token

lemma ofParen?_of_isBlank (hc : Text.isBlank c = true) : ofParen? c = none := by
  have hopening : c ≠ '(' := by
    rintro rfl
    exact absurd hc (by decide)
  have hclosing : c ≠ ')' := by
    rintro rfl
    exact absurd hc (by decide)
  rw [ofParen?, if_neg hopening, if_neg hclosing]

lemma scan_blank (hc : Text.isBlank c = true) (held : List Char) (out : List Token) (rest : List Char) :
    scan held out (c :: rest) = scan [] (flush held out) rest := by
  rw [scan, ofParen?_of_isBlank hc]
  simp only [hc, if_true]

/-- A character is dropped only where no word is going on, and then only if it is a blank. -/
theorem scan_collapse {afterBlank : Bool} (hheld : afterBlank = true → held = []) (out : List Token) :
    scan held out (collapse afterBlank cs) = scan held out cs := by
  induction cs generalizing afterBlank held out with
  | nil => rfl
  | cons c rest ih =>
    rw [collapse]
    cases hc : Text.isBlank c with
    | true =>
      rw [if_pos rfl]
      cases afterBlank with
      | true =>
        rw [if_pos rfl, scan_blank hc, hheld rfl, flush_nil]
        exact ih (fun _ => rfl) out
      | false =>
        rw [if_neg Bool.false_ne_true, scan_blank hc, scan_blank hc]
        exact ih (fun _ => rfl) _
    | false =>
      rw [if_neg Bool.false_ne_true]
      cases hs : isSeparator c with
      | true =>
        obtain ⟨out', heq, _⟩ := exists_scan_separator hs held out
        rw [heq, heq]
        exact ih (fun h => (by cases h)) out'
      | false =>
        rw [scan_solid hs, scan_solid hs]
        exact ih (fun h => (by cases h)) out

/-- A word may be ended where the text ends or a separator follows. -/
lemma scan_flush (h : ∀ c ∈ cs.head?, isSeparator c = true) (held : List Char) (out : List Token) :
    scan held out cs = scan [] (flush held out) cs := by
  cases cs with
  | nil => rfl
  | cons c rest =>
    cases hparen : ofParen? c with
    | some paren => simp only [scan, hparen, flush_nil]
    | none =>
      have hc := h c rfl
      rw [isSeparator, hparen, Option.isSome_none, Bool.or_false] at hc
      rw [scan_blank hc, scan_blank hc, flush_nil]

end Token

lemma isBlank_break : Text.isBlank '\n' = true := by decide

lemma ne_break_of_solid (hc : isSeparator c = false) : c ≠ '\n' := by
  rintro rfl
  rw [isSeparator, isBlank_break] at hc
  cases hc

/-- Behind line feeds, and nothing else, the text goes on with a word. -/
def Resumes (cs : List Char) : Prop :=
  ∃ breaks b after, cs = breaks ++ b :: after ∧ breaks ≠ [] ∧ (∀ c ∈ breaks, c = '\n') ∧
    isSeparator b = false

/-- A run of line feeds stands directly between two characters of words. -/
def IsBroken (cs : List Char) : Prop :=
  ∃ before a after, cs = before ++ a :: after ∧ isSeparator a = false ∧ Resumes after

lemma IsBroken.cons (h : IsBroken cs) (c : Char) : IsBroken (c :: cs) := by
  obtain ⟨before, a, after, rfl, ha, hafter⟩ := h
  exact ⟨c :: before, a, after, rfl, ha, hafter⟩

/-- Where a word does not go on behind line feeds, a separator is left when they are gone, or nothing. -/
lemma isSeparator_of_not_resumes (h : ¬ Resumes ('\n' :: cs)) :
    ∀ c ∈ (cs.filter (· ≠ '\n')).head?, isSeparator c = true := by
  intro b hb
  rw [List.head?_filter] at hb
  obtain ⟨_, breaks, after, rfl, hbreaks⟩ := List.find?_eq_some_iff_append.1 hb
  by_contra hsolid
  refine h ⟨'\n' :: breaks, b, after, rfl, List.cons_ne_nil _ _, ?_, Bool.eq_false_iff.2 hsolid⟩
  refine List.forall_mem_cons.2 ⟨rfl, fun c hc => ?_⟩
  simpa using hbreaks c hc

namespace Token

/-- While no word goes on behind line feeds, the tokens are found without them as well. -/
theorem scan_filter (h : ¬ IsBroken cs) (hheld : held ≠ [] → ¬ Resumes cs) (out : List Token) :
    scan held out (cs.filter (· ≠ '\n')) = scan held out cs := by
  induction cs generalizing held out with
  | nil => rfl
  | cons c rest ih =>
    have hrest : ¬ IsBroken rest := fun hbroken => h (hbroken.cons c)
    by_cases hc : c = '\n'
    · subst hc
      rw [List.filter_cons_of_neg (by simp), scan_blank isBlank_break, ← ih hrest (fun hne => absurd rfl hne)]
      by_cases hnil : held = []
      · rw [hnil, flush_nil]
      · exact scan_flush (isSeparator_of_not_resumes (hheld hnil)) held out
    · rw [List.filter_cons_of_pos (by simpa using hc)]
      cases hs : isSeparator c with
      | true =>
        obtain ⟨out', heq, _⟩ := exists_scan_separator hs held out
        rw [heq, heq]
        exact ih hrest (fun hne => absurd rfl hne) out'
      | false =>
        rw [scan_solid hs, scan_solid hs]
        exact ih hrest (fun _ hresumes => h ⟨[], c, rest, rfl, hs, hresumes⟩) out

/-- The number of tokens that are still to come; `inWord` tells that a word is going on. -/
def count (inWord : Bool) : List Char → Nat
  | [] => inWord.toNat
  | c :: rest =>
    if isSeparator c then inWord.toNat + (ofParen? c).isSome.toNat + count false rest
    else count true rest

lemma length_flush (held : List Char) (out : List Token) :
    (flush held out).length = out.length + (!held.isEmpty).toNat := by
  cases held <;> rfl

lemma length_scan (held : List Char) (out : List Token) (cs : List Char) :
    (scan held out cs).length = out.length + count (!held.isEmpty) cs := by
  induction cs generalizing held out with
  | nil => rw [scan, List.length_reverse, length_flush, count]
  | cons c rest ih =>
    cases hs : isSeparator c with
    | false => rw [scan_solid hs, ih, count, hs, if_neg Bool.false_ne_true]; rfl
    | true =>
      rw [count, hs, if_pos rfl]
      cases hparen : ofParen? c with
      | some paren =>
        simp only [scan, hparen, ih, List.length_cons, length_flush, List.isEmpty_nil, Bool.not_true,
          Option.isSome_some, Bool.toNat_true]
        omega
      | none =>
        rw [isSeparator, hparen, Option.isSome_none, Bool.or_false] at hs
        rw [scan_blank hs, ih, length_flush, Option.isSome_none, Bool.toNat_false]
        simp only [List.isEmpty_nil, Bool.not_true]
        omega

lemma count_break (inWord : Bool) (cs : List Char) :
    count inWord ('\n' :: cs) = inWord.toNat + count false cs := by
  have hs : isSeparator '\n' = true := by rw [isSeparator, isBlank_break, Bool.true_or]
  rw [count, hs, if_pos rfl, ofParen?_of_isBlank isBlank_break]
  rfl

lemma count_le_count_false (inWord : Bool) (cs : List Char) :
    count inWord cs ≤ inWord.toNat + count false cs := by
  cases cs with
  | nil => simp [count]
  | cons c rest =>
    rw [count, count]
    split
    · rw [Bool.toNat_false]
      omega
    · omega

lemma count_filter_le (inWord : Bool) (cs : List Char) :
    count inWord (cs.filter (· ≠ '\n')) ≤ count inWord cs := by
  induction cs generalizing inWord with
  | nil => exact Nat.le_refl _
  | cons c rest ih =>
    by_cases hc : c = '\n'
    · rw [hc, List.filter_cons_of_neg (by simp), count_break]
      exact (count_le_count_false inWord _).trans (Nat.add_le_add_left (ih false) _)
    · rw [List.filter_cons_of_pos (by simpa using hc), count, count]
      split
      · exact Nat.add_le_add_left (ih false) _
      · exact ih true

/-- Deleting the line feeds inside a word makes one token of two. -/
lemma count_filter_lt_of_resumes (h : Resumes cs) :
    count true (cs.filter (· ≠ '\n')) < count true cs := by
  obtain ⟨breaks, b, after, rfl, hne, hbreaks, hb⟩ := h
  have hsolid := ne_break_of_solid hb
  have hword : ∀ inWord, count inWord (b :: after) = count true after := fun inWord => by
    rw [count, hb, if_neg Bool.false_ne_true]
  have hwithout : (breaks ++ b :: after).filter (· ≠ '\n') = b :: after.filter (· ≠ '\n') := by
    rw [List.filter_append, List.filter_eq_nil_iff.2 fun c hc => by simp [hbreaks c hc], List.nil_append,
      List.filter_cons_of_pos (by simpa using hsolid)]
  have hwith : count false (breaks ++ b :: after) = count true after := by
    clear hwithout hne
    induction breaks with
    | nil => exact hword false
    | cons c breaks ih =>
      obtain ⟨rfl, hrest⟩ := List.forall_mem_cons.1 hbreaks
      rw [List.cons_append, count_break, ih hrest]
      exact Nat.zero_add _
  obtain ⟨c, breaks, rfl⟩ := List.exists_cons_of_ne_nil hne
  obtain ⟨rfl, _⟩ := List.forall_mem_cons.1 hbreaks
  rw [List.cons_append, count_break, Bool.toNat_false, Nat.zero_add] at hwith
  rw [hwithout, List.cons_append, count_break, hwith, count, hb, if_neg Bool.false_ne_true, Bool.toNat_true]
  have hle := count_filter_le true after
  omega

theorem count_filter_lt (inWord : Bool) (h : IsBroken cs) :
    count inWord (cs.filter (· ≠ '\n')) < count inWord cs := by
  obtain ⟨before, a, after, rfl, ha, hafter⟩ := h
  induction before generalizing inWord with
  | nil =>
    have hsolid := ne_break_of_solid ha
    rw [List.nil_append, List.filter_cons_of_pos (by simpa using hsolid), count, count, ha,
      if_neg Bool.false_ne_true, if_neg Bool.false_ne_true]
    exact count_filter_lt_of_resumes hafter
  | cons c before ih =>
    rw [List.cons_append]
    by_cases hc : c = '\n'
    · rw [hc, List.filter_cons_of_neg (by simp), count_break]
      exact (count_le_count_false inWord _).trans_lt (Nat.add_lt_add_left (ih false) _)
    · rw [List.filter_cons_of_pos (by simpa using hc), count, count]
      split
      · exact Nat.add_lt_add_left (ih false) _
      · exact ih true

end Token

/-! ### What is kept -/

lemma tokens_normalize (s : String) :
    tokens (normalize s) = Token.scan [] [] (s.toList.filter (· ≠ '\n')) := by
  rw [tokens, normalize, String.toList_ofList, Token.scan_collapse fun _ => rfl]

/-- Preparing a text a second time changes nothing. The first time keeps the tokens, and with them the infix
form, exactly if no run of line feeds stands directly between two characters of words. -/
theorem normalize_keeps (s : String) :
    normalize (normalize s) = normalize s ∧
      (tokens (normalize s) = tokens s ↔ ¬ IsBroken s.toList) ∧
      (¬ IsBroken s.toList → toInfix (normalize s) = toInfix s) := by
  have htokens : tokens (normalize s) = tokens s ↔ ¬ IsBroken s.toList := by
    rw [tokens_normalize, tokens]
    constructor
    · intro heq hbroken
      have hlength := congrArg List.length heq
      rw [Token.length_scan, Token.length_scan] at hlength
      exact absurd hlength (Nat.add_lt_add_left (Token.count_filter_lt _ hbroken) _).ne
    · exact fun h => Token.scan_filter h (fun hne => absurd rfl hne) []
  refine ⟨normalize_of_isNormal (isNormal_normalize s), htokens, fun h => ?_⟩
  rw [toInfix, toInfix, htokens.2 h]

/-- A constraint over two lines is kept, and a word over two lines is joined. -/
theorem normalize_keeps_two_lines :
    let text := "(Eq 0\n    (ReadLSB w32\u2003\t0 x))"
    normalize text = "(Eq 0 (ReadLSB w32\u20030 x))" ∧ ¬ IsBroken text.toList ∧
      toInfix (normalize text) = toInfix text ∧ IsBroken "a\n\nb".toList ∧ normalize "a\n\nb" = "ab" := by
  intro text
  obtain ⟨_, htokens, hinfix⟩ := normalize_keeps text
  have hwhole : ¬ IsBroken text.toList := htokens.1 (by decide +kernel)
  refine ⟨by decide +kernel, hwhole, hinfix hwhole, ?_, by decide +kernel⟩
  by_contra h
  have hjoined := (normalize_keeps "a\n\nb").2.1.2 h
  exact absurd hjoined (by decide +kernel)

end ForkTree.Constraint
