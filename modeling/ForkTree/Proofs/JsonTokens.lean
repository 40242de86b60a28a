import ForkTree.Json.Printer
import ForkTree.Json.Token
import ForkTree.Proofs.TextBytes
import Mathlib.Data.List.TakeWhile

/-!
The lexer on written tokens. A number or a name that is written comes back as one word
(`scan?_word`), a quoted text as the text (`scan?_quote`), whatever follows it, as long as a word is
followed by something that ends it. A character of a quoted text is written as it is, behind a
backslash or as its number (`Spells`), and each of the three is read back as the bytes of the character.
-/

namespace ForkTree.Json

namespace Token

def digitBytes (digits : List Nat) : Bytes := digits.map fun d => UInt8.ofNat (0x30 + d)

lemma digit_byte : ∀ d < 10, isDigit (UInt8.ofNat (0x30 + d)) = true ∧
    (UInt8.ofNat (0x30 + d)).toNat - 0x30 = d ∧ endsWord (UInt8.ofNat (0x30 + d)) = false := by
  decide

lemma isDigit_digitBytes {digits : List Nat} (h : ∀ d ∈ digits, d < 10) {b : UInt8}
    (hb : b ∈ digitBytes digits) : isDigit b = true := by
  obtain ⟨d, hd, rfl⟩ := List.mem_map.1 hb
  exact (digit_byte d (h d hd)).1

lemma digitsOf_digitBytes {digits : List Nat} (h : ∀ d ∈ digits, d < 10) :
    digitsOf (digitBytes digits) = digits := by
  rw [digitsOf, digitBytes, List.map_map]
  exact (List.map_congr_left fun d hd => (digit_byte d (h d hd)).2.1).trans (List.map_id _)

lemma takeDigits_append {n m : Nat} {front : List Nat} (h : takeDigits n front = (m, 0))
    (back : List Nat) : takeDigits n (front ++ back) = takeDigits m back := by
  induction front generalizing n with
  | nil =>
    cases h
    rfl
  | cons d front ih =>
    rw [takeDigits] at h
    rw [List.cons_append, takeDigits]
    split at h
    · next hfits => rw [if_pos hfits, ih h]
    · cases h

/-- A number of 64 bits fits in all its digits. -/
lemma takeDigits_row {n : Nat} (h : n < UInt64.size) : takeDigits 0 (Text.row n) = (n, 0) := by
  induction n using Nat.strongRecOn with
  | ind n ih =>
    by_cases hn : n < 10
    · rw [Text.row_of_lt hn, takeDigits, if_pos (by omega), takeDigits]
      simp
    · have hten := Text.row_of_le (Nat.le_of_not_lt hn)
      have hn' : 10 * (n / 10) + n % 10 = n := by omega
      rw [hten, takeDigits_append (ih (n / 10) (by omega) (by omega)), takeDigits, hn', if_pos h,
        takeDigits]

/-- Digits without a superfluous zero are a number. -/
lemma unsigned?_row (negative : Bool) (n : Nat) :
    unsigned? negative (digitBytes (Text.row n)) = some (ofDigits negative (Text.row n)) := by
  have hsmall : ∀ d ∈ Text.row n, d < 10 := fun d hd => Text.lt_of_mem_row hd
  have htake : (digitBytes (Text.row n)).takeWhile isDigit = digitBytes (Text.row n) :=
    List.takeWhile_eq_self_iff.2 fun b hb => isDigit_digitBytes hsmall hb
  have hdrop : (digitBytes (Text.row n)).dropWhile isDigit = [] :=
    List.dropWhile_eq_nil_iff.2 fun b hb => isDigit_digitBytes hsmall hb
  have hne : (digitBytes (Text.row n)).isEmpty = false := by
    cases hrow : Text.row n with
    | nil => exact absurd hrow (Text.row_ne_nil n)
    | cons d ds => rfl
  have hzero : ((digitBytes (Text.row n)).head? = some 0x30 &&
      1 < (digitBytes (Text.row n)).length) = false := by
    by_cases hn : n < 10
    · simp [Text.row_of_lt hn, digitBytes]
    · have hhead := Text.head?_row (n := n) (by omega)
      cases hrow : Text.row n with
      | nil => rfl
      | cons d ds =>
        rw [hrow] at hhead hsmall
        have hd := hsmall d List.mem_cons_self
        have hbyte : ∀ d < 10, UInt8.ofNat (0x30 + d) = 0x30 → d = 0 := by decide
        have hfirst : (digitBytes (d :: ds)).head? ≠ some 0x30 := by
          intro e
          exact hhead (by rw [hbyte d hd (Option.some.inj e)]; rfl)
        rw [Bool.and_eq_false_iff]
        exact .inl (decide_eq_false hfirst)
  unfold unsigned?
  simp only [htake, hdrop, hne, hzero, Bool.or_self, Bool.false_eq_true, if_false,
    digitsOf_digitBytes hsmall]

/-- The first byte of a number is a digit or the sign. -/
lemma word?_of_head {b : UInt8} {w : Bytes} (h : isDigit b = true ∨ b = 0x2d) :
    word? (b :: w) = number? (b :: w) := by
  have hnull : Bytes.ofText "null" = [0x6e, 0x75, 0x6c, 0x6c] := by decide
  have htrue : Bytes.ofText "true" = [0x74, 0x72, 0x75, 0x65] := by decide
  have hfalse : Bytes.ofText "false" = [0x66, 0x61, 0x6c, 0x73, 0x65] := by decide
  have hne : b ≠ 0x6e ∧ b ≠ 0x74 ∧ b ≠ 0x66 := by
    rcases h with h | rfl
    · refine ⟨?_, ?_, ?_⟩ <;> rintro rfl <;> cases h
    · decide
  rw [word?, hnull, htrue, hfalse]
  simp [hne]

/-- An integer of 64 bits, with or without sign, is read back. -/
lemma word?_writeInt {n : Int} (hlow : -0x8000000000000000 ≤ n) (hhigh : n < UInt64.size) :
    word? (Bytes.ofText (writeInt n)) = some (.int n) := by
  have hsize : UInt64.size = 18446744073709551616 := rfl
  have hrow : takeDigits 0 (Text.row n.natAbs) = (n.natAbs, 0) := takeDigits_row (by omega)
  unfold writeInt
  split
  · next hneg =>
    have hminus : Bytes.ofText "-" = [0x2d] := by decide
    have hbound : 0 < n.natAbs ∧ n.natAbs ≤ 0x8000000000000000 := by omega
    rw [Bytes.ofText_append, hminus, List.singleton_append, word?_of_head (.inr rfl),
      Text.ofText_decimal]
    change unsigned? true (digitBytes _) = _
    rw [unsigned?_row, ofDigits, hrow]
    simp only [if_true, if_pos hbound]
    congr 2
    omega
  · next hpos =>
    have hnumber : number? (digitBytes (Text.row n.natAbs)) =
        unsigned? false (digitBytes (Text.row n.natAbs)) := by
      cases hr : Text.row n.natAbs with
      | nil => exact absurd hr (Text.row_ne_nil _)
      | cons d ds =>
        have hd : d < 10 := Text.lt_of_mem_row (hr ▸ List.mem_cons_self)
        have hbyte : ∀ d < 10, UInt8.ofNat (0x30 + d) ≠ 0x2d := by decide
        rw [digitBytes, List.map_cons, number?]
        intro rest e
        exact hbyte d hd (List.cons.inj e).1
    have hword : word? (digitBytes (Text.row n.natAbs)) =
        number? (digitBytes (Text.row n.natAbs)) := by
      cases hr : Text.row n.natAbs with
      | nil => exact absurd hr (Text.row_ne_nil _)
      | cons d ds =>
        exact word?_of_head (.inl (digit_byte d (Text.lt_of_mem_row (hr ▸ List.mem_cons_self))).1)
    rw [Text.ofText_decimal]
    change word? (digitBytes _) = _
    rw [hword, hnumber, unsigned?_row, ofDigits, hrow]
    simp only [Bool.false_eq_true, if_false]
    congr 2
    omega

/-- What may follow a word. -/
def Ends (rest : Bytes) : Prop := ∀ b ∈ rest.head?, endsWord b = true

lemma enter_of_not_endsWord {b : UInt8} (h : endsWord b = false) (out : List Token) :
    enter b out = (.word [b], out) := by
  simp only [endsWord, Bool.or_eq_false_iff, decide_eq_false_iff_not] at h
  obtain ⟨⟨hspace, hquote⟩, hpunct⟩ := h
  have hnone : punctuation? b = none := by simpa using hpunct
  simp [enter, hspace, hquote, hnone]

lemma scan?_in_word {w rest : Bytes} (hw : ∀ b ∈ w, endsWord b = false) (held : Bytes)
    (out : List Token) :
    scan? (.word held) out (w ++ rest) = scan? (.word (w.reverse ++ held)) out rest := by
  induction w generalizing held with
  | nil => rfl
  | cons b w ih =>
    rw [List.cons_append, scan?, step, hw b List.mem_cons_self]
    simp only [Bool.false_eq_true, if_false]
    rw [ih fun c hc => hw c (List.mem_cons_of_mem _ hc), List.reverse_cons, List.append_assoc]
    rfl

/-- A word is read up to what ends it. -/
lemma scan?_word {w rest : Bytes} {j : Json} (hne : w ≠ []) (hw : ∀ b ∈ w, endsWord b = false)
    (hj : word? w = some j) (hrest : Ends rest) (out : List Token) :
    scan? .between out (w ++ rest) = scan? .between (.word j :: out) rest := by
  cases w with
  | nil => exact absurd rfl hne
  | cons b w =>
    have hheld : (w.reverse ++ [b]).reverse = b :: w := by simp
    rw [List.cons_append, scan?, step, enter_of_not_endsWord (hw b List.mem_cons_self)]
    simp only
    rw [scan?_in_word fun c hc => hw c (List.mem_cons_of_mem _ hc)]
    cases rest with
    | nil => simp only [scan?, hheld, hj, Option.map_some]
    | cons c rest =>
      have hc : endsWord c = true := hrest c (by simp)
      simp only [scan?, step, hc, if_true, hheld, hj, Option.map_some]

/-! ### Quoted texts -/

/-- The bytes of a character between quotes. -/
def escaped (c : Char) : Bytes := (escapeChar c).flatMap String.utf8EncodeChar

/-- A byte that stands for itself between quotes. -/
def IsBare (b : UInt8) : Prop := b ≠ 0x22 ∧ b ≠ 0x5c ∧ ¬ b < 0x20

instance (b : UInt8) : Decidable (IsBare b) := inferInstanceAs (Decidable (_ ∧ _))

/-- The three ways in which a character is written. -/
inductive Spells : Char → Bytes → Prop
  | letter {c : Char} (letter b : UInt8) (letter_ne : letter ≠ 0x75)
      (escapes : escapedByte? letter = some b) (char_eq : String.utf8EncodeChar c = [b]) :
      Spells c [0x5c, letter]
  | unit {c : Char} {high low : UInt8} (char_lt : c.toNat < 0x20)
      (unit_eq : unit? 0x30 0x30 high low = some c.toNat) (bare : IsBare high ∧ IsBare low) :
      Spells c [0x5c, 0x75, 0x30, 0x30, high, low]
  | bare {c : Char} (bare : ∀ b ∈ String.utf8EncodeChar c, IsBare b) :
      Spells c (String.utf8EncodeChar c)

lemma bare_of_ascii {c : Char} (hc : c.toNat < 128) (hlow : 0x20 ≤ c.toNat) (hquote : c ≠ '"')
    (hslash : c ≠ '\\') : ∀ b ∈ String.utf8EncodeChar c, IsBare b := by
  have hbyte : (UInt8.ofNat c.toNat).toNat = c.toNat := by
    rw [UInt8.toNat_ofNat']
    omega
  have hchar : ∀ d : Char, c ≠ d → c.toNat ≠ d.toNat := fun d hne e =>
    hne (Char.ext (UInt32.toNat_inj.1 e))
  rw [Bytes.utf8EncodeChar_of_lt hc]
  intro b hb
  rw [List.mem_singleton.1 hb]
  refine ⟨fun e => hchar _ hquote ?_, fun e => hchar _ hslash ?_, fun h => ?_⟩
  · rw [← hbyte, e]
    rfl
  · rw [← hbyte, e]
    rfl
  · have h' : (UInt8.ofNat c.toNat).toNat < 0x20 := UInt8.lt_iff_toNat_lt.1 h
    omega

lemma bare_of_wide {c : Char} (hc : 128 ≤ c.toNat) : ∀ b ∈ String.utf8EncodeChar c, IsBare b := by
  intro b hb
  have hb' := Bytes.le_of_mem_utf8EncodeChar hc hb
  refine ⟨?_, ?_, fun h => ?_⟩
  · rintro rfl
    exact absurd hb' (by decide)
  · rintro rfl
    exact absurd hb' (by decide)
  · have h' : b.toNat < 0x20 := UInt8.lt_iff_toNat_lt.1 h
    omega

/-- A control character by its letter, or by its number of two digits. -/
lemma spells_control : ∀ n < 0x20, Spells (Char.ofNat n) (escaped (Char.ofNat n)) := by
  have hletter : ∀ n < 0x20, (n = 0x08 ∨ n = 0x09 ∨ n = 0x0a ∨ n = 0x0c ∨ n = 0x0d) ∨
      escaped (Char.ofNat n) = [0x5c, 0x75, 0x30, 0x30,
        UInt8.ofNat (Text.Hex.digit (n / 16)).toNat, UInt8.ofNat (Text.Hex.digit (n % 16)).toNat] := by
    decide
  have hunit : ∀ n < 0x20, unit? 0x30 0x30 (UInt8.ofNat (Text.Hex.digit (n / 16)).toNat)
        (UInt8.ofNat (Text.Hex.digit (n % 16)).toNat) = some n ∧
      IsBare (UInt8.ofNat (Text.Hex.digit (n / 16)).toNat) ∧
      IsBare (UInt8.ofNat (Text.Hex.digit (n % 16)).toNat) ∧ (Char.ofNat n).toNat = n := by
    decide
  intro n hn
  rcases hletter n hn with (rfl | rfl | rfl | rfl | rfl) | h
  · exact .letter 0x62 0x08 (by decide) rfl (by decide)
  · exact .letter 0x74 0x09 (by decide) rfl (by decide)
  · exact .letter 0x6e 0x0a (by decide) rfl (by decide)
  · exact .letter 0x66 0x0c (by decide) rfl (by decide)
  · exact .letter 0x72 0x0d (by decide) rfl (by decide)
  · obtain ⟨hval, hhigh, hlow, hchar⟩ := hunit n hn
    rw [h]
    exact .unit (by rw [hchar]; exact hn) (by rw [hchar]; exact hval) ⟨hhigh, hlow⟩

/-- Every other character stands for itself. -/
lemma escapeChar_self {c : Char} (hquote : c ≠ '"') (hslash : c ≠ '\\') (hlow : ¬ c.toNat < 0x20) :
    escapeChar c = [c] := by
  have hne : ∀ d : Char, d.toNat < 0x20 → c ≠ d := by
    rintro d hd rfl
    exact hlow hd
  rw [escapeChar, if_neg hquote, if_neg hslash, if_neg (by omega), if_neg (by omega),
    if_neg (hne _ (by decide)), if_neg (hne _ (by decide)), if_neg (hne _ (by decide)), if_neg hlow]

lemma spells_escaped (c : Char) : Spells c (escaped c) := by
  by_cases hquote : c = '"'
  · subst hquote
    exact .letter 0x22 0x22 (by decide) rfl (by decide)
  by_cases hslash : c = '\\'
  · subst hslash
    exact .letter 0x5c 0x5c (by decide) rfl (by decide)
  by_cases hlow : c.toNat < 0x20
  · have h := spells_control c.toNat hlow
    rwa [Char.ofNat_toNat] at h
  · rw [escaped, escapeChar_self hquote hslash hlow, List.flatMap_singleton]
    by_cases hc : c.toNat < 128
    · exact .bare (bare_of_ascii hc (Nat.le_of_not_lt hlow) hquote hslash)
    · exact .bare (bare_of_wide (Nat.le_of_not_lt hc))

lemma scan?_bare {w : Bytes} (hw : ∀ b ∈ w, IsBare b) (held rest : Bytes) (out : List Token) :
    scan? (.quoted held) out (w ++ rest) = scan? (.quoted (w.reverse ++ held)) out rest := by
  induction w generalizing held with
  | nil => rfl
  | cons b w ih =>
    obtain ⟨hquote, hslash, hlow⟩ := hw b List.mem_cons_self
    rw [List.cons_append, scan?, step, if_neg hquote, if_neg hslash, if_neg hlow]
    simp only
    rw [ih fun c hc => hw c (List.mem_cons_of_mem _ hc), List.reverse_cons, List.append_assoc]
    rfl

/-- A backslash and what follows it. -/
lemma scan?_slash (b : UInt8) (held rest : Bytes) (out : List Token) :
    scan? (.quoted held) out (0x5c :: b :: rest) = scan? (.quoted (b :: 0x5c :: held)) out rest := by
  rw [scan?, step, if_neg (by decide), if_pos rfl]
  rfl

lemma Spells.scan? {c : Char} {w : Bytes} (h : Spells c w) (held rest : Bytes) (out : List Token) :
    Token.scan? (.quoted held) out (w ++ rest) =
      Token.scan? (.quoted (w.reverse ++ held)) out rest := by
  cases h with
  | letter letter b => exact scan?_slash letter held rest out
  | @unit high low _ _ hbare =>
    have hfour : ∀ b ∈ [0x30, 0x30, high, low], IsBare b := by
      intro b hb
      simp only [List.mem_cons, List.not_mem_nil, or_false] at hb
      rcases hb with rfl | rfl | rfl | rfl
      · decide
      · decide
      · exact hbare.1
      · exact hbare.2
    have hrest := scan?_bare hfour (0x75 :: 0x5c :: held) rest out
    exact (scan?_slash 0x75 held _ out).trans hrest
  | bare hbare => exact scan?_bare hbare held rest out

lemma scan?_content (cs : List Char) (held rest : Bytes) (out : List Token) :
    scan? (.quoted held) out (cs.flatMap escaped ++ rest) =
      scan? (.quoted ((cs.flatMap escaped).reverse ++ held)) out rest := by
  induction cs generalizing held with
  | nil => rfl
  | cons c cs ih =>
    rw [List.flatMap_cons, List.append_assoc, (spells_escaped c).scan?, ih, List.reverse_append,
      List.append_assoc]

lemma pieces?_bare {w : Bytes} (hw : ∀ b ∈ w, IsBare b) (done : List Piece) (rest : Bytes) :
    pieces? done (w ++ rest) = pieces? ((w.map Piece.byte).reverse ++ done) rest := by
  induction w generalizing done with
  | nil => rfl
  | cons b w ih =>
    have hslash := (hw b List.mem_cons_self).2.1
    rw [List.cons_append, pieces?, ih fun c hc => hw c (List.mem_cons_of_mem _ hc), List.map_cons,
      List.reverse_cons, List.append_assoc]
    · rfl
    all_goals
      intros
      exact hslash ‹_›

lemma encode?_bytes (w held : Bytes) (more : List Piece) :
    encode? held (w.map Piece.byte ++ more) = encode? (w.reverse ++ held) more := by
  induction w generalizing held with
  | nil => rfl
  | cons b w ih =>
    rw [List.map_cons, List.cons_append, encode?, ih, List.reverse_cons, List.append_assoc]
    rfl

/-- A unit that is no surrogate is its character, whatever comes next. -/
lemma encode?_unit {u : Nat} (hu : u < 0x20) (held : Bytes) (more : List Piece) :
    encode? held (.unit u :: more) =
      encode? ((String.utf8EncodeChar (Char.ofNat u)).reverse ++ held) more := by
  have hhigh : isHighSurrogate u = false := by
    simp only [isHighSurrogate, Bool.and_eq_false_iff, decide_eq_false_iff_not]
    omega
  have hlow : isLowSurrogate u = false := by
    simp only [isLowSurrogate, Bool.and_eq_false_iff, decide_eq_false_iff_not]
    omega
  cases more with
  | nil => simp [encode?, hhigh, hlow]
  | cons piece more => cases piece <;> simp [encode?, hhigh, hlow]

/-- The pieces of a written character are its bytes. -/
lemma Spells.exists_pieces {c : Char} {w : Bytes} (h : Spells c w) :
    ∃ pieces, (∀ done rest, pieces? done (w ++ rest) = pieces? (pieces.reverse ++ done) rest) ∧
      ∀ held more, encode? held (pieces ++ more) =
        encode? ((String.utf8EncodeChar c).reverse ++ held) more := by
  cases h with
  | letter letter b hne hesc hchar =>
    refine ⟨[.byte b], fun done rest => ?_, fun held more => ?_⟩
    · rw [List.cons_append, List.cons_append, List.nil_append, pieces?, hesc]
      · rfl
      · intros
        exact hne ‹_›
    · rw [hchar]
      rfl
  | @unit high low hlt hunit =>
    refine ⟨[.unit c.toNat], fun done rest => ?_, fun held more => ?_⟩
    · simp only [List.cons_append, List.nil_append, pieces?, hunit]
      rfl
    · rw [List.cons_append, List.nil_append, encode?_unit hlt, Char.ofNat_toNat]
  | bare hbare =>
    exact ⟨_, fun done rest => pieces?_bare hbare done rest, fun held more => encode?_bytes _ held more⟩

lemma exists_pieces_content (cs : List Char) :
    ∃ pieces, (∀ done, pieces? done (cs.flatMap escaped) = some (done.reverse ++ pieces)) ∧
      ∀ held, encode? held pieces = some (held.reverse ++ cs.flatMap String.utf8EncodeChar) := by
  induction cs with
  | nil => exact ⟨[], fun done => by simp [pieces?], fun held => by simp [encode?]⟩
  | cons c cs ih =>
    obtain ⟨first, hpieces, hencode⟩ := (spells_escaped c).exists_pieces
    obtain ⟨more, hpieces', hencode'⟩ := ih
    refine ⟨first ++ more, fun done => ?_, fun held => ?_⟩
    · rw [List.flatMap_cons, hpieces, hpieces', List.reverse_append, List.reverse_reverse,
        List.append_assoc]
    · rw [hencode, hencode', List.reverse_append, List.reverse_reverse, List.flatMap_cons,
        List.append_assoc]

/-- The content of a written text is the text. -/
lemma literal?_content (s : String) : literal? (s.toList.flatMap escaped) = some (some s) := by
  obtain ⟨pieces, hpieces, hencode⟩ := exists_pieces_content s.toList
  have hbytes : s.toList.flatMap String.utf8EncodeChar = Bytes.ofText s := by
    rw [← Bytes.ofText_ofList, String.ofList_toList]
  rw [literal?, hpieces, Option.map_some, List.reverse_nil, List.nil_append, hencode, Option.bind_some,
    List.reverse_nil, List.nil_append, hbytes, Bytes.toText?_ofText]

lemma ofText_quote (s : String) :
    Bytes.ofText (quote s) = 0x22 :: s.toList.flatMap escaped ++ [0x22] := by
  have hquote : String.utf8EncodeChar '"' = [0x22] := by decide
  rw [quote, Bytes.ofText_ofList, List.flatMap_append, List.flatMap_cons, hquote, List.flatMap_assoc,
    List.flatMap_singleton, hquote]
  rfl

lemma scan?_quote (s : String) (rest : Bytes) (out : List Token) :
    scan? .between out (Bytes.ofText (quote s) ++ rest) =
      scan? .between (.quoted (some s) :: out) rest := by
  have henter : enter 0x22 out = (.quoted [], out) := rfl
  rw [ofText_quote, List.cons_append, List.cons_append, scan?, step, henter, List.append_assoc]
  simp only
  rw [scan?_content, List.append_nil, List.singleton_append, scan?, step, if_pos rfl,
    List.reverse_reverse, literal?_content]
  rfl

end Token

end ForkTree.Json
