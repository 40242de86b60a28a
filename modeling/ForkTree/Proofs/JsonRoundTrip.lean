import ForkTree.Json.Decode
import ForkTree.Json.Reader
import ForkTree.Proofs.JsonTokens

/-!
Reading undoes writing. A value is plain if it holds no double and nothing unreadable; the text of a plain
value is read back as that value, on one line (`read?_compact`) as on many (`read?_pretty`). The two texts
differ in their blanks alone, so both are layouts (`Layout`), and the proof is about any layout. It follows
the value. Each part is written as a row of tokens (`Writes`), which the lexer finds wherever the text
stands, as long as something that ends a word comes next, and which the reader takes for the part whatever
is open around it.
-/

namespace ForkTree.Json

/-- Values whose text is theirs alone: integers of 64 bits, texts, and what is made of them. -/
inductive Plain : Json → Prop
  | null : Plain .null
  | bool (b : Bool) : Plain (.bool b)
  | int {n : Int} (low : -0x8000000000000000 ≤ n) (high : n < UInt64.size) : Plain (.int n)
  | text (s : String) : Plain (.text s)
  | array {items : List Json} (items_plain : ∀ j ∈ items, Plain j) : Plain (.array items)
  | object {members : List (String × Json)} (members_plain : ∀ m ∈ members, Plain m.2) :
      Plain (.object members)

open Token Reader

/-- The bytes are lexed as the tokens, and the tokens are read as the value, inside an array that has
just been opened as anywhere else. -/
structure Writes (w : Bytes) (tokens : List Token) (j : Json) : Prop where
  scan_eq : ∀ rest out, Ends rest →
    scan? .between out (w ++ rest) = scan? .between (tokens.reverse ++ out) rest
  run_value : ∀ outer more, run (.value outer) (tokens ++ more) = run (deliver j outer) more
  run_first : ∀ outer more,
    run (.firstItem outer) (tokens ++ more) = run (deliver j (.array [] :: outer)) more

lemma ends_nil : Ends [] := by
  intro b hb
  cases hb

lemma ends_cons {b : UInt8} (h : endsWord b = true) (rest : Bytes) : Ends (b :: rest) := by
  intro c hc
  cases hc
  exact h

lemma scan?_mark {b : UInt8} {t : Token} (h : punctuation? b = some t) (hspace : isSpace b = false)
    (hquote : b ≠ 0x22) (rest : Bytes) (out : List Token) :
    scan? .between out (b :: rest) = scan? .between (t :: out) rest := by
  rw [scan?, Token.step, enter]
  simp only [hspace, hquote, h, Bool.false_eq_true, if_false]

lemma scan?_comma (rest : Bytes) (out : List Token) :
    scan? .between out (0x2c :: rest) = scan? .between (.comma :: out) rest :=
  scan?_mark (t := .comma) rfl rfl (by decide) rest out

lemma writes_word {w : Bytes} {j : Json} (hne : w ≠ []) (hw : ∀ b ∈ w, endsWord b = false)
    (hj : word? w = some j) : Writes w [.word j] j where
  scan_eq _ out hrest := scan?_word hne hw hj hrest out
  run_value _ _ := rfl
  run_first _ _ := rfl

lemma not_endsWord_of_any {w : Bytes} (h : w.any endsWord = false) : ∀ b ∈ w, endsWord b = false :=
  fun b hb => Bool.eq_false_iff.2 (List.any_eq_false.1 h b hb)

lemma writes_null : Writes (Bytes.ofText "null") [.word .null] .null := by
  have hbytes : Bytes.ofText "null" = [0x6e, 0x75, 0x6c, 0x6c] := by decide
  have hword : word? (Bytes.ofText "null") = some .null := by
    rw [word?, if_pos rfl]
  rw [hbytes] at hword ⊢
  exact writes_word (by decide) (not_endsWord_of_any rfl) hword

lemma writes_true : Writes (Bytes.ofText "true") [.word (.bool true)] (.bool true) := by
  have hbytes : Bytes.ofText "true" = [0x74, 0x72, 0x75, 0x65] := by decide
  have hword : word? (Bytes.ofText "true") = some (.bool true) := by
    rw [word?, if_neg (by decide), if_pos rfl]
  rw [hbytes] at hword ⊢
  exact writes_word (by decide) (not_endsWord_of_any rfl) hword

lemma writes_false : Writes (Bytes.ofText "false") [.word (.bool false)] (.bool false) := by
  have hbytes : Bytes.ofText "false" = [0x66, 0x61, 0x6c, 0x73, 0x65] := by decide
  have hword : word? (Bytes.ofText "false") = some (.bool false) := by
    rw [word?, if_neg (by decide), if_neg (by decide), if_pos rfl]
  rw [hbytes] at hword ⊢
  exact writes_word (by decide) (not_endsWord_of_any rfl) hword

lemma writes_int {n : Int} (hlow : -0x8000000000000000 ≤ n) (hhigh : n < UInt64.size) :
    Writes (Bytes.ofText (writeInt n)) [.word (.int n)] (.int n) := by
  have hminus : Bytes.ofText "-" = [0x2d] := by decide
  have hdigits : ∀ b ∈ Bytes.ofText (Text.decimal n.natAbs), endsWord b = false := by
    intro b hb
    rw [Text.ofText_decimal] at hb
    obtain ⟨d, hd, rfl⟩ := List.mem_map.1 hb
    exact (digit_byte d (Text.lt_of_mem_row hd)).2.2
  have hdigits_ne : Bytes.ofText (Text.decimal n.natAbs) ≠ [] := by
    rw [Text.ofText_decimal]
    exact fun h => Text.row_ne_nil _ (List.map_eq_nil_iff.1 h)
  refine writes_word ?_ ?_ (word?_writeInt hlow hhigh)
  · rw [writeInt]
    split
    · rw [Bytes.ofText_append, hminus]
      exact List.cons_ne_nil _ _
    · exact hdigits_ne
  · rw [writeInt]
    split
    · intro b hb
      rw [Bytes.ofText_append, hminus, List.singleton_append] at hb
      rcases List.mem_cons.1 hb with rfl | hb
      · rfl
      · exact hdigits b hb
    · exact hdigits

lemma writes_text (s : String) :
    Writes (Bytes.ofText (quote s)) [.quoted (some s)] (.text s) where
  scan_eq rest out _ := scan?_quote s rest out
  run_value _ _ := rfl
  run_first _ _ := rfl

/-- Bytes that mean nothing between two tokens. -/
def Blank (w : Bytes) : Prop := ∀ b ∈ w, isSpace b = true

lemma blank_nil : Blank [] := fun _ hb => nomatch hb

lemma scan?_blank {w : Bytes} (h : Blank w) (rest : Bytes) (out : List Token) :
    scan? .between out (w ++ rest) = scan? .between out rest := by
  induction w with
  | nil => rfl
  | cons b w ih =>
    rw [List.cons_append, scan?, Token.step, enter, if_pos (h b List.mem_cons_self)]
    exact ih fun c hc => h c (List.mem_cons_of_mem _ hc)

lemma ends_blank {gap : Bytes} (hgap : Blank gap) {b : UInt8} (hb : endsWord b = true) (rest : Bytes) :
    Ends (gap ++ b :: rest) := by
  cases gap with
  | nil => exact ends_cons hb rest
  | cons c gap =>
    refine ends_cons ?_ _
    rw [endsWord, hgap c List.mem_cons_self]
    rfl

/-- Blanks in front of a value are no part of it. -/
lemma Writes.behind_blank {gap w : Bytes} {tokens : List Token} {j : Json} (hgap : Blank gap)
    (h : Writes w tokens j) : Writes (gap ++ w) tokens j where
  scan_eq rest out hrest := by rw [List.append_assoc, scan?_blank hgap, h.scan_eq rest out hrest]
  run_value := h.run_value
  run_first := h.run_first

/-- The parts of a container behind the first, each with its comma. -/
def behindFirst {α : Type} (part : α → Bytes) (parts : List α) : Bytes :=
  parts.flatMap fun p => 0x2c :: part p

lemma behindFirst_cons {α : Type} (part : α → Bytes) (p : α) (parts : List α) (rest : Bytes) :
    behindFirst part (p :: parts) ++ rest = 0x2c :: (part p ++ (behindFirst part parts ++ rest)) := by
  rw [behindFirst, List.flatMap_cons, behindFirst, List.cons_append, List.cons_append, List.append_assoc]

lemma ends_behindFirst {α : Type} (part : α → Bytes) (parts : List α) {gap : Bytes} (hgap : Blank gap)
    {b : UInt8} (hb : endsWord b = true) (rest : Bytes) :
    Ends (behindFirst part parts ++ (gap ++ b :: rest)) := by
  cases parts with
  | nil => exact ends_blank hgap hb rest
  | cons p parts =>
    rw [behindFirst_cons]
    exact ends_cons rfl _

section Arrays

variable {item : Json → Bytes} {gap : Bytes}

/-- The items behind the first, and the bracket that closes the array. -/
lemma exists_writes_items {items : List Json} (hgap : Blank gap)
    (h : ∀ j ∈ items, ∃ tokens, Writes (item j) tokens j) :
    ∃ tokens, (∀ rest out, scan? .between out (behindFirst item items ++ (gap ++ 0x5d :: rest)) =
        scan? .between (tokens.reverse ++ out) rest) ∧
      ∀ held outer more, run (.afterItem held outer) (tokens ++ more) =
        run (deliver (.array (held.reverse ++ items)) outer) more := by
  induction items with
  | nil =>
    refine ⟨[.closeArray], fun rest out => ?_, fun held outer more => ?_⟩
    · exact (scan?_blank hgap _ _).trans (scan?_mark (t := .closeArray) rfl rfl (by decide) rest out)
    · rw [List.append_nil]
      rfl
  | cons j items ih =>
    obtain ⟨tokens, hj⟩ := h j List.mem_cons_self
    obtain ⟨behind, hscan, hrun⟩ := ih fun i hi => h i (List.mem_cons_of_mem _ hi)
    refine ⟨.comma :: (tokens ++ behind), fun rest out => ?_, fun held outer more => ?_⟩
    · rw [behindFirst_cons, scan?_comma, hj.scan_eq _ _ (ends_behindFirst _ _ hgap rfl _), hscan]
      simp
    · rw [List.cons_append, run, Reader.step]
      simp only
      rw [List.append_assoc, hj.run_value, deliver, hrun, List.reverse_cons, List.append_assoc]
      rfl

lemma scan?_openArray (rest : Bytes) (out : List Token) :
    scan? .between out (0x5b :: rest) = scan? .between (.openArray :: out) rest :=
  scan?_mark (t := .openArray) rfl rfl (by decide) rest out

lemma writes_array_nil : Writes [0x5b, 0x5d] [.openArray, .closeArray] (.array []) where
  scan_eq rest out _ :=
    (scan?_openArray _ _).trans (scan?_mark (t := .closeArray) rfl rfl (by decide) rest _)
  run_value _ _ := rfl
  run_first _ _ := rfl

lemma exists_writes_array {j : Json} {items : List Json} (hgap : Blank gap)
    (h : ∀ i ∈ j :: items, ∃ tokens, Writes (item i) tokens i) :
    ∃ tokens, Writes (0x5b :: (item j ++ (behindFirst item items ++ (gap ++ [0x5d])))) tokens
      (.array (j :: items)) := by
  obtain ⟨tokens, hj⟩ := h j List.mem_cons_self
  obtain ⟨behind, hscan, hrun⟩ := exists_writes_items hgap fun i hi => h i (List.mem_cons_of_mem _ hi)
  have hrun_first : ∀ outer more, run (.firstItem outer) (tokens ++ behind ++ more) =
      run (deliver (.array (j :: items)) outer) more := by
    intro outer more
    rw [List.append_assoc, hj.run_first, deliver, hrun]
    rfl
  refine ⟨.openArray :: (tokens ++ behind), fun rest out _ => ?_, fun outer more => ?_,
    fun outer more => ?_⟩
  · rw [List.cons_append, scan?_openArray, List.append_assoc, List.append_assoc, List.append_assoc,
      List.singleton_append, hj.scan_eq _ _ (ends_behindFirst _ _ hgap rfl _), hscan]
    simp
  · exact hrun_first outer more
  · exact hrun_first (.array [] :: outer) more

end Arrays

/-- Elements that are written one by one and each read back. -/
lemma mapM_map_eq_some {α β γ : Type} {write : α → β} {read : β → Option γ} {value : α → γ} {l : List α}
    (h : ∀ a ∈ l, read (write a) = some (value a)) : (l.map write).mapM read = some (l.map value) := by
  induction l with
  | nil => rfl
  | cons a l ih =>
    rw [List.map_cons, List.mapM_cons, h a List.mem_cons_self, ih fun b hb => h b (List.mem_cons_of_mem _ hb)]
    rfl

/-- Finished members as the reader holds them. -/
def heldMembers (members : List (String × Json)) : List (Option String × Json) :=
  (members.map fun m => (some m.1, m.2)).reverse

lemma closeObject_heldMembers (members : List (String × Json)) :
    Reader.closeObject (heldMembers members) = .object members := by
  have hnames : (members.map fun m => (some m.1, m.2)).mapM
      (fun (m : Option String × Json) => m.1.map (·, m.2)) = some (members.map id) :=
    mapM_map_eq_some fun _ _ => rfl
  rw [Reader.closeObject, heldMembers, List.reverse_reverse]
  simp only [hnames, List.map_id]

/-- A member: its name, a colon and its value. -/
def memberBytes (gap : Bytes) (value : Json → Bytes) (m : String × Json) : Bytes :=
  gap ++ (Bytes.ofText (quote m.1) ++ 0x3a :: value m.2)

section Objects

variable {value : Json → Bytes} {gap nameGap : Bytes}

lemma writes_member (hname : Blank nameGap) (m : String × Json) {tokens : List Token}
    (hj : Writes (value m.2) tokens m.2) :
    (∀ rest out, Ends rest → scan? .between out (memberBytes nameGap value m ++ rest) =
      scan? .between (tokens.reverse ++ .colon :: .quoted (some m.1) :: out) rest) ∧
      ∀ held outer more, run (.colon (heldMembers held) (some m.1) outer) (.colon :: (tokens ++ more)) =
        run (.afterMember (heldMembers (held ++ [m])) outer) more := by
  refine ⟨fun rest out hrest => ?_, fun held outer more => ?_⟩
  · rw [memberBytes, List.append_assoc, scan?_blank hname, List.append_assoc, scan?_quote,
      List.cons_append, scan?_mark (t := .colon) rfl rfl (by decide), hj.scan_eq _ _ hrest]
  · rw [run, Reader.step]
    simp only
    rw [hj.run_value, deliver, heldMembers, heldMembers]
    simp

/-- The members behind the first, and the brace that closes the object. -/
lemma exists_writes_members {members : List (String × Json)} (hname : Blank nameGap) (hgap : Blank gap)
    (h : ∀ m ∈ members, ∃ tokens, Writes (value m.2) tokens m.2) :
    ∃ tokens, (∀ rest out, scan? .between out
          (behindFirst (memberBytes nameGap value) members ++ (gap ++ 0x7d :: rest)) =
        scan? .between (tokens.reverse ++ out) rest) ∧
      ∀ held outer more, run (.afterMember (heldMembers held) outer) (tokens ++ more) =
        run (deliver (.object (held ++ members)) outer) more := by
  induction members with
  | nil =>
    refine ⟨[.closeObject], fun rest out => ?_, fun held outer more => ?_⟩
    · exact (scan?_blank hgap _ _).trans (scan?_mark (t := .closeObject) rfl rfl (by decide) rest out)
    · rw [List.append_nil, List.singleton_append, run, Reader.step]
      simp only
      rw [closeObject_heldMembers]
  | cons m members ih =>
    obtain ⟨tokens, hj⟩ := h m List.mem_cons_self
    obtain ⟨behind, hscan, hrun⟩ := ih fun i hi => h i (List.mem_cons_of_mem _ hi)
    obtain ⟨hmember, hmember_run⟩ := writes_member hname m hj
    refine ⟨.comma :: .quoted (some m.1) :: .colon :: (tokens ++ behind), fun rest out => ?_,
      fun held outer more => ?_⟩
    · rw [behindFirst_cons, scan?_comma, hmember _ _ (ends_behindFirst _ _ hgap rfl _), hscan]
      simp
    · have hcomma : run (.afterMember (heldMembers held) outer)
          (.comma :: .quoted (some m.1) :: .colon :: (tokens ++ behind) ++ more) =
          run (.colon (heldMembers held) (some m.1) outer) (.colon :: (tokens ++ (behind ++ more))) := by
        rw [← List.append_assoc]
        rfl
      rw [hcomma, hmember_run, hrun, List.append_assoc]
      rfl

lemma scan?_openObject (rest : Bytes) (out : List Token) :
    scan? .between out (0x7b :: rest) = scan? .between (.openObject :: out) rest :=
  scan?_mark (t := .openObject) rfl rfl (by decide) rest out

lemma writes_object_nil : Writes [0x7b, 0x7d] [.openObject, .closeObject] (.object []) where
  scan_eq rest out _ :=
    (scan?_openObject _ _).trans (scan?_mark (t := .closeObject) rfl rfl (by decide) rest _)
  run_value _ _ := rfl
  run_first _ _ := rfl

lemma exists_writes_object {m : String × Json} {members : List (String × Json)} (hname : Blank nameGap)
    (hgap : Blank gap) (h : ∀ i ∈ m :: members, ∃ tokens, Writes (value i.2) tokens i.2) :
    ∃ tokens, Writes (0x7b :: (memberBytes nameGap value m ++
      (behindFirst (memberBytes nameGap value) members ++ (gap ++ [0x7d])))) tokens
      (.object (m :: members)) := by
  obtain ⟨tokens, hj⟩ := h m List.mem_cons_self
  obtain ⟨behind, hscan, hrun⟩ :=
    exists_writes_members hname hgap fun i hi => h i (List.mem_cons_of_mem _ hi)
  obtain ⟨hmember, hmember_run⟩ := writes_member hname m hj
  have hrun_first : ∀ outer more, run (.firstName outer)
      (.quoted (some m.1) :: .colon :: (tokens ++ behind) ++ more) =
      run (deliver (.object (m :: members)) outer) more := by
    intro outer more
    have hfirst : run (.firstName outer)
        (.quoted (some m.1) :: .colon :: (tokens ++ behind) ++ more) =
        run (.colon (heldMembers []) (some m.1) outer) (.colon :: (tokens ++ (behind ++ more))) := by
      rw [← List.append_assoc]
      rfl
    rw [hfirst, hmember_run, hrun]
    rfl
  refine ⟨.openObject :: .quoted (some m.1) :: .colon :: (tokens ++ behind),
    fun rest out _ => ?_, fun outer more => ?_, fun outer more => ?_⟩
  · rw [List.cons_append, scan?_openObject, List.append_assoc, List.append_assoc, List.append_assoc,
      List.singleton_append, hmember _ _ (ends_behindFirst _ _ hgap rfl _), hscan]
    simp
  · exact hrun_first outer more
  · exact hrun_first (.array [] :: outer) more

end Objects

/-! ### Layouts -/

/-- A way of writing values inside containers of any level. Blanks may stand in front of the parts of a
container and of the mark that closes it, and behind a colon. -/
structure Layout (text : Nat → Json → Bytes) where
  gap : Nat → Bytes
  colonGap : Bytes
  blank_gap : ∀ level, Blank (gap level)
  blank_colonGap : Blank colonGap
  text_scalar : ∀ level j, (∀ items, j ≠ .array items) → (∀ members, j ≠ .object members) →
    text level j = Bytes.ofText (writeScalar j)
  text_array_nil : ∀ level, text level (.array []) = [0x5b, 0x5d]
  text_array_cons : ∀ level j items,
    let item := fun i => gap (level + 1) ++ text (level + 1) i
    text level (.array (j :: items)) = 0x5b :: (item j ++ (behindFirst item items ++ (gap level ++ [0x5d])))
  text_object_nil : ∀ level, text level (.object []) = [0x7b, 0x7d]
  text_object_cons : ∀ level m members,
    let member := memberBytes (gap (level + 1)) fun i => colonGap ++ text (level + 1) i
    text level (.object (m :: members)) =
      0x7b :: (member m ++ (behindFirst member members ++ (gap level ++ [0x7d])))

lemma Layout.exists_writes_scalar {text : Nat → Json → Bytes} (l : Layout text) (level : Nat) {w : Bytes}
    {tokens : List Token} {j : Json} (hj : Writes w tokens j) (harray : ∀ items, j ≠ .array items)
    (hobject : ∀ members, j ≠ .object members) (hw : Bytes.ofText (writeScalar j) = w) :
    ∃ tokens, Writes (text level j) tokens j := by
  rw [l.text_scalar level j harray hobject, hw]
  exact ⟨tokens, hj⟩

lemma Plain.exists_writes {text : Nat → Json → Bytes} (l : Layout text) {j : Json} (h : Plain j)
    (level : Nat) : ∃ tokens, Writes (text level j) tokens j := by
  induction h generalizing level with
  | null => exact l.exists_writes_scalar level writes_null nofun nofun rfl
  | bool b =>
    cases b with
    | true => exact l.exists_writes_scalar level writes_true nofun nofun rfl
    | false => exact l.exists_writes_scalar level writes_false nofun nofun rfl
  | int hlow hhigh => exact l.exists_writes_scalar level (writes_int hlow hhigh) nofun nofun rfl
  | text s => exact l.exists_writes_scalar level (writes_text s) nofun nofun rfl
  | @array items _ ih =>
    cases items with
    | nil => exact ⟨_, (l.text_array_nil level).symm ▸ writes_array_nil⟩
    | cons j items =>
      have hitems : ∀ i ∈ j :: items,
          ∃ tokens, Writes (l.gap (level + 1) ++ text (level + 1) i) tokens i := by
        intro i hi
        obtain ⟨tokens, hwrites⟩ := ih i hi (level + 1)
        exact ⟨tokens, hwrites.behind_blank (l.blank_gap _)⟩
      rw [l.text_array_cons]
      exact exists_writes_array (l.blank_gap level) hitems
  | @object members _ ih =>
    cases members with
    | nil => exact ⟨_, (l.text_object_nil level).symm ▸ writes_object_nil⟩
    | cons m members =>
      have hvalues : ∀ i ∈ m :: members,
          ∃ tokens, Writes (l.colonGap ++ text (level + 1) i.2) tokens i.2 := by
        intro i hi
        obtain ⟨tokens, hwrites⟩ := ih i hi (level + 1)
        exact ⟨tokens, hwrites.behind_blank l.blank_colonGap⟩
      rw [l.text_object_cons]
      exact exists_writes_object (l.blank_gap _) (l.blank_gap level) hvalues

/-- A text of a plain value is read back as the value, however it is laid out. -/
lemma Plain.read?_eq {text : Nat → Json → Bytes} (l : Layout text) {j : Json} (h : Plain j)
    (level : Nat) : read? (text level j) = some j := by
  obtain ⟨tokens, hj⟩ := h.exists_writes l level
  have hscan : tokens? (text level j) = some tokens := by
    have hall := hj.scan_eq [] [] ends_nil
    rw [List.append_nil, List.append_nil] at hall
    rw [tokens?, hall, scan?, List.reverse_reverse]
  have hrun : run (.value []) tokens = some (.done j) := by
    have hall := hj.run_value [] []
    rwa [List.append_nil] at hall
  rw [read?, hscan, Option.bind_some, ofTokens?, hrun]

lemma ofText_empty : Bytes.ofText "" = [] := by decide

lemma ofText_comma : Bytes.ofText "," = [0x2c] := by decide

lemma ofText_colon : Bytes.ofText ":" = [0x3a] := by decide

lemma ofText_colonBlank : Bytes.ofText ": " = [0x3a, 0x20] := by decide

lemma ofText_openArray : Bytes.ofText "[" = [0x5b] := by decide

lemma ofText_closeArray : Bytes.ofText "]" = [0x5d] := by decide

lemma ofText_openObject : Bytes.ofText "\x7b" = [0x7b] := by decide

lemma ofText_closeObject : Bytes.ofText "\x7d" = [0x7d] := by decide

lemma ofText_compactItems (items : List Json) :
    Bytes.ofText (compactItems items) = behindFirst (fun j => Bytes.ofText j.compact) items := by
  induction items with
  | nil =>
    rw [compactItems, ofText_empty]
    rfl
  | cons j items ih =>
    rw [compactItems, Bytes.ofText_append, Bytes.ofText_append, ofText_comma, ih]
    rfl

lemma ofText_compactMembers (members : List (String × Json)) :
    Bytes.ofText (compactMembers members) =
      behindFirst (memberBytes [] fun j => Bytes.ofText j.compact) members := by
  induction members with
  | nil =>
    rw [compactMembers, ofText_empty]
    rfl
  | cons m members ih =>
    rw [compactMembers, Bytes.ofText_append, Bytes.ofText_append, Bytes.ofText_append,
      Bytes.ofText_append, ofText_comma, ofText_colon, ih]
    simp [behindFirst, memberBytes]

/-- All on one line. -/
def compactLayout : Layout fun _ j => Bytes.ofText j.compact where
  gap _ := []
  colonGap := []
  blank_gap _ := blank_nil
  blank_colonGap := blank_nil
  text_scalar _ j harray hobject := by
    cases j with
    | array items => exact absurd rfl (harray items)
    | object members => exact absurd rfl (hobject members)
    | _ => rfl
  text_array_nil _ := by
    rw [compact]
    decide
  text_array_cons _ j items := by
    rw [compact, Bytes.ofText_append, Bytes.ofText_append, Bytes.ofText_append, ofText_openArray,
      ofText_closeArray, ofText_compactItems]
    simp
  text_object_nil _ := by
    rw [compact]
    decide
  text_object_cons _ m members := by
    rw [compact, Bytes.ofText_append, Bytes.ofText_append, Bytes.ofText_append, Bytes.ofText_append,
      Bytes.ofText_append, ofText_openObject, ofText_closeObject, ofText_colon, ofText_compactMembers]
    simp [memberBytes]

lemma blank_newline (level : Nat) : Blank (Bytes.ofText (newline level)) := by
  have hbreak : Bytes.ofText "\n" = [0x0a] := by decide
  have hspace : String.utf8EncodeChar ' ' = [0x20] := by decide
  intro b hb
  rw [newline, Bytes.ofText_append, hbreak, Bytes.ofText_ofList, List.singleton_append, List.mem_cons,
    List.mem_flatMap] at hb
  rcases hb with rfl | ⟨c, hc, hb⟩
  · rfl
  · rw [List.eq_of_mem_replicate hc, hspace, List.mem_singleton] at hb
    rw [hb]
    rfl

lemma ofText_prettyItems (level : Nat) (items : List Json) :
    Bytes.ofText (prettyItems level items) =
      behindFirst (fun j => Bytes.ofText (newline level) ++ Bytes.ofText (prettyAt level j)) items := by
  induction items with
  | nil =>
    rw [prettyItems, ofText_empty]
    rfl
  | cons j items ih =>
    rw [prettyItems, Bytes.ofText_append, Bytes.ofText_append, Bytes.ofText_append, ofText_comma, ih]
    simp [behindFirst]

lemma ofText_prettyMembers (level : Nat) (members : List (String × Json)) :
    Bytes.ofText (prettyMembers level members) =
      behindFirst (memberBytes (Bytes.ofText (newline level)) fun j =>
        [0x20] ++ Bytes.ofText (prettyAt level j)) members := by
  induction members with
  | nil =>
    rw [prettyMembers, ofText_empty]
    rfl
  | cons m members ih =>
    rw [prettyMembers, Bytes.ofText_append, Bytes.ofText_append, Bytes.ofText_append,
      Bytes.ofText_append, Bytes.ofText_append, ofText_comma, ofText_colonBlank, ih]
    simp [behindFirst, memberBytes]

/-- A line for each part. -/
def prettyLayout : Layout fun level j => Bytes.ofText (prettyAt level j) where
  gap level := Bytes.ofText (newline level)
  colonGap := [0x20]
  blank_gap := blank_newline
  blank_colonGap := by simp [Blank, isSpace]
  text_scalar _ j harray hobject := by
    cases j with
    | array items => exact absurd rfl (harray items)
    | object members => exact absurd rfl (hobject members)
    | _ => rfl
  text_array_nil _ := by
    rw [prettyAt]
    decide
  text_array_cons level j items := by
    rw [prettyAt, Bytes.ofText_append, Bytes.ofText_append, Bytes.ofText_append, Bytes.ofText_append,
      Bytes.ofText_append, ofText_openArray, ofText_closeArray, ofText_prettyItems]
    simp
  text_object_nil _ := by
    rw [prettyAt]
    decide
  text_object_cons level m members := by
    rw [prettyAt, Bytes.ofText_append, Bytes.ofText_append, Bytes.ofText_append, Bytes.ofText_append,
      Bytes.ofText_append, Bytes.ofText_append, Bytes.ofText_append, ofText_openObject,
      ofText_closeObject, ofText_colonBlank, ofText_prettyMembers]
    simp [memberBytes]

theorem read?_compact {j : Json} (h : Plain j) : read? (Bytes.ofText j.compact) = some j :=
  h.read?_eq compactLayout 0

theorem read?_pretty {j : Json} (h : Plain j) : read? (Bytes.ofText j.pretty) = some j :=
  h.read?_eq prettyLayout 0

end ForkTree.Json
