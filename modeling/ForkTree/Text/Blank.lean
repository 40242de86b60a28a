/-!
Blank characters. A character is blank when it has the Unicode property White_Space, which is
wider than the six characters that the core library calls whitespace (`isBlank_of_isWhitespace`).
`trim` drops the blanks at both ends of a text.
-/

namespace ForkTree.Text

/-- The characters with the property White_Space, as ranges with both ends included. -/
def blankRanges : List (Nat × Nat) :=
  [(0x09, 0x0d), (0x20, 0x20), (0x85, 0x85), (0xa0, 0xa0), (0x1680, 0x1680), (0x2000, 0x200a),
    (0x2028, 0x2029), (0x202f, 0x202f), (0x205f, 0x205f), (0x3000, 0x3000)]

def isBlank (c : Char) : Bool :=
  blankRanges.any fun (low, high) => low ≤ c.toNat && c.toNat ≤ high

/-- The text without the blanks at its ends. -/
def trim (s : String) : String :=
  String.ofList ((s.toList.dropWhile isBlank).reverse.dropWhile isBlank).reverse

/-- Nothing but blanks. -/
def isBlankText (s : String) : Bool := s.toList.all isBlank

theorem isBlank_of_isWhitespace {c : Char} (h : c.isWhitespace = true) : isBlank c = true := by
  simp only [Char.isWhitespace, Bool.or_eq_true, decide_eq_true_eq] at h
  rcases h with ((h | h) | h) | h <;> subst h <;> decide

/-- The property has twenty-five characters. -/
example : (blankRanges.map fun (low, high) => high + 1 - low).sum = 25 := rfl

/-- The ranges are in order and do not touch. -/
example : blankRanges.Pairwise fun a b => a.2 + 1 < b.1 := by decide

end ForkTree.Text
