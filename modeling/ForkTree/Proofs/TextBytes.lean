import ForkTree.Bytes
import ForkTree.Text.Decimal
import Mathlib.Tactic.Lemma

/-!
Texts as bytes. The encoding of a text is that of its characters one after the other, a character below
128 is its own byte, and any other is bytes of at least 128. A number in decimal digits is the row of
its digits (`Text.row`), which starts with a zero only if it is one (`head?_row`).
-/

namespace ForkTree

namespace Bytes

lemma ofText_ofList (cs : List Char) :
    ofText (String.ofList cs) = cs.flatMap String.utf8EncodeChar := by
  simp [ofText, List.utf8Encode]

lemma ofText_append (a b : String) : ofText (a ++ b) = ofText a ++ ofText b := by
  simp [ofText]

theorem toText?_ofText (s : String) : toText? (ofText s) = some s := by
  have hbytes : (⟨(ofText s).toArray⟩ : ByteArray) = s.toByteArray := by
    simp [ofText]
  rw [toText?, hbytes, String.fromUTF8?, dif_pos s.isValidUTF8]
  rfl

lemma utf8EncodeChar_of_lt {c : Char} (h : c.toNat < 128) :
    String.utf8EncodeChar c = [UInt8.ofNat c.toNat] := by
  have hle : c.val.toNat ≤ 0x7f := by
    change c.toNat ≤ 127
    omega
  rw [String.utf8EncodeChar, if_pos hle]
  rfl

lemma le_of_mem_utf8EncodeChar {c : Char} (h : 128 ≤ c.toNat) {b : UInt8}
    (hb : b ∈ String.utf8EncodeChar c) : 128 ≤ b.toNat := by
  have hbyte : ∀ n, 128 ≤ n → n < 256 → 128 ≤ (UInt8.ofNat n).toNat := by
    intro n hn hn'
    rw [UInt8.toNat_ofNat']
    omega
  have hgt : ¬ c.val.toNat ≤ 0x7f := by
    change ¬ c.toNat ≤ 127
    omega
  simp only [String.utf8EncodeChar, if_neg hgt] at hb
  split at hb
  · simp only [List.mem_cons, List.not_mem_nil, or_false] at hb
    rcases hb with rfl | rfl <;> exact hbyte _ (by omega) (by omega)
  · split at hb
    · simp only [List.mem_cons, List.not_mem_nil, or_false] at hb
      rcases hb with rfl | rfl | rfl <;> exact hbyte _ (by omega) (by omega)
    · simp only [List.mem_cons, List.not_mem_nil, or_false] at hb
      rcases hb with rfl | rfl | rfl | rfl <;> exact hbyte _ (by omega) (by omega)

end Bytes

namespace Text

/-- The decimal digits of a number, most significant first. -/
def row (n : Nat) : List Nat := if n < 10 then [n] else row (n / 10) ++ [n % 10]

lemma row_of_lt {n : Nat} (h : n < 10) : row n = [n] := by rw [row, if_pos h]

lemma row_of_le {n : Nat} (h : 10 ≤ n) : row n = row (n / 10) ++ [n % 10] := by
  rw [row, if_neg (Nat.not_lt.2 h)]

lemma lt_of_mem_row {n d : Nat} (h : d ∈ row n) : d < 10 := by
  induction n using Nat.strongRecOn with
  | ind n ih =>
    by_cases hn : n < 10
    · rw [row_of_lt hn, List.mem_singleton] at h
      rw [h]
      exact hn
    · rw [row_of_le (Nat.le_of_not_lt hn), List.mem_append, List.mem_singleton] at h
      rcases h with h | h
      · exact ih (n / 10) (by omega) h
      · omega

lemma row_ne_nil (n : Nat) : row n ≠ [] := by
  rw [row]
  split <;> simp

/-- A number below a power of ten has at most as many digits. -/
lemma length_row_le {n k : Nat} (h : n < Nat.pow 10 (k + 1)) : (row n).length ≤ k + 1 := by
  induction k generalizing n with
  | zero =>
    rw [row_of_lt h]
    exact Nat.le_refl 1
  | succ k ih =>
    by_cases hn : n < 10
    · rw [row_of_lt hn, List.length_singleton]
      omega
    · have hpow : Nat.pow 10 (k + 1 + 1) = Nat.pow 10 (k + 1) * 10 := rfl
      have hrest := ih (n := n / 10) (by omega)
      rw [row_of_le (Nat.le_of_not_lt hn), List.length_append, List.length_singleton]
      omega

/-- No number but zero starts with a zero. -/
lemma head?_row {n : Nat} (h : 0 < n) : (row n).head? ≠ some 0 := by
  induction n using Nat.strongRecOn with
  | ind n ih =>
    by_cases hn : n < 10
    · rw [row_of_lt hn, List.head?_cons]
      intro e
      cases e
      exact Nat.lt_irrefl _ h
    · have hrest := ih (n / 10) (by omega) (by omega)
      rw [row_of_le (Nat.le_of_not_lt hn), List.head?_append]
      cases hrow : row (n / 10) with
      | nil => exact absurd hrow (row_ne_nil _)
      | cons d ds =>
        rw [hrow] at hrest
        exact hrest

lemma ofText_decimal (n : Nat) :
    Bytes.ofText (decimal n) = (row n).map fun d => UInt8.ofNat (0x30 + d) := by
  have hdigit : ∀ d < 10, String.utf8EncodeChar d.digitChar = [UInt8.ofNat (0x30 + d)] := by decide
  rw [decimal, Bytes.ofText_ofList]
  induction n using Nat.strongRecOn with
  | ind n ih =>
    by_cases hn : n < 10
    · rw [Nat.toDigits_of_lt_base hn, row_of_lt hn, List.flatMap_singleton, hdigit n hn]
      rfl
    · rw [Nat.toDigits_of_base_le (by decide) (Nat.le_of_not_lt hn), row_of_le (Nat.le_of_not_lt hn),
        List.flatMap_append, ih (n / 10) (by omega), List.map_append, List.flatMap_singleton,
        hdigit (n % 10) (by omega)]
      rfl

end Text

end ForkTree
