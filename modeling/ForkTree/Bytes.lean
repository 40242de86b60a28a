/-!
Byte strings. Files, frames and encoded texts are lists of bytes, so that cutting, joining and
comparing them are the list operations. `le` writes a number in little-endian order with a fixed
width and `ofLe` reads one; `ofLe_le` says that reading undoes writing for numbers that fit.
-/

namespace ForkTree

abbrev Bytes := List UInt8

namespace Bytes

/-- The UTF-8 encoding of a text. -/
def ofText (s : String) : Bytes := s.toUTF8.data.toList

/-- The text that the bytes encode, if they are well-formed UTF-8. -/
def toText? (b : Bytes) : Option String := String.fromUTF8? ⟨b.toArray⟩

/-- The low `width` bytes of `n`, least significant first. -/
def le : (width : Nat) → (n : Nat) → Bytes
  | 0, _ => []
  | width + 1, n => UInt8.ofNat n :: le width (n / 256)

/-- The number whose bytes are given least significant first. -/
def ofLe : Bytes → Nat
  | [] => 0
  | b :: rest => b.toNat + 256 * ofLe rest

/-- The `len` bytes from `start` on, fewer where the string ends. -/
def slice (b : Bytes) (start len : Nat) : Bytes := (b.drop start).take len

@[simp]
theorem length_le (width n : Nat) : (le width n).length = width := by
  induction width generalizing n with
  | zero => rfl
  | succ width ih => simp [le, ih]

theorem ofLe_le (width n : Nat) : ofLe (le width n) = n % Nat.pow 256 width := by
  induction width generalizing n with
  | zero => simp [le, ofLe, Nat.mod_one]
  | succ width ih =>
    have hpow : Nat.pow 256 (width + 1) = 256 * Nat.pow 256 width := Nat.mul_comm _ _
    rw [le, ofLe, ih, UInt8.toNat_ofNat', hpow, Nat.mod_mul]

theorem le_ofLe (b : Bytes) : le b.length (ofLe b) = b := by
  induction b with
  | nil => rfl
  | cons x rest ih =>
    have hx : x.toNat < 256 := x.toNat_lt
    have hq : (x.toNat + 256 * ofLe rest) / 256 = ofLe rest := by omega
    have hr : UInt8.ofNat (x.toNat + 256 * ofLe rest) = x := by
      apply UInt8.toNat_inj.1
      rw [UInt8.toNat_ofNat']
      omega
    simp [le, ofLe, hq, hr, ih]

end Bytes

end ForkTree
