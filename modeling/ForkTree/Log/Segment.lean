import ForkTree.Digest.Basic
import ForkTree.Log.Error

/-!
Segments, the units of a log: a header of twenty-four bytes, the stored payload, and the digest of
both. The header holds a fixed mark and version, the codec, a byte without meaning, and the payload's
length before and after packing. `Header.ofBytes?` reads what `Header.toBytes` writes.
-/

namespace ForkTree.Log

/-- The four bytes `EXTL`. -/
def mark : Bytes := [0x45, 0x58, 0x54, 0x4c]

def version : Nat := 1

/-- The greatest length of a payload that a reader takes. -/
def maxPayload : Nat := 256 * 1024 * 1024

structure Header where
  codec : Codec
  rawLength : UInt64
  storedLength : UInt64
  deriving DecidableEq, Repr

namespace Header

def size : Nat := 24

def toBytes (h : Header) : Bytes :=
  mark ++ Bytes.le 2 version ++ [h.codec.toByte, 0] ++ Bytes.le 8 h.rawLength.toNat ++
    Bytes.le 8 h.storedLength.toNat

/-- Read a header off the front. An unknown codec is noticed before a wrong mark or version. -/
def ofBytes? (b : Bytes) : Except Error Header :=
  if b.length < size then .error (.corrupt .shortHeader)
  else
    match Codec.ofByte? ((b[6]?).getD 0) with
    | none => .error (.unsupported none)
    | some codec =>
      if b.take 4 ≠ mark ∨ Bytes.slice b 4 2 ≠ Bytes.le 2 version then
        .error (.corrupt .foreignHeader)
      else
        .ok ⟨codec, UInt64.ofNat (Bytes.ofLe (Bytes.slice b 8 8)),
          UInt64.ofNat (Bytes.ofLe (Bytes.slice b 16 8))⟩

/-- Refuse lengths above the limit, and a plain payload whose lengths differ. -/
def checkSizes (h : Header) (limit : Nat) : Except Error Unit :=
  if limit < h.rawLength.toNat ∨ limit < h.storedLength.toNat then
    .error (.corrupt (.oversized h.storedLength.toNat h.rawLength.toNat limit))
  else if h.codec = .plain ∧ h.storedLength ≠ h.rawLength then
    .error (.corrupt .differingLengths)
  else .ok ()

@[simp]
theorem length_toBytes (h : Header) : h.toBytes.length = size := by
  simp [toBytes, mark, size]

end Header

/-- A segment around a stored payload. -/
def frame (hash : Digest.Hash) (codec : Codec) (rawLength : UInt64) (stored : Bytes) : Bytes :=
  let header := Header.toBytes ⟨codec, rawLength, UInt64.ofNat stored.length⟩
  header ++ stored ++ (hash (header ++ stored)).bytes

def checksumSize : Nat := 32

def checksumOk (hash : Digest.Hash) (header stored checksum : Bytes) : Bool :=
  (hash (header ++ stored)).bytes = checksum

end ForkTree.Log
