import ForkTree.Text.Hex

/-!
Digests: thirty-two bytes that stand for a longer byte string. What is kept and compared under
digests takes the hash function as a parameter, of this type.
-/

namespace ForkTree

structure Digest where
  bytes : Bytes
  length_eq : bytes.length = 32
  deriving DecidableEq, Repr

namespace Digest

abbrev Hash := Bytes → Digest

def hex (d : Digest) : String := Text.Hex.encode d.bytes

end Digest

end ForkTree
