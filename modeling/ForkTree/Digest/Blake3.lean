import ForkTree.Digest.Basic

/-!
The BLAKE3 hash, with a digest of thirty-two bytes and without a key. The input is cut into chunks of
1024 bytes, each chunk into blocks of 64. Chunks are the leaves of a binary tree in which every left
subtree is complete; it is built level by level, joining neighbours and carrying an odd last one up.
The digest is what the topmost node yields when it is marked as the root.
-/

namespace ForkTree.Digest.Blake3

abbrev Words (n : Nat) := Vector UInt32 n

def initial : Words 8 :=
  #v[0x6a09e667, 0xbb67ae85, 0x3c6ef372, 0xa54ff53a, 0x510e527f, 0x9b05688c, 0x1f83d9ab, 0x5be0cd19]

def chunkStart : UInt32 := 1

def chunkEnd : UInt32 := 2

def parent : UInt32 := 4

def root : UInt32 := 8

def rotateRight (x : UInt32) (n : UInt32) : UInt32 := (x >>> n) ||| (x <<< (32 - n))

/-- Mix two message words into a column or a diagonal of the state. -/
def mix (v : Words 16) (a b c d : Fin 16) (x y : UInt32) : Words 16 :=
  let v := v.set a (v[a] + v[b] + x)
  let v := v.set d (rotateRight (v[d] ^^^ v[a]) 16)
  let v := v.set c (v[c] + v[d])
  let v := v.set b (rotateRight (v[b] ^^^ v[c]) 12)
  let v := v.set a (v[a] + v[b] + y)
  let v := v.set d (rotateRight (v[d] ^^^ v[a]) 8)
  let v := v.set c (v[c] + v[d])
  v.set b (rotateRight (v[b] ^^^ v[c]) 7)

def round (v m : Words 16) : Words 16 :=
  let v := mix v 0 4 8 12 m[0] m[1]
  let v := mix v 1 5 9 13 m[2] m[3]
  let v := mix v 2 6 10 14 m[4] m[5]
  let v := mix v 3 7 11 15 m[6] m[7]
  let v := mix v 0 5 10 15 m[8] m[9]
  let v := mix v 1 6 11 12 m[10] m[11]
  let v := mix v 2 7 8 13 m[12] m[13]
  mix v 3 4 9 14 m[14] m[15]

/-- The order of the message words in the next round. -/
def permute (m : Words 16) : Words 16 :=
  #v[m[2], m[6], m[3], m[10], m[7], m[0], m[4], m[13], m[1], m[11], m[12], m[5], m[9], m[14], m[15],
    m[8]]

def rounds : (count : Nat) → (v m : Words 16) → Words 16
  | 0, v, _ => v
  | count + 1, v, m => rounds count (round v m) (permute m)

/-- What is left to be compressed for a node of the tree: its last block, with the chaining value
before it. -/
structure Output where
  chaining : Words 8
  block : Words 16
  counter : UInt64
  length : UInt32
  flags : UInt32

def Output.compress (o : Output) (extra : UInt32) : Words 8 :=
  let h := o.chaining
  let v : Words 16 :=
    #v[h[0], h[1], h[2], h[3], h[4], h[5], h[6], h[7], initial[0], initial[1], initial[2], initial[3],
      o.counter.toUInt32, (o.counter >>> 32).toUInt32, o.length, o.flags ||| extra]
  let v := rounds 7 v o.block
  #v[v[0] ^^^ v[8], v[1] ^^^ v[9], v[2] ^^^ v[10], v[3] ^^^ v[11], v[4] ^^^ v[12], v[5] ^^^ v[13],
    v[6] ^^^ v[14], v[7] ^^^ v[15]]

/-- The chaining value of an inner node's child. -/
def Output.chain (o : Output) : Words 8 := o.compress 0

/-- Sixteen little-endian words, with zeros behind the bytes. -/
def blockWords (b : Bytes) : Words 16 :=
  Vector.ofFn fun i => UInt32.ofNat (Bytes.ofLe (Bytes.slice b (4 * i.val) 4))

/-- The output of a chunk whose blocks so far gave `chaining`; `fuel` bounds the blocks to come. -/
def chunkOutput : (fuel : Nat) → (counter : UInt64) → (chaining : Words 8) → (flags : UInt32) →
    Bytes → Output
  | 0, counter, chaining, flags, b => ⟨chaining, blockWords b, counter, 0, flags ||| chunkEnd⟩
  | fuel + 1, counter, chaining, flags, b =>
    match b.drop 64 with
    | [] => ⟨chaining, blockWords b, counter, UInt32.ofNat b.length, flags ||| chunkEnd⟩
    | rest =>
      let o : Output := ⟨chaining, blockWords (b.take 64), counter, 64, flags⟩
      chunkOutput fuel counter o.chain 0 rest

/-- The outputs of the chunks of `b`, the first with the number `counter`. -/
def chunks : (fuel : Nat) → (counter : UInt64) → Bytes → List Output
  | 0, _, _ => []
  | fuel + 1, counter, b =>
    let o := chunkOutput 16 counter initial chunkStart (b.take 1024)
    match b.drop 1024 with
    | [] => [o]
    | rest => o :: chunks fuel (counter + 1) rest

def join (left right : Output) : Output :=
  ⟨initial, (left.chain ++ right.chain).cast rfl, 0, 64, parent⟩

/-- Join neighbours; an odd last one is carried up. -/
def joinPairs : List Output → List Output
  | a :: b :: rest => join a b :: joinPairs rest
  | rest => rest

/-- The topmost node over a level of the tree; `fuel` bounds the levels. -/
def top : (fuel : Nat) → List Output → Option Output
  | _, [] => none
  | _, [o] => some o
  | 0, _ => none
  | fuel + 1, level => top fuel (joinPairs level)

def wordBytes (w : Words 8) : Bytes := w.toList.flatMap fun x => Bytes.le 4 x.toNat

theorem length_wordBytes (w : Words 8) : (wordBytes w).length = 32 := by
  simp [wordBytes, List.length_flatMap, List.map_const']

def digest : Hash := fun b =>
  let level := chunks (b.length / 1024 + 1) 0 b
  let words := match top level.length level with
    | some o => o.compress root
    | none => initial
  ⟨wordBytes words, length_wordBytes words⟩

end ForkTree.Digest.Blake3
