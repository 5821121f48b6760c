import CoinLedger.Bytes

/-! # SHA-256

`Sha256.hash` is the hash function of that name: 64 rounds over words of 32 bits, 32 bytes of
output.

A `State` is the chaining value of eight words.  `State.absorb` mixes one block into it, and
`State.finish` hashes the end of a message of which a part was absorbed already, so that a keyed
hash can absorb its key once.  `doubleSha256` is the function applied twice.

This hash function and the others of the library read a message in blocks of a fixed size.  `padded`
completes a message: a byte `0x80`, as many zero bytes as are needed, and the length of the message in
bits, written in the last bytes of the last block.  `chunks` cuts a byte string into pieces of equal
size. -/

namespace CoinLedger.Hash

/-! ### Messages cut into blocks -/

/-- The first `count` pieces of `size` bytes each. -/
def chunks (size : Nat) : Nat → Bytes → List Bytes
  | 0, _ => []
  | count + 1, bs => bs.take size :: chunks size count (bs.drop size)

/-- How many zero bytes bring `n` bytes to a multiple of `size`. -/
def gap (size n : Nat) : Nat := (size - n % size) % size

/-- The message with its padding.  `before` bytes were hashed already, and `lengthField` writes
the number of bits of the whole message. -/
def padded (size : Nat) (lengthField : Nat → Bytes) (before : Nat) (message : Bytes) : Bytes :=
  let field := lengthField (8 * (before + message.length))
  message ++ 0x80 :: List.replicate (gap size (message.length + 1 + field.length)) 0 ++ field

/-- The blocks of a message with its padding. -/
def blocks (size : Nat) (lengthField : Nat → Bytes) (before : Nat) (message : Bytes) :
    List Bytes :=
  let whole := padded size lengthField before message
  chunks size (whole.length / size) whole

/-! ### The hash function -/

namespace Sha256

/-- The chaining value. -/
structure State where
  a : UInt32
  b : UInt32
  c : UInt32
  d : UInt32
  e : UInt32
  f : UInt32
  g : UInt32
  h : UInt32

/-- Bytes in a block. -/
def blockSize : Nat := 64

/-- The chaining value before the first block. -/
def State.initial : State :=
  ⟨0x6a09e667, 0xbb67ae85, 0x3c6ef372, 0xa54ff53a,
    0x510e527f, 0x9b05688c, 0x1f83d9ab, 0x5be0cd19⟩

/-- One constant for each round. -/
def roundConstants : List UInt32 :=
  [
    0x428a2f98, 0x71374491, 0xb5c0fbcf, 0xe9b5dba5, 0x3956c25b, 0x59f111f1, 0x923f82a4, 0xab1c5ed5,
    0xd807aa98, 0x12835b01, 0x243185be, 0x550c7dc3, 0x72be5d74, 0x80deb1fe, 0x9bdc06a7, 0xc19bf174,
    0xe49b69c1, 0xefbe4786, 0x0fc19dc6, 0x240ca1cc, 0x2de92c6f, 0x4a7484aa, 0x5cb0a9dc, 0x76f988da,
    0x983e5152, 0xa831c66d, 0xb00327c8, 0xbf597fc7, 0xc6e00bf3, 0xd5a79147, 0x06ca6351, 0x14292967,
    0x27b70a85, 0x2e1b2138, 0x4d2c6dfc, 0x53380d13, 0x650a7354, 0x766a0abb, 0x81c2c92e, 0x92722c85,
    0xa2bfe8a1, 0xa81a664b, 0xc24b8b70, 0xc76c51a3, 0xd192e819, 0xd6990624, 0xf40e3585, 0x106aa070,
    0x19a4c116, 0x1e376c08, 0x2748774c, 0x34b0bcb5, 0x391c0cb3, 0x4ed8aa4a, 0x5b9cca4f, 0x682e6ff3,
    0x748f82ee, 0x78a5636f, 0x84c87814, 0x8cc70208, 0x90befffa, 0xa4506ceb, 0xbef9a3f7, 0xc67178f2]

/-- Rotation to the right. -/
@[inline] def rotr (x n : UInt32) : UInt32 := (x >>> n) ||| (x <<< (32 - n))

/-! ### Words of a block -/

/-- The words of a byte string, the most significant byte of each first. -/
def words : Bytes → List UInt32
  | b0 :: b1 :: b2 :: b3 :: rest =>
      (b0.toUInt32 <<< 24 ||| b1.toUInt32 <<< 16 ||| b2.toUInt32 <<< 8 ||| b3.toUInt32)
        :: words rest
  | _ => []

/-- The bytes of a word, the most significant first. -/
def wordBytes (w : UInt32) : Bytes :=
  [(w >>> 24).toUInt8, (w >>> 16).toUInt8, (w >>> 8).toUInt8, w.toUInt8]

/-- Extends a schedule by `n` words.  It is kept with its last word first, and each new word is
made of four of the last sixteen. -/
def extend : Nat → List UInt32 → List UInt32
  | 0, ws => ws
  | n + 1, ws =>
      match ws with
      | _ :: w2 :: _ :: _ :: _ :: _ :: w7 :: _ :: _ :: _ :: _ :: _ :: _ :: _ :: w15 :: w16 :: _ =>
          let s0 := rotr w15 7 ^^^ rotr w15 18 ^^^ (w15 >>> 3)
          let s1 := rotr w2 17 ^^^ rotr w2 19 ^^^ (w2 >>> 10)
          extend n ((w16 + s0 + w7 + s1) :: ws)
      | _ => ws

/-- The 64 words that the rounds use, in their order. -/
def schedule (block : Bytes) : List UInt32 := (extend 48 (words block).reverse).reverse

/-! ### Compression -/

/-- The rounds, one for each constant and word of the schedule. -/
def rounds : List UInt32 → List UInt32 →
    UInt32 → UInt32 → UInt32 → UInt32 → UInt32 → UInt32 → UInt32 → UInt32 → State
  | k :: ks, w :: ws, a, b, c, d, e, f, g, h =>
      let t1 := h + (rotr e 6 ^^^ rotr e 11 ^^^ rotr e 25) + ((e &&& f) ^^^ (~~~e &&& g)) + k + w
      let t2 := (rotr a 2 ^^^ rotr a 13 ^^^ rotr a 22) +
        ((a &&& b) ^^^ (a &&& c) ^^^ (b &&& c))
      rounds ks ws (t1 + t2) a b c (d + t1) e f g
  | _, _, a, b, c, d, e, f, g, h => ⟨a, b, c, d, e, f, g, h⟩

/-- Mixes one block into the chaining value. -/
def State.absorb (s : State) (block : Bytes) : State :=
  let r := rounds roundConstants (schedule block) s.a s.b s.c s.d s.e s.f s.g s.h
  ⟨s.a + r.a, s.b + r.b, s.c + r.c, s.d + r.d, s.e + r.e, s.f + r.f, s.g + r.g, s.h + r.h⟩

/-- The bytes of the chaining value. -/
def State.bytes (s : State) : Bytes :=
  wordBytes s.a ++ wordBytes s.b ++ wordBytes s.c ++ wordBytes s.d ++
    wordBytes s.e ++ wordBytes s.f ++ wordBytes s.g ++ wordBytes s.h

/-- Hashes the end of a message after `before` bytes of it were absorbed. -/
def State.finish (s : State) (before : Nat) (message : Bytes) : Bytes :=
  ((blocks blockSize (Bytes.beBytes 8) before message).foldl State.absorb s).bytes

/-- The hash of a message. -/
def hash (message : Bytes) : Bytes := State.initial.finish 0 message

@[simp] theorem length_hash (message : Bytes) : (hash message).length = 32 := by
  simp [hash, State.finish, State.bytes, wordBytes]

end Sha256

/-- SHA-256 applied twice. -/
def doubleSha256 (message : Bytes) : Bytes := Sha256.hash (Sha256.hash message)

@[simp] theorem length_doubleSha256 (message : Bytes) : (doubleSha256 message).length = 32 := by
  simp [doubleSha256]

end CoinLedger.Hash
