import CoinLedger.Hash.Sha256

/-! # RIPEMD-160

`Ripemd160.hash` makes 20 bytes of a message.  Each block is read by two lines of eighty steps,
and `Step` is what a step takes from the tables: a word of the block, a rotation, a boolean
function and a constant. -/

namespace CoinLedger.Hash.Ripemd160

/-- The chaining value. -/
structure State where
  a : UInt32
  b : UInt32
  c : UInt32
  d : UInt32
  e : UInt32

/-- The chaining value before the first block. -/
def State.initial : State := ⟨0x67452301, 0xefcdab89, 0x98badcfe, 0x10325476, 0xc3d2e1f0⟩

/-- Rotation to the left. -/
@[inline] def rotl (x n : UInt32) : UInt32 := (x <<< n) ||| (x >>> (32 - n))

/-- The words of a byte string, the least significant byte of each first. -/
def words : Bytes → List UInt32
  | b0 :: b1 :: b2 :: b3 :: rest =>
      (b0.toUInt32 ||| b1.toUInt32 <<< 8 ||| b2.toUInt32 <<< 16 ||| b3.toUInt32 <<< 24)
        :: words rest
  | _ => []

/-- The bytes of a word, the least significant first. -/
def wordBytes (w : UInt32) : Bytes :=
  [w.toUInt8, (w >>> 8).toUInt8, (w >>> 16).toUInt8, (w >>> 24).toUInt8]

/-- The five boolean functions. -/
def mix : Nat → UInt32 → UInt32 → UInt32 → UInt32
  | 0, x, y, z => x ^^^ y ^^^ z
  | 1, x, y, z => (x &&& y) ||| (~~~x &&& z)
  | 2, x, y, z => (x ||| ~~~y) ^^^ z
  | 3, x, y, z => (x &&& z) ||| (y &&& ~~~z)
  | _, x, y, z => x ^^^ (y ||| ~~~z)

/-! ### The two lines of steps -/

/-- One step of a line. -/
structure Step where
  /-- Which word of the block is read. -/
  word : Nat
  /-- How far the sum is rotated. -/
  shift : UInt32
  /-- Which boolean function is used. -/
  function : Nat
  /-- What is added. -/
  constant : UInt32

/-- The sixteen steps of a round, which share a function and a constant. -/
def roundSteps (words shifts : List Nat) (function : Nat) (constant : UInt32) : List Step :=
  List.zipWith (fun w s => ⟨w, UInt32.ofNat s, function, constant⟩) words shifts

/-- The steps of the left line. -/
def leftLine : List Step :=
  roundSteps [0, 1, 2, 3, 4, 5, 6, 7, 8, 9, 10, 11, 12, 13, 14, 15]
      [11, 14, 15, 12, 5, 8, 7, 9, 11, 13, 14, 15, 6, 7, 9, 8] 0 0 ++
    roundSteps [7, 4, 13, 1, 10, 6, 15, 3, 12, 0, 9, 5, 2, 14, 11, 8]
      [7, 6, 8, 13, 11, 9, 7, 15, 7, 12, 15, 9, 11, 7, 13, 12] 1 0x5a827999 ++
    roundSteps [3, 10, 14, 4, 9, 15, 8, 1, 2, 7, 0, 6, 13, 11, 5, 12]
      [11, 13, 6, 7, 14, 9, 13, 15, 14, 8, 13, 6, 5, 12, 7, 5] 2 0x6ed9eba1 ++
    roundSteps [1, 9, 11, 10, 0, 8, 12, 4, 13, 3, 7, 15, 14, 5, 6, 2]
      [11, 12, 14, 15, 14, 15, 9, 8, 9, 14, 5, 6, 8, 6, 5, 12] 3 0x8f1bbcdc ++
    roundSteps [4, 0, 5, 9, 7, 12, 2, 10, 14, 1, 3, 8, 11, 6, 15, 13]
      [9, 15, 5, 11, 6, 8, 13, 12, 5, 12, 13, 14, 11, 8, 5, 6] 4 0xa953fd4e

/-- The steps of the right line. -/
def rightLine : List Step :=
  roundSteps [5, 14, 7, 0, 9, 2, 11, 4, 13, 6, 15, 8, 1, 10, 3, 12]
      [8, 9, 9, 11, 13, 15, 15, 5, 7, 7, 8, 11, 14, 14, 12, 6] 4 0x50a28be6 ++
    roundSteps [6, 11, 3, 7, 0, 13, 5, 10, 14, 15, 8, 12, 4, 9, 1, 2]
      [9, 13, 15, 7, 12, 8, 9, 11, 7, 7, 12, 7, 6, 15, 13, 11] 3 0x5c4dd124 ++
    roundSteps [15, 5, 1, 3, 7, 14, 6, 9, 11, 8, 12, 2, 10, 0, 4, 13]
      [9, 7, 15, 11, 8, 6, 6, 14, 12, 13, 5, 14, 13, 13, 7, 5] 2 0x6d703ef3 ++
    roundSteps [8, 6, 4, 1, 3, 11, 15, 0, 5, 12, 2, 13, 9, 7, 10, 14]
      [15, 5, 8, 11, 14, 14, 6, 14, 6, 9, 12, 9, 12, 5, 15, 8] 1 0x7a6d76e9 ++
    roundSteps [12, 15, 10, 4, 1, 5, 8, 7, 6, 2, 13, 14, 0, 3, 9, 11]
      [8, 5, 12, 9, 12, 5, 14, 6, 8, 13, 6, 5, 15, 13, 11, 11] 0 0

/-- One step of a line over a block of sixteen words. -/
def Step.apply (block : Array UInt32) (s : State) (step : Step) : State :=
  let sum := s.a + mix step.function s.b s.c s.d + block.getD step.word 0 + step.constant
  ⟨s.e, rotl sum step.shift + s.e, s.b, rotl s.c 10, s.d⟩

/-- Mixes one block into the chaining value: both lines start from it, and their results are
added to it crosswise. -/
def State.absorb (s : State) (block : Bytes) : State :=
  let ws := (words block).toArray
  let l := leftLine.foldl (Step.apply ws) s
  let r := rightLine.foldl (Step.apply ws) s
  ⟨s.b + l.c + r.d, s.c + l.d + r.e, s.d + l.e + r.a, s.e + l.a + r.b, s.a + l.b + r.c⟩

/-- The bytes of the chaining value. -/
def State.bytes (s : State) : Bytes :=
  wordBytes s.a ++ wordBytes s.b ++ wordBytes s.c ++ wordBytes s.d ++ wordBytes s.e

/-- The hash of a message. -/
def hash (message : Bytes) : Bytes :=
  ((blocks 64 (Bytes.leBytes 8) 0 message).foldl State.absorb .initial).bytes

@[simp] theorem length_hash (message : Bytes) : (hash message).length = 20 := by
  simp [hash, State.bytes, wordBytes]

end CoinLedger.Hash.Ripemd160
