import CoinLedger.Hash.Sha256
import CoinLedger.Hash.Sha512

/-! # Keyed hashes and stretched passwords

A `Hasher` is a hash function that can absorb a first block ahead of the message.  `Hmac.Key` is
the pair of chaining values that the two paddings of a key leave, so that a key is absorbed once
however many messages follow, and `Hmac.Key.mac` is the authentication code of a message.

`pbkdf2` is the first block of output of the password function built on it. -/

namespace CoinLedger.Hash

/-- A hash function over blocks, its chaining values in `σ`. -/
structure Hasher (σ : Type) where
  blockSize : Nat
  initial : σ
  absorb : σ → Bytes → σ
  finish : σ → Nat → Bytes → Bytes

/-- SHA-256 as a hasher. -/
def sha256 : Hasher Sha256.State :=
  ⟨Sha256.blockSize, .initial, Sha256.State.absorb, Sha256.State.finish⟩

/-- SHA-512 as a hasher. -/
def sha512 : Hasher Sha512.State :=
  ⟨Sha512.blockSize, .initial, Sha512.State.absorb, Sha512.State.finish⟩

namespace Hmac

/-- A key, absorbed under each of the two paddings. -/
structure Key (σ : Type) where
  inner : σ
  outer : σ

variable {σ : Type}

/-- Absorbs a key; one that is longer than a block is hashed first. -/
def Key.ofBytes (h : Hasher σ) (key : Bytes) : Key σ :=
  let short := if h.blockSize < key.length then h.finish h.initial 0 key else key
  let block := short ++ List.replicate (h.blockSize - short.length) 0
  ⟨h.absorb h.initial (block.map (· ^^^ 0x36)), h.absorb h.initial (block.map (· ^^^ 0x5c))⟩

/-- The authentication code of a message. -/
def Key.mac (h : Hasher σ) (key : Key σ) (message : Bytes) : Bytes :=
  h.finish key.outer h.blockSize (h.finish key.inner h.blockSize message)

end Hmac

/-- The authentication code of a message under SHA-256. -/
def hmacSha256 (key message : Bytes) : Bytes := (Hmac.Key.ofBytes sha256 key).mac sha256 message

/-- The authentication code of a message under SHA-512. -/
def hmacSha512 (key message : Bytes) : Bytes := (Hmac.Key.ofBytes sha512 key).mac sha512 message

/-! ### Stretching a password -/

/-- Adds `n` further codes, each the code of the one before. -/
def stretch {σ : Type} (h : Hasher σ) (key : Hmac.Key σ) : Nat → Bytes → Bytes → Bytes
  | 0, _, sum => sum
  | n + 1, last, sum =>
      let next := key.mac h last
      stretch h key n next (List.zipWith (· ^^^ ·) sum next)

/-- The first block of output after `iterations` rounds, at least one. -/
def pbkdf2 {σ : Type} (h : Hasher σ) (password salt : Bytes) (iterations : Nat) : Bytes :=
  let key := Hmac.Key.ofBytes h password
  let first := key.mac h (salt ++ Bytes.beBytes 4 1)
  stretch h key (iterations - 1) first first

end CoinLedger.Hash
