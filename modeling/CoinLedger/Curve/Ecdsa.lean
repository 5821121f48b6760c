import CoinLedger.Curve.Secp256k1
import CoinLedger.Hash.Hmac

/-! # Deterministic signatures

`Signature.make secret digest` signs a digest of 32 bytes.  The nonce is drawn from a generator
that is seeded with the secret and the digest, so a digest has one signature under a secret, and
of the two values of `s` that verify the smaller one is taken.  `Signature.der` is the written form:
a sequence of two integers without needless leading zeros. -/

namespace CoinLedger.Curve

/-! ### Nonces -/

/-- The state of the nonce generator: a key and a value. -/
structure NonceState where
  key : Bytes
  value : Bytes

namespace NonceState

/-- Stirs `extra` into the state. -/
def stir (s : NonceState) (extra : Bytes) : NonceState :=
  let key := Hash.hmacSha256 s.key (s.value ++ extra)
  ⟨key, Hash.hmacSha256 key s.value⟩

/-- The state seeded with a secret and a digest. -/
def seed (secret : Nat) (digest : Bytes) : NonceState :=
  let material := Bytes.beBytes 32 secret ++ Bytes.beBytes 32 (Bytes.ofBe digest % order)
  let start : NonceState := ⟨List.replicate 32 0, List.replicate 32 1⟩
  (start.stir (0 :: material)).stir (1 :: material)

/-- The next value, and the state that gave it. -/
def next (s : NonceState) : Nat × NonceState :=
  let value := Hash.hmacSha256 s.key s.value
  (Bytes.ofBe value, ⟨s.key, value⟩)

end NonceState

/-! ### Signatures -/

/-- The two numbers of a signature. -/
structure Signature where
  r : Nat
  s : Nat
deriving DecidableEq

namespace Signature

/-- The signature under a given nonce, unless one of its numbers is zero. -/
def withNonce? (secret : Nat) (digest : Bytes) (nonce : Nat) : Option Signature :=
  let r := (multiple nonce).1 % order
  let s := invMod order nonce * (Bytes.ofBe digest + r * secret) % order
  if r = 0 ∨ s = 0 then none else some ⟨r, if order / 2 < s then order - s else s⟩

/-- Tries the values of the nonce generator in turn, at most `n` of them.  A value in range that
gives two numbers other than zero is all but certain to be the first. -/
def search (secret : Nat) (digest : Bytes) : Nat → NonceState → Signature
  | 0, _ => ⟨0, 0⟩
  | n + 1, state =>
      let (nonce, state) := state.next
      let found := if nonce = 0 ∨ order ≤ nonce then none else withNonce? secret digest nonce
      match found with
      | some signature => signature
      | none => search secret digest n (state.stir [0])

/-- Signs a digest of 32 bytes. -/
def make (secret : Nat) (digest : Bytes) : Signature :=
  search secret digest 128 (NonceState.seed secret digest)

/-- A number in as few bytes as it needs, at least one.  A zero byte stands in front of a byte
whose high bit is set, so that the number is not taken for a negative one. -/
def derInteger (v : Nat) : Bytes :=
  let digits := (Bytes.beBytes 32 v).dropWhile (· == 0)
  let body := match digits with
    | [] => [0]
    | b :: _ => if 0x80 ≤ b then 0 :: digits else digits
  0x02 :: UInt8.ofNat body.length :: body

/-- The written form. -/
def der (sig : Signature) : Bytes :=
  let body := derInteger sig.r ++ derInteger sig.s
  0x30 :: UInt8.ofNat body.length :: body

end Signature

end CoinLedger.Curve
