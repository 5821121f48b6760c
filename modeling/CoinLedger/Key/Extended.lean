import CoinLedger.Curve.Secp256k1
import CoinLedger.Hash.Hmac
import CoinLedger.Hash.Ripemd160
import CoinLedger.Key.Mnemonic
import CoinLedger.Key.Path
import CoinLedger.Network

/-! # Extended private keys

An extended key is a private key with a chain code, from which the keys below it are derived.
`masterKey` makes one of a mnemonic, `ExtendedKey.child` takes one step and `ExtendedKey.descend`
a path.  `walletId` names a wallet by the hash of its master key.

Keys are written in base 58: a byte string is a number, most significant digit first, with a digit
one for each zero byte in front.  `Base58.encodeChecked` appends four bytes of a double hash first, so
that a reader can detect misspellings. -/

namespace CoinLedger

/-! ### Base 58 -/

namespace Text.Base58

/-- The digits: no zero, no capital `O` or `I`, no small `l`. -/
def alphabet : List Char := "123456789ABCDEFGHJKLMNPQRSTUVWXYZabcdefghijkmnopqrstuvwxyz".toList

/-- The digit of a number below 58. -/
def digit (n : Nat) : Char := alphabet.getD n '1'

/-- Puts at most `count` digits of a number in front of `acc`, none for zero. -/
def digits : Nat → Nat → List Char → List Char
  | 0, _, acc => acc
  | count + 1, v, acc => if v = 0 then acc else digits count (v / 58) (digit (v % 58) :: acc)

/-- The digits of a byte string; no byte needs more than two. -/
def encode (bs : Bytes) : String :=
  let zeros := (bs.takeWhile (· == 0)).map fun _ => '1'
  String.ofList (zeros ++ digits (2 * bs.length) (Bytes.ofBe bs) [])

/-- The digits of a byte string and its checksum. -/
def encodeChecked (bs : Bytes) : String := encode (bs ++ (Hash.doubleSha256 bs).take 4)

end Text.Base58

namespace Key

/-! ### Keys -/

/-- A private key from which others can be derived. -/
structure ExtendedKey where
  network : Network
  /-- How many steps lead here from the master key. -/
  depth : Nat
  secret : Nat
  chainCode : Bytes
deriving DecidableEq

/-- The hash of 20 bytes by which keys are addressed. -/
def hash160 (bs : Bytes) : Bytes := Hash.Ripemd160.hash (Hash.Sha256.hash bs)

@[simp] theorem length_hash160 (bs : Bytes) : (hash160 bs).length = 20 :=
  Hash.Ripemd160.length_hash _

namespace ExtendedKey

/-- The master key of a seed. -/
def ofSeed (network : Network) (seed : Bytes) : ExtendedKey :=
  let code := Hash.hmacSha512 (Bytes.utf8 "Bitcoin seed") seed
  ⟨network, 0, Bytes.ofBe (code.take 32), code.drop 32⟩

/-- The public key. -/
def publicKey (k : ExtendedKey) : Bytes := Curve.publicKey k.secret

/-- The key one step below; keys at depth 255 have none. -/
def child (k : ExtendedKey) (step : Step) : Except Error ExtendedKey :=
  if 255 ≤ k.depth then .error .keyDepthExceeded
  else
    let parent := if step.hardened then 0 :: Bytes.beBytes 32 k.secret else k.publicKey
    let code := Hash.hmacSha512 k.chainCode (parent ++ Bytes.beBytes 4 step.index)
    let secret := (Bytes.ofBe (code.take 32) + k.secret) % Curve.order
    .ok ⟨k.network, k.depth + 1, secret, code.drop 32⟩

/-- The key at the end of a path. -/
def descend (k : ExtendedKey) : Path → Except Error ExtendedKey
  | [] => .ok k
  | step :: rest =>
      match k.child step with
      | .ok next => next.descend rest
      | .error e => .error e

/-- The written form of a master key, which has no parent and no number among its siblings. -/
def masterText (k : ExtendedKey) : String :=
  Text.Base58.encodeChecked
    (Bytes.beBytes 4 k.network.extendedKeyVersion ++ List.replicate 9 0 ++ k.chainCode ++
      0 :: Bytes.beBytes 32 k.secret)

end ExtendedKey

/-- The master key of a mnemonic. -/
def masterKey (mnemonic : String) (network : Network) : Except Error ExtendedKey :=
  match Mnemonic.parse mnemonic with
  | .ok m => .ok (.ofSeed network m.seed)
  | .error fault => .error (.mnemonic fault)

/-- The id of the wallet that a master key belongs to: the first bytes of a hash of the key. -/
def walletId (master : ExtendedKey) : String := Bytes.hex ((hash160 master.publicKey).take 4)

end Key

end CoinLedger
