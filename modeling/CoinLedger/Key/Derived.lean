import CoinLedger.Key.Extended
import CoinLedger.Transaction.Basic

/-! # Derived keys

A `DerivedKey` is a key at a path below a master key, with the script that it unlocks.  A wallet
owns scripts of this one form: a version byte, the length 20 and the hash of a public key. -/

namespace CoinLedger

/-- The script that the key with this public key unlocks. -/
def Script.ofPublicKey (publicKey : Bytes) : Script := ⟨0x00 :: 0x14 :: Key.hash160 publicKey⟩

namespace Key

/-- A key at a path below a master key. -/
structure DerivedKey where
  path : Path
  network : Network
  secret : Nat
  publicKey : Bytes
deriving DecidableEq

namespace DerivedKey

/-- The key at the path with this text. -/
def derive (master : ExtendedKey) (path : String) : Except Error DerivedKey := do
  let steps ← parsePath path
  let key ← master.descend steps
  return ⟨steps, key.network, key.secret, key.publicKey⟩

/-- The script that the key unlocks. -/
def script (k : DerivedKey) : Script := .ofPublicKey k.publicKey

/-- The written form of the private key, marked as having a public key of 33 bytes. -/
def privateText (k : DerivedKey) : String :=
  Text.Base58.encodeChecked (k.network.privateKeyVersion :: Bytes.beBytes 32 k.secret ++ [1])

end DerivedKey

end Key

end CoinLedger
