/-! # Networks

The networks that wallets can be made for.  A network decides how private keys are written, and
all networks but the main one write them alike. -/

namespace CoinLedger

/-- A network of the coin. -/
inductive Network where
  | bitcoin
  | testnet
  | testnet4
  | signet
  | regtest
deriving DecidableEq, Repr, Inhabited

namespace Network

/-- All networks. -/
def all : List Network := [bitcoin, testnet, testnet4, signet, regtest]

/-- The name of a network. -/
def name : Network → String
  | bitcoin => "bitcoin"
  | testnet => "testnet"
  | testnet4 => "testnet4"
  | signet => "signet"
  | regtest => "regtest"

/-- The network with this name. -/
def ofName? (s : String) : Option Network := all.find? fun n => n.name == s

@[simp] theorem ofName?_name (n : Network) : ofName? n.name = some n := by
  cases n <;> decide

/-- The four bytes that start the written form of an extended private key. -/
def extendedKeyVersion : Network → Nat
  | bitcoin => 0x0488ade4
  | _ => 0x04358394

/-- The byte that starts the written form of a private key. -/
def privateKeyVersion : Network → UInt8
  | bitcoin => 0x80
  | _ => 0xef

end Network

end CoinLedger
