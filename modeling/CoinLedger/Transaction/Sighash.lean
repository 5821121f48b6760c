import CoinLedger.Transaction.Encoding

/-! # What a signature signs

A signature of an input covers the whole transaction and the output that the input spends.
`SighashParts` are the three hashes that all inputs of a transaction share, and
`SighashParts.digest` is the digest to sign for one input that spends an output locked by the hash
of a public key. -/

namespace CoinLedger

namespace Script

/-- The hash of a public key, if the script is of the form that is unlocked by such a key. -/
def publicKeyHash? (s : Script) : Option Bytes :=
  match s.bytes with
  | 0x00 :: 0x14 :: hash => if hash.length = 20 then some hash else none
  | _ => none

/-- The instructions that a signature under this public key hash commits to. -/
def spendingCode (hash : Bytes) : Script := ⟨[0x76, 0xa9, 0x14] ++ hash ++ [0x88, 0xac]⟩

end Script

/-- The byte that marks a signature as covering all inputs and outputs. -/
def sighashAll : UInt8 := 1

/-- The hashes that the digests of all inputs share. -/
structure SighashParts where
  version : Bytes
  prevouts : Bytes
  sequences : Bytes
  outputs : Bytes
  lockTime : Bytes

namespace SighashParts

/-- The hashes for the inputs of a transaction. -/
def ofTransaction (tx : Transaction) : SighashParts where
  version := tx.versionBytes
  prevouts := Hash.doubleSha256 (tx.inputs.flatMap fun i => i.previous.encode)
  sequences := Hash.doubleSha256 (tx.inputs.flatMap fun i => Bytes.leBytes 4 i.sequence.toNat)
  outputs := Hash.doubleSha256 (tx.outputs.flatMap TxOut.encode)
  lockTime := tx.lockTimeBytes

/-- The digest to sign for one input, which spends an output of this value that is locked by this
public key hash. -/
def digest (p : SighashParts) (input : TxIn) (hash : Bytes) (value : UInt64) : Bytes :=
  Hash.doubleSha256
    (p.version ++ p.prevouts ++ p.sequences ++ input.previous.encode ++
      (Script.spendingCode hash).encode ++ Bytes.leBytes 8 value.toNat ++
      Bytes.leBytes 4 input.sequence.toNat ++ p.outputs ++ p.lockTime ++
      Bytes.leBytes 4 sighashAll.toNat)

end SighashParts

end CoinLedger
