import CoinLedger.Bytes

/-! # Transactions

The parts of a transaction: a `Script` locks an output, an `Outpoint` names an output by the
transaction that made it, a `TxOut` is an output, a `TxIn` spends one, and a `Utxo` is an output
together with its name.  Scripts and outpoints have a text, which is read back by `ofText?`. -/

namespace CoinLedger

/-- The program that locks an output. -/
structure Script where
  bytes : Bytes
deriving DecidableEq, Inhabited

namespace Script

/-- The script without instructions. -/
def empty : Script := ⟨[]⟩

/-- The hexadecimal text of a script. -/
def text (s : Script) : String := Bytes.hex s.bytes

/-- Reads the hexadecimal text of a script. -/
def ofText? (s : String) : Option Script := (Bytes.ofHex? s).map Script.mk

@[simp] theorem ofText?_text (s : Script) : ofText? s.text = some s := by simp [ofText?, text]

end Script

/-! ### Outpoints -/

/-- The name of an output: the transaction that made it and its place there. -/
structure Outpoint where
  txid : Txid
  vout : UInt32
deriving DecidableEq, Inhabited

namespace Outpoint

/-- The transaction and the place, with a colon between. -/
def text (o : Outpoint) : String := o.txid.text ++ ":" ++ toString o.vout.toNat

/-- Reads a place: decimal digits without needless zeros in front. -/
def place? (cs : List Char) : Option UInt32 :=
  if cs = [] ∨ ¬cs.all Char.isDigit ∨ (1 < cs.length ∧ cs.head? = some '0') then none
  else
    let n := Nat.ofDigitChars 10 cs 0
    if n < UInt32.size then some (UInt32.ofNat n) else none

/-- Reads an outpoint. -/
def ofText? (s : String) : Option Outpoint :=
  let cs := s.toList
  match cs.dropWhile (· ≠ ':') with
  | _ :: rest =>
      match Hash256.ofText? (String.ofList (cs.takeWhile (· ≠ ':'))), place? rest with
      | some txid, some vout => some ⟨txid, vout⟩
      | _, _ => none
  | [] => none

end Outpoint

/-! ### Outputs and inputs -/

/-- An output: an amount in satoshi and the script that locks it. -/
structure TxOut where
  value : UInt64
  script : Script
deriving DecidableEq, Inhabited

/-- An output and its name. -/
structure Utxo where
  outpoint : Outpoint
  txout : TxOut
deriving DecidableEq, Inhabited

/-- An input: the output it spends and what unlocks that output. -/
structure TxIn where
  previous : Outpoint
  sequence : UInt32
  scriptSig : Script
  witness : List Bytes
deriving DecidableEq, Inhabited

/-- A transaction. -/
structure Transaction where
  version : Int32
  lockTime : UInt32
  inputs : List TxIn
  outputs : List TxOut
deriving DecidableEq, Inhabited

end CoinLedger
