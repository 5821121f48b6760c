import CoinLedger.Hash.Sha256
import CoinLedger.Transaction.Basic

/-! # Transactions in bytes

The bytes of a transaction without its witnesses, which its id is the double hash of.  Numbers
are written least significant byte first, and lists and scripts have their length in front as a
`compactSize`. -/

namespace CoinLedger

/-- A length: one byte below 253, and otherwise a mark and two, four or eight bytes. -/
def compactSize (n : Nat) : Bytes :=
  if n < 0xfd then [UInt8.ofNat n]
  else if n < 0x10000 then 0xfd :: Bytes.leBytes 2 n
  else if n < 0x100000000 then 0xfe :: Bytes.leBytes 4 n
  else 0xff :: Bytes.leBytes 8 n

/-- How many bytes a length takes. -/
def compactSizeLength (n : Nat) : Nat :=
  if n < 0xfd then 1 else if n < 0x10000 then 3 else if n < 0x100000000 then 5 else 9

@[simp] theorem length_compactSize (n : Nat) : (compactSize n).length = compactSizeLength n := by
  unfold compactSize compactSizeLength
  split
  · rfl
  · split
    · simp
    · split <;> simp

/-- The bytes of a script, its length in front. -/
def Script.encode (s : Script) : Bytes := compactSize s.bytes.length ++ s.bytes

/-- The bytes of an outpoint. -/
def Outpoint.encode (o : Outpoint) : Bytes := o.txid.bytes ++ Bytes.leBytes 4 o.vout.toNat

/-- The bytes of an output. -/
def TxOut.encode (o : TxOut) : Bytes := Bytes.leBytes 8 o.value.toNat ++ o.script.encode

/-- How many bytes an output takes. -/
def TxOut.size (o : TxOut) : Nat := o.encode.length

theorem TxOut.size_eq (o : TxOut) :
    o.size = 8 + compactSizeLength o.script.bytes.length + o.script.bytes.length := by
  simp [size, encode, Script.encode]
  omega

/-- The bytes of an input, its witness left out. -/
def TxIn.encode (i : TxIn) : Bytes :=
  i.previous.encode ++ i.scriptSig.encode ++ Bytes.leBytes 4 i.sequence.toNat

namespace Transaction

/-- The bytes of the version number. -/
def versionBytes (tx : Transaction) : Bytes := Bytes.leBytes 4 tx.version.toUInt32.toNat

/-- The bytes of the lock time. -/
def lockTimeBytes (tx : Transaction) : Bytes := Bytes.leBytes 4 tx.lockTime.toNat

/-- The bytes of a transaction, its witnesses left out. -/
def encodeStripped (tx : Transaction) : Bytes :=
  tx.versionBytes ++ compactSize tx.inputs.length ++ tx.inputs.flatMap TxIn.encode ++
    compactSize tx.outputs.length ++ tx.outputs.flatMap TxOut.encode ++ tx.lockTimeBytes

/-- The id of a transaction. -/
def txid (tx : Transaction) : Txid :=
  ⟨Hash.doubleSha256 tx.encodeStripped, Hash.length_doubleSha256 _⟩

end Transaction

end CoinLedger
