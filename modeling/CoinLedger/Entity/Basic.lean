import CoinLedger.Entity.Records
import CoinLedger.Json.Decode

/-! # Records, their keys and their documents

`Entity α κ` says how records of type `α` are stored: of which kind they are, which `κ` identifies
one, how this key is written in bytes, and how a record is written as a document and read back.
`rowKey` is the whole key of a row, the byte of the kind in front, and `encodeEntity` the text of a
record.  The nine instances are the schema of the store.

In keys that start with a wallet id or a payment hash a zero byte ends these texts.

`RowRange` lists the groups of rows that are scanned together, and `RowRange.start` is what the
keys of a group start with. -/

namespace CoinLedger

/-- How records of one kind are stored. -/
class Entity (α : Type) (κ : outParam Type) where
  kind : EntityKind
  key : α → κ
  keyBytes : κ → Bytes
  toJson : α → Json
  ofJson? : Json → Option α

section

variable {κ : Type}

/-- The key of the row that a record with this key is stored in. -/
def rowKey (α : Type) [Entity α κ] (key : κ) : Bytes :=
  (Entity.kind α).byte :: Entity.keyBytes α key

/-- The text that a record is stored as. -/
def encodeEntity {α : Type} [Entity α κ] (a : α) : Bytes := (Entity.toJson a).render

/-- Reads a stored record. -/
def decodeEntity? (α : Type) [Entity α κ] (bs : Bytes) : Option α :=
  (Json.parse? bs).bind Entity.ofJson?

end

/-! ### Keys -/

/-- A text in a key, ended by a zero byte. -/
def terminated (s : String) : Bytes := Bytes.utf8 s ++ [0]

/-- An outpoint in a key: the place is written so that the order of keys is that of places. -/
def Outpoint.keyBytes (o : Outpoint) : Bytes := o.txid.bytes ++ Bytes.beBytes 4 o.vout.toNat

/-! ### Documents of the parts -/

namespace Json

/-- The document of a hash. -/
def ofHash256 (h : Hash256) : Json := ofText h.text

/-- The document of a script. -/
def ofScript (s : Script) : Json := ofText s.text

/-- Reads a script. -/
def script? (j : Json) : Option Script := (text? j).bind Script.ofText?

/-- The document of an outpoint. -/
def ofOutpoint (o : Outpoint) : Json := ofText o.text

/-- Reads an outpoint. -/
def outpoint? (j : Json) : Option Outpoint := (text? j).bind Outpoint.ofText?

/-- The document of the input that spends a coin. -/
def ofSpentBy (s : SpentBy) : Json :=
  record [("txid", ofHash256 s.txid), ("input_index", ofNat s.inputIndex.toNat)]

/-- Reads the input that spends a coin. -/
def spentBy? (j : Json) : Option SpentBy := do
  match ← fields? ["txid", "input_index"] j with
  | [txid, index] => return ⟨← required hash256? txid, ← required uint32? index⟩
  | _ => none

/-- Reads how far a payment is. -/
def paymentStatus? (j : Json) : Option PaymentStatus := (choice? j).bind PaymentStatus.ofName?

/-- The document of an output to spend. -/
def ofUtxo (u : Utxo) : Json :=
  record [("outpoint", ofOutpoint u.outpoint),
    ("txout", record [("value", ofNat u.txout.value.toNat),
      ("script_pubkey", ofScript u.txout.script)])]

/-- Reads an output. -/
def txout? (j : Json) : Option TxOut := do
  match ← fields? ["value", "script_pubkey"] j with
  | [value, script] => return ⟨← required uint64? value, ← required script? script⟩
  | _ => none

/-- Reads an output to spend. -/
def utxo? (j : Json) : Option Utxo := do
  match ← fields? ["outpoint", "txout"] j with
  | [outpoint, txout] => return ⟨← required outpoint? outpoint, ← required txout? txout⟩
  | _ => none

end Json

open Json

/-! ### The schema -/

instance : Entity Wallet String where
  kind := .wallet
  key := Wallet.id
  keyBytes := Bytes.utf8
  toJson w := record [("id", ofText w.id), ("name", ofText w.name), ("mnemonic", ofText w.mnemonic),
    ("derivation_path", ofText w.derivationPath),
    ("last_derivation_index", ofNat w.lastIndex.toNat),
    ("creation_block_hash", ofHash256 w.creationBlock), ("aliases", array (w.aliases.map ofText))]
  ofJson? j := do
    match ← fields? ["id", "name", "mnemonic", "derivation_path", "last_derivation_index",
      "creation_block_hash", "aliases"] j with
    | [id, name, mnemonic, path, index, block, aliases] =>
        return ⟨← required text? id, ← required text? name, ← required text? mnemonic,
          ← required text? path, ← required uint32? index, ← required hash256? block,
          ← required (listOf? text?) aliases⟩
    | _ => none

instance : Entity ScriptRecord Script where
  kind := .script
  key := ScriptRecord.script
  keyBytes := Script.bytes
  toJson s := record [("script_pubkey", ofScript s.script)]
  ofJson? j := do
    match ← fields? ["script_pubkey"] j with
    | [script] => return ⟨← required script? script⟩
    | _ => none

instance : Entity WalletScript WalletScriptKey where
  kind := .walletScript
  key w := ⟨w.walletId, w.script⟩
  keyBytes k := terminated k.walletId ++ k.script.bytes
  toJson w := record [("wallet_id", ofText w.walletId), ("script_pubkey", ofScript w.script),
    ("derivation_path", ofOption ofText w.derivationPath)]
  ofJson? j := do
    match ← fields? ["wallet_id", "script_pubkey", "derivation_path"] j with
    | [walletId, script, path] =>
        return ⟨← required text? walletId, ← required script? script, ← optional text? path⟩
    | _ => none

instance : Entity TransactionRecord Txid where
  kind := .transaction
  key := TransactionRecord.txid
  keyBytes := Hash256.bytes
  toJson t := record [("txid", ofHash256 t.txid), ("block_hash", ofOption ofHash256 t.block)]
  ofJson? j := do
    match ← fields? ["txid", "block_hash"] j with
    | [txid, block] => return ⟨← required hash256? txid, ← optional hash256? block⟩
    | _ => none

instance : Entity TransactionScript TransactionScriptKey where
  kind := .transactionScript
  key t := ⟨t.txid, t.script⟩
  keyBytes k := k.txid.bytes ++ k.script.bytes
  toJson t := record [("txid", ofHash256 t.txid), ("script_pubkey", ofScript t.script),
    ("spent", bool t.spent)]
  ofJson? j := do
    match ← fields? ["txid", "script_pubkey", "spent"] j with
    | [txid, script, spent] =>
        return ⟨← required hash256? txid, ← required script? script, ← required bool? spent⟩
    | _ => none

instance : Entity Coin Outpoint where
  kind := .coin
  key := Coin.outpoint
  keyBytes := Outpoint.keyBytes
  toJson c := record [("outpoint", ofOutpoint c.outpoint), ("script_pubkey", ofScript c.script),
    ("value", ofNat c.value.toNat), ("spent_by", ofOption ofSpentBy c.spentBy)]
  ofJson? j := do
    match ← fields? ["outpoint", "script_pubkey", "value", "spent_by"] j with
    | [outpoint, script, value, spentBy] =>
        return ⟨← required outpoint? outpoint, ← required script? script,
          ← required uint64? value, ← optional spentBy? spentBy⟩
    | _ => none

instance : Entity Channel ChannelKey where
  kind := .channel
  key c := ⟨c.walletId, c.funding⟩
  keyBytes k := terminated k.walletId ++ k.funding.keyBytes
  toJson c := record [("wallet_id", ofText c.walletId), ("funding", ofOutpoint c.funding),
    ("data", ofBytes c.data), ("spendable_data", ofOption ofBytes c.spendableData)]
  ofJson? j := do
    match ← fields? ["wallet_id", "funding", "data", "spendable_data"] j with
    | [walletId, funding, data, spendable] =>
        return ⟨← required text? walletId, ← required outpoint? funding, ← required bytes? data,
          ← optional bytes? spendable⟩
    | _ => none

instance : Entity Payment PaymentKey where
  kind := .payment
  key p := ⟨p.walletId, p.paymentHash, p.inbound, p.paymentId⟩
  keyBytes k := terminated k.walletId ++ terminated k.paymentHash ++
    (if k.inbound then 1 else 0) :: Bytes.utf8 k.paymentId
  toJson p := record [("wallet_id", ofText p.walletId), ("payment_hash", ofText p.paymentHash),
    ("inbound", bool p.inbound), ("payment_id", ofText p.paymentId),
    ("preimage", ofOption ofText p.preimage), ("secret", ofOption ofText p.secret),
    ("timestamp", ofNat p.timestamp.toNat), ("value_msat", ofNat p.valueMsat.toNat),
    ("status", ofText p.status.name)]
  ofJson? j := do
    match ← fields? ["wallet_id", "payment_hash", "inbound", "payment_id", "preimage", "secret",
      "timestamp", "value_msat", "status"] j with
    | [walletId, paymentHash, inbound, paymentId, preimage, secret, timestamp, value, status] =>
        return ⟨← required text? walletId, ← required text? paymentHash, ← required bool? inbound,
          ← required text? paymentId, ← optional text? preimage, ← optional text? secret,
          ← required uint64? timestamp, ← required uint64? value,
          ← required paymentStatus? status⟩
    | _ => none

instance : Entity Blob String where
  kind := .blob
  key := Blob.key
  keyBytes := Bytes.utf8
  toJson b := record [("key", ofText b.key), ("wallet_id", ofOption ofText b.walletId),
    ("value", ofBytes b.value)]
  ofJson? j := do
    match ← fields? ["key", "wallet_id", "value"] j with
    | [key, walletId, value] =>
        return ⟨← required text? key, ← optional text? walletId, ← required bytes? value⟩
    | _ => none

/-! ### Groups of rows -/

/-- A group of rows that are scanned together. -/
inductive RowRange where
  /-- All rows of a kind. -/
  | kind (k : EntityKind)
  /-- The scripts of a wallet. -/
  | walletScripts (walletId : String)
  /-- The scripts of a transaction. -/
  | transactionScripts (txid : Txid)
  /-- The coins that a transaction makes. -/
  | coinsFundedBy (txid : Txid)
  /-- The channels of a wallet. -/
  | channels (walletId : String)
  /-- The payments of a wallet. -/
  | payments (walletId : String)
deriving DecidableEq

/-- What the keys of a group of rows start with. -/
def RowRange.start : RowRange → Bytes
  | kind k => [k.byte]
  | walletScripts walletId => EntityKind.walletScript.byte :: terminated walletId
  | transactionScripts txid => EntityKind.transactionScript.byte :: txid.bytes
  | coinsFundedBy txid => EntityKind.coin.byte :: txid.bytes
  | channels walletId => EntityKind.channel.byte :: terminated walletId
  | payments walletId => EntityKind.payment.byte :: terminated walletId

end CoinLedger
