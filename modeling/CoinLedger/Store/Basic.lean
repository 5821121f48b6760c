import CoinLedger.ByteMap
import CoinLedger.Entity.Basic
import CoinLedger.Error

/-! # The store and its readers

A `Store` is an ordered map from row keys to the texts of records.

`RowSource` is what can be read like a store: it finds a row by its key and lists the rows whose
key starts with given bytes.  `getEntity` and `scanEntities` read records from any row source, and
fail if the text of a row is no record of the kind asked for.  The readers below them are the
questions that the rest of the library asks.

`RowStore` is what can be written like a store as well, one row at a time; `putEntity` and
`removeEntity` write and remove a record, and `reviseEntity` writes what is made of the record that is
there. -/

namespace CoinLedger

/-- The rows of a ledger. -/
abbrev Store := ByteMap Bytes

/-- What can be read like a store. -/
class RowSource (σ : Type) where
  row? : σ → Bytes → Option Bytes
  rowsFrom : σ → Bytes → List (Bytes × Bytes)

instance : RowSource Store where
  row? := ByteMap.get?
  rowsFrom := ByteMap.scan

/-- What can be written like a store: a row gets a new value, or is removed if there is none. -/
class RowStore (σ : Type) extends RowSource σ where
  setRow : σ → Bytes → Option Bytes → σ

instance : RowStore Store where
  setRow := ByteMap.set

section

variable {σ κ : Type} [RowSource σ]

/-- The record that a row holds. -/
def readRow (α : Type) [Entity α κ] (bs : Bytes) : Except Error α :=
  match decodeEntity? α bs with
  | some a => .ok a
  | none => .error .json

/-- The record with this key. -/
def getEntity (α : Type) [Entity α κ] (s : σ) (key : κ) : Except Error (Option α) :=
  match RowSource.row? s (rowKey α key) with
  | some bs => (readRow α bs).map some
  | none => .ok none

/-- The records of a group of rows, in the order of their keys. -/
def scanEntities (α : Type) [Entity α κ] (s : σ) (range : RowRange) : Except Error (List α) :=
  (RowSource.rowsFrom s range.start).mapM fun row => readRow α row.2

/-! ### Readers -/

/-- All wallets. -/
def allWallets (s : σ) : Except Error (List Wallet) := scanEntities Wallet s (.kind .wallet)

/-- The wallet with this id, or an error that says there is none. -/
def requireWallet (s : σ) (id : String) : Except Error Wallet := do
  match ← getEntity Wallet s id with
  | some w => return w
  | none => throw (.walletNotFound id)

/-- The wallet with this id, or else the first one that has it among its aliases. -/
def findWallet (s : σ) (name : String) : Except Error (Option Wallet) := do
  match ← getEntity Wallet s name with
  | some w => return some w
  | none => return (← allWallets s).find? fun w => w.isNamed name

/-- The scripts of a wallet. -/
def walletScripts (s : σ) (walletId : String) : Except Error (List WalletScript) :=
  scanEntities WalletScript s (.walletScripts walletId)

/-- All transactions. -/
def allTransactions (s : σ) : Except Error (List TransactionRecord) :=
  scanEntities TransactionRecord s (.kind .transaction)

/-- The transactions that no block holds. -/
def pendingTransactions (s : σ) : Except Error (List TransactionRecord) := do
  return (← allTransactions s).filter fun t => !t.isConfirmed

/-- The scripts of a transaction. -/
def transactionScripts (s : σ) (txid : Txid) : Except Error (List TransactionScript) :=
  scanEntities TransactionScript s (.transactionScripts txid)

/-- All coins. -/
def allCoins (s : σ) : Except Error (List Coin) := scanEntities Coin s (.kind .coin)

/-- The coins that a transaction makes. -/
def coinsFundedBy (s : σ) (txid : Txid) : Except Error (List Coin) :=
  scanEntities Coin s (.coinsFundedBy txid)

/-- The channels of a wallet, or of all wallets. -/
def channelsOf (s : σ) : Option String → Except Error (List Channel)
  | some walletId => scanEntities Channel s (.channels walletId)
  | none => scanEntities Channel s (.kind .channel)

/-- The payments of a wallet. -/
def paymentsOf (s : σ) (walletId : String) : Except Error (List Payment) :=
  scanEntities Payment s (.payments walletId)

/-- All blobs. -/
def allBlobs (s : σ) : Except Error (List Blob) := scanEntities Blob s (.kind .blob)

end

/-! ### Writers -/

section

variable {σ α κ : Type} [RowStore σ]

/-- Writes a record into its row. -/
def putEntity [Entity α κ] (s : σ) (a : α) : σ :=
  RowStore.setRow s (rowKey α (Entity.key a)) (some (encodeEntity a))

/-- Writes what `f` makes of the record with this key, if it makes anything; `f` is given nothing if
there is no such record. -/
def reviseEntity (α : Type) [Entity α κ] (s : σ) (key : κ)
    (f : Option α → Except Error (Option α)) : Except Error σ := do
  match ← f (← getEntity α s key) with
  | some a => return putEntity s a
  | none => return s

/-- Removes the row of the record with this key. -/
def removeEntity (α : Type) [Entity α κ] (s : σ) (key : κ) : σ :=
  RowStore.setRow s (rowKey α key) none

/-- Writes records one after the other. -/
def putEntities [Entity α κ] (s : σ) (as : List α) : σ := as.foldl putEntity s

/-- Removes the rows of the records with these keys. -/
def removeEntities (α : Type) [Entity α κ] (s : σ) (keys : List κ) : σ :=
  keys.foldl (removeEntity α) s

end

end CoinLedger
