import CoinLedger.Key.Path
import CoinLedger.Transaction.Basic

/-! # What the ledger stores

Nine kinds of records make up the store: wallets, scripts, the scripts of each wallet,
transactions, the scripts of each transaction, coins, channels, payments and blobs.  Each kind has
a structure here, a key that identifies its records, and the few questions that are asked about a
single record. -/

namespace CoinLedger

/-- The kinds of records. -/
inductive EntityKind where
  | wallet
  | script
  | walletScript
  | transaction
  | transactionScript
  | coin
  | channel
  | payment
  | blob
deriving DecidableEq, Repr

namespace EntityKind

/-- All kinds. -/
def all : List EntityKind :=
  [wallet, script, walletScript, transaction, transactionScript, coin, channel, payment, blob]

/-- The byte that the keys of a kind start with. -/
def byte : EntityKind → UInt8
  | wallet => 0x77
  | script => 0x73
  | walletScript => 0x6b
  | transaction => 0x74
  | transactionScript => 0x78
  | coin => 0x75
  | channel => 0x63
  | payment => 0x6c
  | blob => 0x61

/-- The name of a kind. -/
def name : EntityKind → String
  | wallet => "Wallet"
  | script => "Script"
  | walletScript => "WalletScript"
  | transaction => "Transaction"
  | transactionScript => "TransactionScript"
  | coin => "Coin"
  | channel => "Channel"
  | payment => "LightningPayment"
  | blob => "ArbitraryData"

theorem byte_injective {a b : EntityKind} (h : a.byte = b.byte) : a = b := by
  cases a <;> cases b <;> first | rfl | exact absurd h (by decide)

end EntityKind

/-! ### Wallets and scripts -/

/-- A wallet: what its keys are made of, and a path template for its scripts. -/
structure Wallet where
  /-- The fingerprint of the master key. -/
  id : String
  name : String
  mnemonic : String
  /-- The template; the index of a script takes the place of `*`. -/
  derivationPath : String
  /-- The index of the last script, zero if there is none yet. -/
  lastIndex : UInt32
  /-- The last block when the wallet was made. -/
  creationBlock : BlockHash
  aliases : List String
deriving DecidableEq

namespace Wallet

/-- Whether this is the wallet's id or one of its aliases. -/
def isNamed (w : Wallet) (name : String) : Bool := w.id == name || w.aliases.contains name

/-- The path of the script with this index. -/
def pathFor (w : Wallet) (index : String) : String := Key.fill w.derivationPath index

end Wallet

/-- A script that the ledger knows. -/
structure ScriptRecord where
  script : Script
deriving DecidableEq

/-- What identifies a script of a wallet. -/
structure WalletScriptKey where
  walletId : String
  script : Script
deriving DecidableEq

/-- A script of a wallet. -/
structure WalletScript where
  walletId : String
  script : Script
  /-- The path of its key, if the key is known. -/
  derivationPath : Option String
deriving DecidableEq

/-! ### Transactions and coins -/

/-- A transaction that touches some wallet. -/
structure TransactionRecord where
  txid : Txid
  /-- The block that holds it, if any does. -/
  block : Option BlockHash
deriving DecidableEq

/-- Whether a block holds the transaction. -/
def TransactionRecord.isConfirmed (t : TransactionRecord) : Bool := t.block.isSome

/-- What identifies a script of a transaction. -/
structure TransactionScriptKey where
  txid : Txid
  script : Script
deriving DecidableEq

/-- A script of a transaction. -/
structure TransactionScript where
  txid : Txid
  script : Script
  /-- Whether the transaction spends a coin of the script, or else makes one. -/
  spent : Bool
deriving DecidableEq

/-- An input that spends a coin. -/
structure SpentBy where
  txid : Txid
  inputIndex : UInt32
deriving DecidableEq

/-- A coin: an output that the ledger keeps track of. -/
structure Coin where
  outpoint : Outpoint
  script : Script
  value : UInt64
  /-- The input that spends the coin, if one is known. -/
  spentBy : Option SpentBy
deriving DecidableEq

namespace Coin

/-- Whether some known transaction spends the coin. -/
def isSpent (c : Coin) : Bool := c.spentBy.isSome

/-- The output that the coin is. -/
def txout (c : Coin) : TxOut := ⟨c.value, c.script⟩

/-- The coin as an output to spend. -/
def utxo (c : Coin) : Utxo := ⟨c.outpoint, c.txout⟩

/-- Whether this script locks the coin. -/
def isLockedBy (c : Coin) (script : Script) : Bool := c.script == script

end Coin

/-! ### Channels and payments -/

/-- What identifies a channel. -/
structure ChannelKey where
  walletId : String
  funding : Outpoint
deriving DecidableEq

/-- A channel of a wallet. -/
structure Channel where
  walletId : String
  /-- The output that funds the channel. -/
  funding : Outpoint
  data : Bytes
  /-- What is needed to collect the funds of a closed channel. -/
  spendableData : Option Bytes
deriving DecidableEq

/-- How far a payment is. -/
inductive PaymentStatus where
  | pending
  | complete
  | failed
deriving DecidableEq, Repr

namespace PaymentStatus

/-- The name of a status. -/
def name : PaymentStatus → String
  | pending => "Pending"
  | complete => "Complete"
  | failed => "Failed"

/-- The status with this name. -/
def ofName? (s : String) : Option PaymentStatus :=
  [pending, complete, failed].find? fun p => p.name == s

@[simp] theorem ofName?_name (p : PaymentStatus) : ofName? p.name = some p := by
  cases p <;> decide

end PaymentStatus

/-- What identifies a payment. -/
structure PaymentKey where
  walletId : String
  paymentHash : String
  inbound : Bool
  paymentId : String
deriving DecidableEq

/-- A payment that a wallet makes or receives over its channels. -/
structure Payment where
  walletId : String
  paymentHash : String
  /-- Whether the wallet receives the payment. -/
  inbound : Bool
  paymentId : String
  preimage : Option String
  secret : Option String
  /-- Seconds since 1970. -/
  timestamp : UInt64
  /-- Thousandths of a satoshi. -/
  valueMsat : UInt64
  status : PaymentStatus
deriving DecidableEq

/-! ### Blobs -/

/-- A byte string that is kept under a name, for one wallet or for all. -/
structure Blob where
  /-- The scope followed by the name. -/
  key : String
  /-- The scope, if the blob belongs to a wallet. -/
  walletId : Option String
  value : Bytes
deriving DecidableEq

namespace Blob

/-- The key of a name in a scope. -/
def composeKey (walletId : Option String) (name : String) : String := walletId.getD "" ++ name

/-- The rest of a text behind the first `start`, if it starts with it. -/
def dropScope? : List Char → List Char → Option (List Char)
  | [], cs => some cs
  | s :: ss, c :: cs => if s = c then dropScope? ss cs else none
  | _ :: _, [] => none

/-- The key without the scope in front, or the whole key if the scope is not in front of it. -/
def name (b : Blob) : String :=
  match dropScope? (b.walletId.getD "").toList b.key.toList with
  | some cs => String.ofList cs
  | none => b.key

end Blob

end CoinLedger
