import CoinLedger.Store.Overlay

/-! # Write operations

An `Operation` says what is to be written rather than how the rows will look: what it does to a
row that exists already is decided when it is carried out.  There are two policies.  An operation
named `insert…` makes a row only if there is none; the others change the fields that they name and
leave the rest of the row.

`Operation.apply` carries one operation out on whatever can be read and written like a store.
`stage` carries out a batch on an overlay, so that each operation sees what the operations before it
did, and `commit` makes the changes then, or returns the error of the first operation that fails. -/

namespace CoinLedger

/-- One write operation. -/
inductive Operation where
  /-- Makes a wallet; fails if there is one with its id. -/
  | insertWallet (wallet : Wallet)
  /-- Raises the index of the last script; fails if there is no such wallet. -/
  | raiseIndex (walletId : String) (index : UInt32)
  /-- Appends the aliases that a wallet does not have; fails if there is no such wallet. -/
  | addAliases (walletId : String) (aliases : List String)
  | insertScript (script : ScriptRecord)
  | insertWalletScript (script : WalletScript)
  /-- Makes a script of a wallet, or fills in its path if that is not known. -/
  | mergeWalletScript (script : WalletScript)
  /-- Makes a transaction, or changes the block of one. -/
  | upsertTransaction (transaction : TransactionRecord)
  /-- Changes the block of a transaction, if there is one. -/
  | setBlock (txid : Txid) (block : Option BlockHash)
  /-- Removes all traces of a transaction. -/
  | retractTransaction (txid : Txid)
  | insertTransactionScript (script : TransactionScript)
  | insertCoin (coin : Coin)
  /-- Makes a coin, or changes the input that spends one. -/
  | mergeCoinSpend (coin : Coin)
  /-- Makes a channel, or changes the data of one. -/
  | upsertChannel (channel : Channel)
  /-- Attaches data to the channels of a wallet whose funding coin is spent by this input. -/
  | attachSpendableData (walletId : String) (spending : Outpoint) (data : Bytes)
  /-- Writes a payment. -/
  | upsertPayment (payment : Payment)
  /-- Marks a payment as failed or complete, if there is one. -/
  | updatePayment (key : PaymentKey) (failed : Bool) (preimage : Option String)
  /-- Writes a blob. -/
  | putBlob (blob : Blob)
  /-- Removes a blob, if there is one. -/
  | deleteBlob (key : String)

/-- Operations that are carried out together, in this order. -/
abbrev Batch := List Operation

/-! ### Changes of single records

What an operation makes of the record that it finds: a record to be written, or nothing. -/

/-- The aliases of a wallet with those appended that are new. -/
def mergeAliases (old new : List String) : List String :=
  new.foldl (fun acc a => if acc.contains a then acc else acc ++ [a]) old

/-- Whether the input `spending.vout` of the transaction `spending.txid` spends the coin. -/
def Coin.isSpentByInput (c : Coin) (spending : Outpoint) : Bool :=
  c.spentBy == some ⟨spending.txid, spending.vout⟩

/-- Whether the transaction spends the coin. -/
def Coin.isSpentByTransaction (c : Coin) (txid : Txid) : Bool :=
  match c.spentBy with
  | some s => s.txid == txid
  | none => false

/-- A payment after an update.  Failure is not believed of a completed payment, and a preimage
stays. -/
def Payment.update (p : Payment) (failed : Bool) (preimage : Option String) : Payment :=
  { p with
    status := if failed then .failed else .complete
    preimage := match p.preimage with
      | some known => some known
      | none => preimage }

namespace Operation

/-- A record is made only if there is none. -/
def inserted {α : Type} (a : α) : Option α → Option α
  | some _ => none
  | none => some a

/-- A wallet is made, and there may be none with its id. -/
def newWallet (wallet : Wallet) : Option Wallet → Except Error (Option Wallet)
  | some _ => .error (.walletAlreadyExists wallet.id)
  | none => .ok (some wallet)

/-- The index of the last script of a wallet only grows. -/
def raisedIndex (walletId : String) (index : UInt32) : Option Wallet → Except Error (Option Wallet)
  | some w => .ok (if w.lastIndex < index then some { w with lastIndex := index } else none)
  | none => .error (.walletNotFound walletId)

/-- A wallet gets the aliases that it does not have. -/
def mergedAliases (walletId : String) (aliases : List String) :
    Option Wallet → Except Error (Option Wallet)
  | some w =>
      let merged := mergeAliases w.aliases aliases
      .ok (if merged.length ≠ w.aliases.length then some { w with aliases := merged } else none)
  | none => .error (.walletNotFound walletId)

/-- A known path stays. -/
def filledPath (script : WalletScript) : Option WalletScript → Option WalletScript
  | some known =>
      if known.derivationPath.isNone && script.derivationPath.isSome then
        some { known with derivationPath := script.derivationPath }
      else none
  | none => some script

/-- A transaction gets the block that is reported, also if that is none. -/
def mergedBlock (transaction : TransactionRecord) :
    Option TransactionRecord → Option TransactionRecord
  | some known =>
      if known.block ≠ transaction.block then some { known with block := transaction.block } else none
  | none => some transaction

/-- A known coin gets the input that is reported to spend it, and keeps its script and value. -/
def mergedSpend (coin : Coin) : Option Coin → Option Coin
  | some known =>
      if known.spentBy ≠ coin.spentBy then some { known with spentBy := coin.spentBy } else none
  | none => some coin

/-- A channel keeps what is attached to it, unless something else is attached. -/
def mergedChannel (channel : Channel) : Option Channel → Channel
  | some known =>
      { channel with
        spendableData := match channel.spendableData with
          | some data => some data
          | none => known.spendableData }
  | none => channel

/-- A payment is updated if there is one, and a completed one does not fail. -/
def updated (failed : Bool) (preimage : Option String) : Option Payment → Option Payment
  | some payment =>
      if failed && payment.status == .complete then none else some (payment.update failed preimage)
  | none => none

/-! ### The steps of operations on many rows -/

variable {σ : Type} [RowStore σ]

/-- Attaches data to one channel if its funding coin is spent by this input. -/
def attachTo (spending : Outpoint) (data : Bytes) (s : σ) (c : Channel) : Except Error σ := do
  match ← getEntity Coin s c.funding with
  | some coin =>
      if coin.isSpentByInput spending then return putEntity s { c with spendableData := some data }
      else return s
  | none => return s

/-- The channels of any wallet that one of these coins funds. -/
def channelsFundedBy (s : σ) (coins : List Coin) : Except Error (List Channel) :=
  if coins.isEmpty then .ok []
  else (channelsOf s none).map fun channels =>
    channels.filter fun c => coins.any fun coin => coin.outpoint == c.funding

/-- Removes all traces of a transaction: the channels funded by its coins, its coins, its scripts
and its record; then the coins that it spent are unspent. -/
def retract (txid : Txid) (s : σ) : Except Error σ := do
  let funded ← coinsFundedBy s txid
  let closed ← channelsFundedBy s funded
  let s := removeEntities Channel s (closed.map Entity.key)
  let s := removeEntities Coin s (funded.map Entity.key)
  let scripts ← transactionScripts s txid
  let s := removeEntities TransactionScript s (scripts.map Entity.key)
  let s := removeEntity TransactionRecord s txid
  let spent := (← allCoins s).filter fun c => c.isSpentByTransaction txid
  return putEntities s (spent.map fun c => { c with spentBy := none })

/-! ### Carrying out operations -/

/-- Carries out one operation. -/
def apply (s : σ) : Operation → Except Error σ
  | insertWallet wallet => reviseEntity Wallet s wallet.id (newWallet wallet)
  | raiseIndex walletId index => reviseEntity Wallet s walletId (raisedIndex walletId index)
  | addAliases walletId aliases => reviseEntity Wallet s walletId (mergedAliases walletId aliases)
  | insertScript script => reviseEntity ScriptRecord s script.script (.ok ∘ inserted script)
  | insertWalletScript script =>
      reviseEntity WalletScript s (Entity.key script) (.ok ∘ inserted script)
  | mergeWalletScript script =>
      reviseEntity WalletScript s (Entity.key script) (.ok ∘ filledPath script)
  | upsertTransaction transaction =>
      reviseEntity TransactionRecord s transaction.txid (.ok ∘ mergedBlock transaction)
  | setBlock txid block =>
      reviseEntity TransactionRecord s txid (.ok ∘ Option.map fun t => { t with block := block })
  | retractTransaction txid => retract txid s
  | insertTransactionScript script =>
      reviseEntity TransactionScript s (Entity.key script) (.ok ∘ inserted script)
  | insertCoin coin => reviseEntity Coin s coin.outpoint (.ok ∘ inserted coin)
  | mergeCoinSpend coin => reviseEntity Coin s coin.outpoint (.ok ∘ mergedSpend coin)
  | upsertChannel channel =>
      reviseEntity Channel s (Entity.key channel) (.ok ∘ some ∘ mergedChannel channel)
  | attachSpendableData walletId spending data => do
      (← channelsOf s (some walletId)).foldlM (attachTo spending data) s
  | upsertPayment payment => return putEntity s payment
  | updatePayment key failed preimage =>
      reviseEntity Payment s key (.ok ∘ updated failed preimage)
  | putBlob blob => return putEntity s blob
  | deleteBlob key => return removeEntity Blob s key

end Operation

/-- The changes that a batch makes to a store. -/
def stage (s : Store) (batch : Batch) : Except Error Overlay :=
  batch.foldlM Operation.apply (Overlay.ofStore s)

/-- Carries out a batch as a whole. -/
def commit (s : Store) (batch : Batch) : Except Error Store := (stage s batch).map Overlay.settle

end CoinLedger
