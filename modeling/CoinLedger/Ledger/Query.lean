import CoinLedger.Ledger.Blobs
import CoinLedger.Ledger.Spending

/-! # Queries

A `Query` is something that is read from a ledger.  The answer (`Query.answer`) depends on the store
alone, and asking is an action (`Query.action`).  Together with the requests these are all the things
for which a ledger is there. -/

namespace CoinLedger.Ledger

/-- Something that is read from a ledger, and of which type the answer is. -/
inductive Query : Type → Type 1 where
  /-- The wallet with this id or alias. -/
  | wallet (name : String) : Query (Option Wallet)
  | wallets : Query (List Wallet)
  | unspentCoins (walletId : String) : Query (List Coin)
  | spendableGroups (walletId : String) : Query (List CoinGroup)
  | transaction (txid : Txid) : Query (Option TransactionRecord)
  | transactionScripts (txid : Txid) : Query (List TransactionScript)
  | pendingTransactions : Query (List TransactionRecord)
  | coin (outpoint : Outpoint) : Query (Option Coin)
  | channels (walletId : String) : Query (List Channel)
  | payments (walletId : String) : Query (List Payment)
  | blob (walletId : Option String) (name : String) : Query (Option Bytes)
  | blobs (walletId : Option String) : Query (List (String × Bytes))
  /-- A value of some type that is kept as text under a name. -/
  | value {α : Type} (f : Json → Option α) (walletId : Option String) (name : String) :
      Query (Option α)

namespace Query

/-- What a store answers. -/
def answer {α : Type} (s : Store) : Query α → Except Error α
  | wallet name => findWallet s name
  | wallets => allWallets s
  | unspentCoins walletId => Ledger.unspentCoins s walletId
  | spendableGroups walletId => Ledger.spendableGroups s walletId
  | transaction txid => getEntity TransactionRecord s txid
  | transactionScripts txid => CoinLedger.transactionScripts s txid
  | pendingTransactions => CoinLedger.pendingTransactions s
  | coin outpoint => getEntity Coin s outpoint
  | channels walletId => channelsOf s (some walletId)
  | payments walletId => paymentsOf s walletId
  | blob walletId name => blobBytes s walletId name
  | blobs walletId => blobsOf s walletId
  | value f walletId name => decodedBlob f s walletId name

/-- Whether a value is asked for, of a type that the ledger knows nothing of. -/
def isTyped {α : Type} : Query α → Bool
  | value .. => true
  | _ => false

/-- Asks a ledger. -/
def action {α : Type} (q : Query α) : Action α := read fun s => q.answer s

@[simp] theorem run_action {α : Type} (l : Ledger) (q : Query α) :
    l.run q.action = (q.answer l.store, l) := run_read l _

end Query

end CoinLedger.Ledger
