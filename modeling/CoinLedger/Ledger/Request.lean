import CoinLedger.Ledger.Blobs
import CoinLedger.Ledger.Ingest
import CoinLedger.Ledger.Lightning
import CoinLedger.Ledger.Spending

/-! # Requests

A `Request` is something that is asked of a ledger and may change it.  `Ledger.serve` does what is
asked and keeps the ledger that is left, whether there is a result or an error, and
`Ledger.serveAll` serves a list of requests.  What only reads is a function of the store and no
request.

Two requests stand for the surroundings of a ledger: the service that watches the chain may be
another one, or answer differently, between any two requests, and a store may be opened anew.  The
order in which coins happen to stand may be another one for each transaction that is built.
`Reachable` are the ledgers to which requests lead from an empty store. -/

namespace CoinLedger

namespace Ledger

/-- Something that is asked of a ledger. -/
inductive Request where
  | createWallet (mnemonic name template : String) (creationBlock : BlockHash)
      (aliases : List String)
  | addAliases (walletId : String) (aliases : List String)
  | trackScript (walletId : String) (script : Script)
  | deriveScript (walletId : String)
  | observe (name : String) (source : TrackedSource) (event : TransactionEvent)
  | newBlock
  | buildTransaction (walletId : String) (outputs : List TxOut) (feeRate : FeeRate)
      (explicit : List Utxo) (order : CoinOrder)
  | signTransaction (walletId : String) (transaction : Transaction)
  | putBlob (walletId : Option String) (name : String) (value : Option Bytes)
  | upsertChannel (walletId : String) (funding : Outpoint) (data : Bytes)
  | attachSpendableData (walletId : String) (outputs : List SpendableOutput)
  | recordPayment (payment : Payment)
  | updatePayment (key : PaymentKey) (failed : Bool) (preimage : Option String)
  /-- From now on this service watches the chain. -/
  | setChain (chain : Option ChainTable)
  /-- The store is opened for this network, and no master key is known. -/
  | reopen (network : Network)

/-- What is done when it is asked; the result is dropped. -/
def Request.action : Request → Action Unit
  | createWallet mnemonic name template creationBlock aliases => do
      let _ ← Ledger.createWallet mnemonic name template creationBlock aliases
  | addAliases walletId aliases => Ledger.addAliases walletId aliases
  | trackScript walletId script => Ledger.trackScript walletId script
  | deriveScript walletId => do
      let _ ← Ledger.deriveScript walletId
  | observe name source event => Ledger.observe name source event
  | newBlock => do
      let _ ← Ledger.newBlock
  | buildTransaction walletId outputs feeRate explicit order => do
      let _ ← Ledger.buildTransaction walletId outputs feeRate explicit order
  | signTransaction walletId transaction => do
      let _ ← Ledger.signTransaction walletId transaction
  | putBlob walletId name value => Ledger.putBlob walletId name value
  | upsertChannel walletId funding data => Ledger.upsertChannel walletId funding data
  | attachSpendableData walletId outputs => Ledger.attachSpendableData walletId outputs
  | recordPayment payment => Ledger.recordPayment payment
  | updatePayment key failed preimage => Ledger.updatePayment key failed preimage
  | setChain chain => modify fun l => { l with chain := chain }
  | reopen network => modify fun l => .ofStore l.store network l.chain

/-- The ledger after a request, served or refused. -/
def serve (l : Ledger) (r : Request) : Ledger := (l.run r.action).2

/-- The ledger after requests, one after the other. -/
def serveAll (l : Ledger) (requests : List Request) : Ledger := requests.foldl serve l

@[simp] theorem serveAll_nil (l : Ledger) : l.serveAll [] = l := rfl

@[simp] theorem serveAll_cons (l : Ledger) (r : Request) (requests : List Request) :
    l.serveAll (r :: requests) = (l.serve r).serveAll requests := rfl

theorem serveAll_append (l : Ledger) (requests more : List Request) :
    l.serveAll (requests ++ more) = (l.serveAll requests).serveAll more :=
  List.foldl_append

end Ledger

/-- The ledgers to which requests lead from an empty store. -/
inductive Reachable : Ledger → Prop where
  | opened (network : Network) (chain : Option ChainTable) :
      Reachable (.ofStore .empty network chain)
  | served {l : Ledger} (h : Reachable l) (r : Ledger.Request) : Reachable (l.serve r)

theorem Reachable.serveAll {l : Ledger} (h : Reachable l) (requests : List Ledger.Request) :
    Reachable (l.serveAll requests) := by
  induction requests generalizing l with
  | nil => exact h
  | cons r requests ih => exact ih (h.served r)

end CoinLedger
