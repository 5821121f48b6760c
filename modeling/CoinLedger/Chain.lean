import CoinLedger.Error
import CoinLedger.Transaction.Basic

/-! # What is seen of the chain

A `TransactionEvent` reports a transaction that touches a tracked source: the inputs and outputs
that concern the source, the block if it is in one, and the transaction that it replaces if there
is one.

A `ChainTable` stands for the service that watches the chain.  It can be asked to track a script
and what it knows of a transaction.  The table says which requests fail, with any error whatever, and
keeps what it was asked to track. -/

namespace CoinLedger

/-! ### Events -/

/-- What the service was tracking when it saw a transaction. -/
inductive TrackedSource where
  /-- Scripts that are derived from the keys of a wallet. -/
  | scheme (name : String)
  /-- Single scripts. -/
  | external (name : String)
deriving DecidableEq

namespace TrackedSource

/-- Whether the scripts of the source are derived from the keys of a wallet. -/
def isDeterministic : TrackedSource → Bool
  | scheme _ => true
  | external _ => false

/-- The name of the source. -/
def name : TrackedSource → String
  | scheme n => n
  | external n => n

end TrackedSource

/-- An input that spends a coin of the source. -/
structure ObservedInput where
  inputIndex : UInt32
  previous : Outpoint
  script : Script
  value : UInt64
  /-- Where the script stands below the source, if that is known. -/
  keyPath : Option String
deriving DecidableEq

/-- An output that pays to the source. -/
structure ObservedOutput where
  index : UInt32
  script : Script
  value : UInt64
  /-- Where the script stands below the source, if that is known. -/
  keyPath : Option String
deriving DecidableEq

/-- A transaction that touches a source. -/
structure TransactionEvent where
  txid : Txid
  block : Option BlockHash
  /-- The transaction that this one replaces, if it is said to replace one. -/
  replaced : Option Txid
  inputs : List ObservedInput
  outputs : List ObservedOutput
deriving DecidableEq

namespace TransactionEvent

/-- The scripts of the inputs, then those of the outputs. -/
def allScripts (e : TransactionEvent) : List Script :=
  e.inputs.map (·.script) ++ e.outputs.map (·.script)

/-- The scripts of the event, each once, where it comes first. -/
def scripts (e : TransactionEvent) : List Script :=
  e.allScripts.foldl (fun acc s => if acc.contains s then acc else acc ++ [s]) []

/-- The transaction that is replaced.  The hash of zeros names none, and no transaction replaces
itself. -/
def effectiveReplaced (e : TransactionEvent) : Option Txid :=
  e.replaced.filter fun r => r ≠ Hash256.zero ∧ r ≠ e.txid

end TransactionEvent

/-! ### The service -/

/-- The requests of one kind that fail, each with the error that answers it. -/
structure Refusals (α : Type) where
  answers : List (α × Error)
deriving Inhabited

namespace Refusals

/-- The error that answers a request, if the request fails. -/
def error? {α : Type} [BEq α] (r : Refusals α) (a : α) : Option Error := r.answers.lookup a

/-- These requests fail, with texts that name them. -/
def ofTexts {α : Type} (text : α → String) (asked : List α) : Refusals α :=
  ⟨asked.map fun a => (a, .generic (text a))⟩

theorem generic_of_ofTexts {α : Type} [BEq α] {text : α → String} {asked : List α} {a : α}
    {e : Error} (h : (ofTexts text asked).error? a = some e) : ∃ s, e = .generic s := by
  induction asked with
  | nil => cases h
  | cons b asked ih =>
      rw [error?, ofTexts, List.map_cons, List.lookup_cons] at h
      split at h
      · exact ⟨text b, (Option.some.inj h).symm⟩
      · exact ih h

/-- If nothing is said of the errors, they are texts. -/
instance : Coe (List String) (Refusals String) := ⟨ofTexts ("cannot track for " ++ ·)⟩

instance : Coe (List Txid) (Refusals Txid) := ⟨ofTexts fun t => "no status for " ++ t.text⟩

end Refusals

/-- What the service does when it is asked. -/
structure ChainTable where
  /-- The wallets for which no script can be tracked. -/
  failTrack : Refusals String
  /-- The transactions about which questions fail. -/
  failStatus : Refusals Txid
  /-- The transactions that are known and the blocks that hold them, the latest news first. -/
  statuses : List (Txid × Option BlockHash)
  /-- The scripts to be tracked and their wallets, in the order of the requests. -/
  tracked : List (String × Script)
deriving Inhabited

namespace ChainTable

/-- Asks to track a script of a wallet. -/
def track (t : ChainTable) (walletId : String) (script : Script) : Except Error ChainTable :=
  match t.failTrack.error? walletId with
  | some e => .error e
  | none => .ok { t with tracked := t.tracked ++ [(walletId, script)] }

/-- Asks for the block that holds a transaction: none if the transaction is not known, and no
block if it is known and not in one. -/
def status (t : ChainTable) (txid : Txid) : Except Error (Option (Option BlockHash)) :=
  match t.failStatus.error? txid with
  | some e => .error e
  | none => .ok (t.statuses.lookup txid)

theorem track_eq_error_iff {t : ChainTable} {walletId : String} {script : Script} {e : Error} :
    t.track walletId script = .error e ↔ t.failTrack.error? walletId = some e := by
  unfold track
  cases t.failTrack.error? walletId <;> simp

theorem status_eq_error_iff {t : ChainTable} {txid : Txid} {e : Error} :
    t.status txid = .error e ↔ t.failStatus.error? txid = some e := by
  unfold status
  cases t.failStatus.error? txid <;> simp

/-- Adds news about a transaction. -/
def setStatus (t : ChainTable) (txid : Txid) (block : Option BlockHash) : ChainTable :=
  { t with statuses := (txid, block) :: t.statuses }

end ChainTable

end CoinLedger
