import CoinLedger.Ledger.Wallets

/-! # Calls that derive scripts at the same time

`Derivations` is what several calls of `deriveScript` work on together: the ledger, the wallets whose
lock is held, the calls, and a log of what was committed.  A call goes through its `Phase`s in
`Move`s: it takes the lock of its wallet, derives the next script, and commits it, by which the lock
is free again.  A call that fails to derive or to commit, or is cancelled before it has committed,
gives the lock back.

`step` makes one move, if it can be made, and `run` makes moves of any calls in any order.  What a
call does after it has committed, asking the service that watches the chain to track the script,
needs no lock and is no part of this. -/

namespace CoinLedger.Ledger

/-- How far a call has come. -/
inductive Phase where
  | waiting
  /-- It holds the lock of its wallet. -/
  | locked
  /-- It holds the lock, and this is what it is about to commit. -/
  | derived (next : NextScript)
  | committed (next : NextScript)
  | failed (error : Error)
  | cancelled

/-- Whether a call in this phase holds the lock of its wallet. -/
def Phase.holdsLock : Phase → Bool
  | locked | derived _ => true
  | waiting | committed _ | failed _ | cancelled => false

/-- A call that derives a script for a wallet. -/
structure Call where
  walletId : String
  phase : Phase

/-- A script that a call has committed. -/
structure Commit where
  call : Nat
  walletId : String
  next : NextScript

/-- One move of the call with this number. -/
inductive Move where
  | lock (call : Nat)
  | derive (call : Nat)
  | commit (call : Nat)
  | cancel (call : Nat)

/-- Calls that work on one ledger. -/
structure Derivations where
  ledger : Ledger
  /-- The wallets whose lock is held. -/
  held : List String
  calls : List Call
  /-- What was committed, the oldest first. -/
  log : List Commit

namespace Derivations

/-- Calls for these wallets, none of which has moved. -/
def start (l : Ledger) (walletIds : List String) : Derivations :=
  ⟨l, [], walletIds.map fun id => ⟨id, .waiting⟩, []⟩

/-- The call with this number enters a phase. -/
def enter (d : Derivations) (call : Nat) (phase : Phase) : Derivations :=
  { d with calls := d.calls.modify call fun c => { c with phase := phase } }

/-- The lock of a wallet is free again. -/
def release (d : Derivations) (walletId : String) : Derivations :=
  { d with held := d.held.erase walletId }

/-- Something is committed. -/
def record (d : Derivations) (commit : Commit) : Derivations :=
  { d with log := d.log ++ [commit] }

/-- A call takes the lock of its wallet, if it is free. -/
def lock (d : Derivations) (call : Nat) : Option Derivations :=
  match d.calls[call]? with
  | some ⟨w, .waiting⟩ =>
      if w ∈ d.held then none else some (enter { d with held := w :: d.held } call .locked)
  | _ => none

/-- A call that holds the lock derives the next script of its wallet. -/
def derive (d : Derivations) (call : Nat) : Option Derivations :=
  match d.calls[call]? with
  | some ⟨w, .locked⟩ =>
      match d.ledger.run (nextScript w) with
      | (.ok next, l) => some (enter { d with ledger := l } call (.derived next))
      | (.error e, l) => some (enter (release { d with ledger := l } w) call (.failed e))
  | _ => none

/-- A call commits what it has derived. -/
def commit (d : Derivations) (call : Nat) : Option Derivations :=
  match d.calls[call]? with
  | some ⟨w, .derived next⟩ =>
      match d.ledger.run (write (next.batch w)) with
      | (.ok (), l) =>
          let d := record { d with ledger := l } ⟨call, w, next⟩
          some (enter (release d w) call (.committed next))
      | (.error e, l) => some (enter (release { d with ledger := l } w) call (.failed e))
  | _ => none

/-- A call that has not committed is cancelled. -/
def cancel (d : Derivations) (call : Nat) : Option Derivations :=
  match d.calls[call]? with
  | some ⟨w, phase⟩ =>
      if phase.holdsLock then some (enter (release d w) call .cancelled)
      else
        match phase with
        | .waiting => some (enter d call .cancelled)
        | _ => none
  | none => none

/-- Makes a move, if it can be made. -/
def step (d : Derivations) : Move → Option Derivations
  | .lock call => d.lock call
  | .derive call => d.derive call
  | .commit call => d.commit call
  | .cancel call => d.cancel call

/-- Makes moves one after the other, if all of them can be made. -/
def run (d : Derivations) (moves : List Move) : Option Derivations := moves.foldlM step d

/-- What was committed for a wallet, the oldest first. -/
def commitsOf (d : Derivations) (walletId : String) : List Commit :=
  d.log.filter fun c => c.walletId == walletId

end Derivations

end CoinLedger.Ledger
