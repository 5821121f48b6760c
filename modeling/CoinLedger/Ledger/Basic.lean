import CoinLedger.Chain
import CoinLedger.Key.Derived
import CoinLedger.Store.Operation

/-! # The ledger

A `Ledger` is a store, the network that its wallets are made for, the master keys that were
computed so far, and the service that watches the chain, if there is one.

An `Action` is a step that may change the ledger and may fail.  The ledger that a failing action
leaves behind is the one it had reached: what it committed before stays.  All writes go through
`Ledger.write`, which commits a batch or leaves the store as it is, and `Ledger.run` carries an
action out.  `run_bind`, `run_read` and `run_write` say what a run does step by step, `run_bind_ok` and
`run_write_ok` what a run that succeeds has done. -/

namespace CoinLedger

/-- A ledger. -/
structure Ledger where
  store : Store
  network : Network
  /-- Master keys by the ids of their wallets, the newest first. -/
  masterKeys : List (String × Key.ExtendedKey)
  chain : Option ChainTable
deriving Inhabited

/-- A step that may change the ledger and may fail. -/
abbrev Action (α : Type) := ExceptT Error (StateM Ledger) α

namespace Ledger

/-- A ledger on a store, no master keys known. -/
def ofStore (store : Store) (network : Network) (chain : Option ChainTable) : Ledger :=
  ⟨store, network, [], chain⟩

/-- Carries an action out: its result or its error, and the ledger afterwards. -/
def run {α : Type} (l : Ledger) (a : Action α) : Except Error α × Ledger := StateT.run a.run l

section

variable {α β : Type}

@[simp] theorem run_pure (l : Ledger) (a : α) : l.run (pure a) = (.ok a, l) := rfl

@[simp] theorem run_get (l : Ledger) : l.run get = (.ok l, l) := rfl

@[simp] theorem run_throw (l : Ledger) (e : Error) :
    l.run (throw e : Action α) = (.error e, l) := rfl

theorem run_bind (l : Ledger) (a : Action α) (f : α → Action β) :
    l.run (a >>= f) =
      match l.run a with
      | (.ok x, l') => l'.run (f x)
      | (.error e, l') => (.error e, l') := by
  show StateT.run (a >>= f).run l = _
  rw [ExceptT.run_bind]
  simp only [StateT.run_bind, run]
  rcases StateT.run a.run l with ⟨_ | _, _⟩ <;> rfl

theorem run_bind_ok {l l' : Ledger} {a : Action α} {f : α → Action β} {b : β}
    (h : l.run (a >>= f) = (.ok b, l')) :
    ∃ x l₁, l.run a = (.ok x, l₁) ∧ l₁.run (f x) = (.ok b, l') := by
  rw [run_bind] at h
  rcases hrun : l.run a with ⟨e | x, l₁⟩
  · rw [hrun] at h
    cases h
  · rw [hrun] at h
    exact ⟨x, l₁, rfl, h⟩

end

/-! ### Reading and writing -/

/-- Reads from the store. -/
def read {α : Type} (f : Store → Except Error α) : Action α := do
  match f (← get).store with
  | .ok a => return a
  | .error e => throw e

@[simp] theorem run_read {α : Type} (l : Ledger) (f : Store → Except Error α) :
    l.run (read f) = (f l.store, l) := by
  show l.run (match f l.store with | .ok a => pure a | .error e => throw e) = _
  cases f l.store <;> rfl

/-- Commits a batch. -/
def write (batch : Batch) : Action Unit := do
  match commit (← get).store batch with
  | .ok s => modify fun l => { l with store := s }
  | .error e => throw e

theorem run_write (l : Ledger) (batch : Batch) :
    l.run (write batch) =
      match commit l.store batch with
      | .ok s => (.ok (), { l with store := s })
      | .error e => (.error e, l) := by
  show l.run (match commit l.store batch with | .ok s => _ | .error e => throw e) = _
  cases commit l.store batch <;> rfl

theorem run_write_ok {l l' : Ledger} {batch : Batch} (h : l.run (write batch) = (.ok (), l')) :
    ∃ s, commit l.store batch = .ok s ∧ l' = { l with store := s } := by
  rw [run_write] at h
  cases hcommit : commit l.store batch with
  | error e =>
      rw [hcommit] at h
      cases h
  | ok s =>
      rw [hcommit] at h
      exact ⟨s, rfl, (Prod.mk.inj h).2.symm⟩

/-- Passes on a result that needs no ledger. -/
def check {α : Type} : Except Error α → Action α
  | .ok a => return a
  | .error e => throw e

@[simp] theorem run_check {α : Type} (l : Ledger) (r : Except Error α) :
    l.run (check r) = (r, l) := by
  cases r <;> rfl

/-! ### Master keys and the chain -/

/-- Remembers a master key. -/
def remember (walletId : String) (master : Key.ExtendedKey) : Action Unit :=
  modify fun l => { l with masterKeys := (walletId, master) :: l.masterKeys }

/-- The master key of a wallet: the one remembered, or else the one of its mnemonic, which is
remembered then. -/
def masterKeyOf (w : Wallet) : Action Key.ExtendedKey := do
  let l ← get
  match l.masterKeys.lookup w.id with
  | some master => return master
  | none =>
      let master ← check (Key.masterKey w.mnemonic l.network)
      remember w.id master
      return master

/-- Asks the service that watches the chain, if there is one, to track a script. -/
def trackOnChain (walletId : String) (script : Script) : Action Unit := do
  match (← get).chain with
  | some table =>
      let table ← check (table.track walletId script)
      modify fun l => { l with chain := some table }
  | none => return

end Ledger

end CoinLedger
