import CoinLedger.Signing

/-! # Signing in place

`SigningKeys.signInPlace` signs a transaction that it is lent.  It goes through the inputs once and
collects the witnesses of those whose keys are known, along with the places of the inputs; only then
are the witnesses put in, each at its place.  `SigningKeys.signAllInPlace` first looks for an input
that cannot be signed, and signs if there is none.

What an action makes of the transaction when it fails can be told here, since the transaction is the
state: `SigningKeys.runOn` returns it along with the result. -/

namespace CoinLedger

open Key

/-- A step that may change a transaction and may fail. -/
abbrev SigningAction (α : Type) := ExceptT Error (StateM Transaction) α

namespace SigningKeys

/-- Whether the output that an input spends is known and a key for its script is there. -/
def isSignable (ks : SigningKeys) (prevouts : List Utxo) (input : TxIn) : Bool :=
  match prevout? prevouts input.previous with
  | some prevout => ks.canSign prevout.script
  | none => false

/-- The witnesses of the inputs whose keys are known, with the places of the inputs; the first input
stands at `place`. -/
def collectWitnesses (ks : SigningKeys) (prevouts : List Utxo) (parts : SighashParts) :
    Nat → List TxIn → Except Error (List (Nat × List Bytes))
  | _, [] => .ok []
  | place, input :: inputs => do
      match prevout? prevouts input.previous with
      | none => collectWitnesses ks prevouts parts (place + 1) inputs
      | some prevout =>
          match ks.keyFor? prevout.script with
          | none => collectWitnesses ks prevouts parts (place + 1) inputs
          | some key =>
              let w ← witness parts input key prevout
              let ws ← collectWitnesses ks prevouts parts (place + 1) inputs
              return (place, w) :: ws

/-- Puts a witness into the input at its place. -/
def putWitness (inputs : List TxIn) (w : Nat × List Bytes) : List TxIn :=
  inputs.modify w.1 fun i => { i with witness := w.2 }

/-- Signs the inputs whose keys are known, and returns how many these are. -/
def signInPlace (ks : SigningKeys) (prevouts : List Utxo) : SigningAction Nat := do
  let tx ← get
  match ks.collectWitnesses prevouts (.ofTransaction tx) 0 tx.inputs with
  | .error e => throw e
  | .ok witnesses =>
      witnesses.forM fun w => modify fun tx => { tx with inputs := putWitness tx.inputs w }
      return witnesses.length

/-- Signs all inputs, unless there is one that cannot be signed. -/
def signAllInPlace (ks : SigningKeys) (prevouts : List Utxo) : SigningAction Unit := do
  match (← get).inputs.findIdx? fun i => !ks.isSignable prevouts i with
  | some place => throw (.signing (.missingPrevout place))
  | none =>
      let _ ← ks.signInPlace prevouts

/-- The result of an action, and the transaction that it leaves. -/
def runOn {α : Type} (a : SigningAction α) (tx : Transaction) : Except Error α × Transaction :=
  StateT.run a.run tx

end SigningKeys

end CoinLedger
