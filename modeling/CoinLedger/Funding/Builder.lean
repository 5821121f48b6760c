import CoinLedger.Funding.Selection
import CoinLedger.Signing

/-! # Building transactions

A `TxBuilder` collects what a transaction is to do: whom to pay, which coins must and which may be
spent, where the change goes, the fee rate, how coins are chosen and the keys to sign with.
`TxBuilder.finish` builds and signs it.

Fees are added up in single precision: for the header, for every recipient, and for every input by
the selector.  What the coins are worth beyond the recipients goes to the fee; with a change script
it goes to the change instead, less the fee for a transaction with a change output, unless the
change would be dust. -/

namespace CoinLedger

/-- What a transaction is to do. -/
structure TxBuilder where
  recipients : List TxOut := []
  mustSpend : List WeightedUtxo := []
  maySpend : List WeightedUtxo := []
  changeScript : Option Script := none
  feeRate : FeeRate := .minimumRelay
  signingKeys : SigningKeys := .empty
  selector : Selector := largestFirst

/-- A transaction with what is known about it. -/
structure BuiltTransaction where
  transaction : Transaction
  /-- The coins that it spends, in the order of its inputs. -/
  spent : List Utxo
  fee : UInt64
  /-- The place of the change output, if there is one. -/
  changeIndex : Option Nat

namespace TxBuilder

/-- The number that marks an input as replaceable and free of a lock time. -/
def replaceableSequence : UInt32 := 0xfffffffd

/-- The input that spends a coin, not signed yet. -/
def inputFor (u : Utxo) : TxIn := ⟨u.outpoint, replaceableSequence, .empty, []⟩

/-- Adds the fees for recipients, or reports the place of the first that is paid too little. -/
def outputFees (rate : FeeRate) (index : Nat) (fee : Float32) :
    List TxOut → Except Error Float32
  | [] => .ok fee
  | o :: rest =>
      if isDust o.value then .error (.outputBelowDustLimit index)
      else outputFees rate (index + 1) (fee + rate.feeFor o.weight) rest

/-- What the recipients are paid. -/
def outgoing (b : TxBuilder) : UInt64 := sumAmounts (b.recipients.map (·.value))

/-- The change output and the fee to pay along with it, if the change is no dust. -/
def change? (script : Script) (rate : FeeRate) (fee : Float32) (remaining : UInt64) :
    Option (TxOut × UInt64) :=
  let feeWithChange := wholeSat (fee + rate.feeFor (TxOut.weight ⟨0, script⟩))
  if feeWithChange ≤ remaining ∧ isDust (remaining - feeWithChange) = false then
    some (⟨remaining - feeWithChange, script⟩, feeWithChange)
  else none

/-- The transaction that spends the selected coins, before it is signed. -/
def assemble (b : TxBuilder) (selection : Selection) : BuiltTransaction :=
  let inputs := selection.selected.map inputFor
  let remaining := selection.amount - b.outgoing
  match b.changeScript.bind fun s => change? s b.feeRate selection.fee remaining with
  | some (change, fee) =>
      ⟨⟨2, 0, inputs, b.recipients ++ [change]⟩, selection.selected, fee, some b.recipients.length⟩
  | none => ⟨⟨2, 0, inputs, b.recipients⟩, selection.selected, remaining, none⟩

/-- Chooses the coins, builds the transaction and signs the inputs whose keys are known. -/
def finish (b : TxBuilder) : Except Error BuiltTransaction := do
  if b.recipients.isEmpty && b.mustSpend.isEmpty then throw .noRecipients
  let fee ← outputFees b.feeRate 0 (b.feeRate.feeFor headerWeight) b.recipients
  let selection ← b.selector b.mustSpend b.maySpend b.feeRate b.outgoing fee
  let built := b.assemble selection
  if built.transaction.outputs.isEmpty then
    throw (.insufficientFunds (wholeSat selection.fee + dustLimit + 1) selection.amount)
  let (transaction, _) ← b.signingKeys.sign built.transaction selection.selected
  return { built with transaction := transaction }

end TxBuilder

end CoinLedger
