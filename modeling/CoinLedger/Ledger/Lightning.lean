import CoinLedger.Ledger.Basic

/-! # Channels and payments

`upsertChannel` keeps the data of a channel, `attachSpendableData` records outputs that can be
collected from closed channels, and `recordPayment` and `updatePayment` keep track of payments. -/

namespace CoinLedger.Ledger

/-- Keeps the data of a channel; what is attached to it stays. -/
def upsertChannel (walletId : String) (funding : Outpoint) (data : Bytes) : Action Unit :=
  write [.upsertChannel ⟨walletId, funding, data, none⟩]

/-- An output that can be collected from a closed channel, and the data that this takes. -/
structure SpendableOutput where
  outpoint : Outpoint
  txout : TxOut
  data : Bytes
deriving DecidableEq

/-- What records an output for a wallet. -/
def SpendableOutput.batch (walletId : String) (o : SpendableOutput) : Batch :=
  [.insertScript ⟨o.txout.script⟩, .insertWalletScript ⟨walletId, o.txout.script, none⟩,
    .insertCoin ⟨o.outpoint, o.txout.script, o.txout.value, none⟩,
    .attachSpendableData walletId o.outpoint o.data]

/-- Records outputs of closed channels, and attaches their data to the channels whose funding coin
is spent by the input with the output's place in the transaction that makes the output. -/
def attachSpendableData (walletId : String) (outputs : List SpendableOutput) : Action Unit :=
  write (outputs.flatMap (SpendableOutput.batch walletId))

/-- Keeps a payment, instead of one with the same key. -/
def recordPayment (payment : Payment) : Action Unit := write [.upsertPayment payment]

/-- Marks a payment as failed or complete. -/
def updatePayment (key : PaymentKey) (failed : Bool) (preimage : Option String) : Action Unit :=
  write [.updatePayment key failed preimage]

end CoinLedger.Ledger
