import CoinLedger.Ledger.Basic

/-! # What the chain tells

`observe` records a transaction that touches the scripts of a wallet.  `observation` is the batch
that it writes: the transaction, the removal of the one it replaces, the scripts, to whom they
belong, what the transaction makes and what it spends.

`newBlock` asks about every transaction that no block holds yet, and records the blocks that hold
them now. -/

namespace CoinLedger.Ledger

/-- A script of a wallet as an event reports it; the reported path stands in the template's
place. -/
def reportedScript (w : Wallet) (script : Script) (keyPath : Option String) : WalletScript :=
  ⟨w.id, script, keyPath.map w.pathFor⟩

/-- The scripts that an event reports for a wallet.  What a source of single scripts sees being
spent belongs to the wallet too. -/
def reportedScripts (w : Wallet) (source : TrackedSource) (e : TransactionEvent) :
    List WalletScript :=
  (e.outputs.map fun o => reportedScript w o.script o.keyPath) ++
    if source.isDeterministic then []
    else e.inputs.map fun i => reportedScript w i.script i.keyPath

/-- The coin that an output makes. -/
def madeCoin (txid : Txid) (o : ObservedOutput) : Coin :=
  ⟨⟨txid, o.index⟩, o.script, o.value, none⟩

/-- The coin that an input spends. -/
def spentCoin (txid : Txid) (i : ObservedInput) : Coin :=
  ⟨i.previous, i.script, i.value, some ⟨txid, i.inputIndex⟩⟩

/-- What an event writes for a wallet. -/
def observation (w : Wallet) (source : TrackedSource) (e : TransactionEvent) : Batch :=
  .upsertTransaction ⟨e.txid, e.block⟩ ::
    (e.effectiveReplaced.toList.map .retractTransaction ++
      e.scripts.map (fun s => .insertScript ⟨s⟩) ++
      (reportedScripts w source e).map
        (if source.isDeterministic then .mergeWalletScript else .insertWalletScript) ++
      e.inputs.map (fun i => .insertTransactionScript ⟨e.txid, i.script, true⟩) ++
      e.outputs.map (fun o => .insertTransactionScript ⟨e.txid, o.script, false⟩) ++
      e.outputs.map (fun o => .insertCoin (madeCoin e.txid o)) ++
      e.inputs.map fun i => .mergeCoinSpend (spentCoin e.txid i))

/-- Records a transaction that touches the scripts of the wallet with this id or alias. -/
def observe (name : String) (source : TrackedSource) (e : TransactionEvent) : Action Unit := do
  match ← read fun s => findWallet s name with
  | some wallet => write (observation wallet source e)
  | none => throw (.walletNotFound name)

/-- What is to be written about transactions, given what the table answers. -/
def confirmations (table : ChainTable) : List TransactionRecord → Except Error Batch
  | [] => .ok []
  | t :: ts => do
      let status ← table.status t.txid
      let rest ← confirmations table ts
      match status with
      | some (some block) => return .setBlock t.txid (some block) :: rest
      | _ => return rest

/-- Records the blocks that hold transactions now, and returns how many these are. -/
def newBlock : Action Nat := do
  match (← get).chain with
  | none => return 0
  | some table =>
      let pending ← read pendingTransactions
      let batch ← check (confirmations table pending)
      write batch
      return batch.length

end CoinLedger.Ledger
