import CoinLedger.Proofs.Ledger.Actions
import CoinLedger.Proofs.Ledger.NextScript

/-! # The batch of a request

`Request.batch` is the batch that a request makes of the ledger that it is asked of, or the error that
keeps it from making one, and `store_serve` says that the request commits this batch and writes
nothing else: if there is no batch, or it cannot be committed, the store stays as it is.

So all that a request does to the tables can be read from its batch.  In particular it writes records
of the kinds `Request.writes` at most, and leaves the tables of all other kinds as they are
(`sameRows_serve`). -/

namespace CoinLedger.Ledger

variable {α β : Type} {l : Ledger}

/-! ### Actions that make a store -/

/-- The action leaves this store behind, or if there is none the store that it found. -/
def Leaves (l : Ledger) (a : Action α) (result : Except Error Store) : Prop :=
  (l.run a).2.store = result.toOption.getD l.store

namespace Leaves

theorem of_keeps {a : Action α} (h : Keeps a) (e : Error) : Leaves l a (.error e) := h l

/-- An empty batch leaves the store as it is. -/
theorem of_keeps_nil {a : Action α} (h : Keeps a) : Leaves l a (commit l.store []) := h l

theorem write (batch : Batch) : Leaves l (Ledger.write batch) (commit l.store batch) := by
  unfold Leaves
  rw [run_write]
  cases commit l.store batch <;> rfl

/-- What follows writes nothing. -/
theorem bind {a : Action α} {f : α → Action β} {result : Except Error Store}
    (ha : Leaves l a result) (hf : ∀ x, Keeps (f x)) : Leaves l (a >>= f) result := by
  unfold Leaves at ha ⊢
  rw [← ha, run_bind]
  rcases l.run a with ⟨_ | x, l'⟩
  · rfl
  · exact hf x l'

/-- What comes before only reads. -/
theorem read_bind {f : Store → Except Error α} {g : α → Action β}
    {result : α → Except Error Store} (h : ∀ x, f l.store = .ok x → Leaves l (g x) (result x)) :
    Leaves l (read f >>= g) (f l.store >>= result) := by
  unfold Leaves
  rw [run_bind, run_read]
  cases hread : f l.store with
  | error e => rfl
  | ok x => exact h x hread

theorem check_bind {r : Except Error α} {g : α → Action β} {result : α → Except Error Store}
    (h : ∀ x, r = .ok x → Leaves l (g x) (result x)) :
    Leaves l (check r >>= g) (r >>= result) :=
  read_bind (f := fun _ => r) h

theorem get_bind {g : Ledger → Action β} {result : Except Error Store} (h : Leaves l (g l) result) :
    Leaves l (MonadState.get >>= g) result := by
  unfold Leaves at h ⊢
  rw [run_bind, run_get]
  exact h

end Leaves

/-! ### Requests -/

/-- The batch that a request makes of a ledger. -/
def Request.batch (l : Ledger) : Request → Except Error Batch
  | createWallet mnemonic name template creationBlock aliases => do
      Key.checkTemplate template
      let master ← Key.masterKey mnemonic l.network
      return [.insertWallet
        ⟨Key.walletId master, name, mnemonic, template, 0, creationBlock, aliases⟩]
  | addAliases walletId aliases => return [.addAliases walletId aliases]
  | trackScript walletId script => do
      let _ ← requireWallet l.store walletId
      return [.insertScript ⟨script⟩, .insertWalletScript ⟨walletId, script, none⟩]
  | deriveScript walletId => do
      let next ← l.nextOf walletId
      return next.batch walletId
  | observe name source event => do
      match ← findWallet l.store name with
      | some wallet => return observation wallet source event
      | none => throw (.walletNotFound name)
  | newBlock =>
      match l.chain with
      | none => return []
      | some table => do
          let pending ← pendingTransactions l.store
          confirmations table pending
  | buildTransaction walletId outputs _ explicit _ => do
      let _ ← requireWallet l.store walletId
      if outputs.isEmpty && explicit.isEmpty then throw .noRecipients
      let next ← l.nextOf walletId
      return next.batch walletId
  | putBlob scope name (some value) => return [.putBlob ⟨Blob.composeKey scope name, scope, value⟩]
  | putBlob scope name none => return [.deleteBlob (Blob.composeKey scope name)]
  | upsertChannel walletId funding data => return [.upsertChannel ⟨walletId, funding, data, none⟩]
  | attachSpendableData walletId outputs =>
      return outputs.flatMap (SpendableOutput.batch walletId)
  | recordPayment payment => return [.upsertPayment payment]
  | updatePayment key failed preimage => return [.updatePayment key failed preimage]
  | signTransaction .. | setChain .. | reopen .. => return []

theorem leaves_deriveScript (hs : Sound Wallet l.store) (walletId : String) :
    Leaves l (Ledger.deriveScript walletId)
      (l.nextOf walletId >>= fun next => commit l.store (next.batch walletId)) := by
  obtain ⟨hnext, hlearned⟩ := run_nextScript hs walletId
  unfold Leaves Ledger.deriveScript
  rw [run_bind, ← hnext]
  rcases hrun : l.run (nextScript walletId) with ⟨_ | next, l'⟩
  · rw [hrun] at hlearned
    exact hlearned.store
  · rw [hrun] at hlearned
    -- the ledger that the batch is committed to has the same store
    have hstore : l'.store = l.store := hlearned.store
    have hkeeps : Keeps (trackOnChain walletId next.script >>= fun _ =>
        (pure next.script : Action Script)) :=
      .bind (.trackOnChain walletId next.script) fun _ => .pure _
    have hleaves := Leaves.bind (.write (l := l') (next.batch walletId)) fun _ => hkeeps
    unfold Leaves at hleaves
    rw [hstore] at hleaves
    exact hleaves

/-- A request commits its batch, and writes nothing else. -/
theorem store_serve (hs : Sound Wallet l.store) (r : Request) :
    (l.serve r).store = (r.batch l >>= commit l.store).toOption.getD l.store := by
  show Leaves l r.action (r.batch l >>= commit l.store)
  cases r with
  | createWallet mnemonic name template creationBlock aliases =>
      simp only [Request.batch, bind_assoc, pure_bind]
      refine .bind ?_ fun _ => .pure _
      refine .check_bind fun _ _ => .get_bind ?_
      exact .check_bind fun master _ => .bind (.write _) fun _ =>
        .bind (.remember _ _) fun _ => .pure _
  | addAliases walletId aliases => exact .write _
  | trackScript walletId script =>
      simp only [Request.batch, bind_assoc, pure_bind]
      exact .read_bind fun _ _ => .bind (.write _) fun _ => .trackOnChain walletId script
  | deriveScript walletId =>
      simp only [Request.batch, bind_assoc, pure_bind]
      exact .bind (leaves_deriveScript hs walletId) fun _ => .pure _
  | observe name source event =>
      simp only [Request.batch, bind_assoc]
      refine .read_bind fun found _ => ?_
      cases found with
      | some w => exact .write _
      | none => exact .of_keeps (.throw _) _
  | newBlock =>
      simp only [Request.batch]
      refine .bind (.get_bind ?_) fun _ => .pure _
      cases l.chain with
      | none => exact .of_keeps_nil (.pure _)
      | some table =>
          simp only [bind_assoc]
          exact .read_bind fun pending _ => .check_bind fun batch _ =>
            .bind (.write batch) fun _ => .pure _
  | buildTransaction walletId outputs feeRate explicit order =>
      simp only [Request.batch, bind_assoc]
      refine .bind (.read_bind fun w _ => ?_) fun _ => .pure _
      by_cases hnone : (outputs.isEmpty && explicit.isEmpty) = true
      · rw [if_pos hnone, if_pos hnone]
        exact .of_keeps (fun _ => rfl) _
      · rw [if_neg hnone, if_neg hnone, bind_assoc]
        -- once the script for the change is derived, nothing is written any more
        exact .bind (leaves_deriveScript hs walletId) fun _ => .bind (.read _) fun _ =>
          .bind (.masterKeyOf w) fun _ => .bind (.check _) fun _ => .pure _
  | signTransaction walletId transaction =>
      exact .of_keeps_nil (.bind (.signTransaction walletId transaction) fun _ => .pure _)
  | putBlob scope name value => cases value <;> exact .write _
  | upsertChannel walletId funding data => exact .write _
  | attachSpendableData walletId outputs => exact .write _
  | recordPayment payment => exact .write _
  | updatePayment key failed preimage => exact .write _
  | setChain chain => rfl
  | reopen network => rfl

/-! ### Kinds of records -/

theorem setBlock_of_mem_confirmations {table : ChainTable} {batch : Batch} :
    ∀ {transactions : List TransactionRecord}, confirmations table transactions = .ok batch →
      ∀ op ∈ batch, ∃ txid block, op = .setBlock txid block := by
  intro transactions
  induction transactions generalizing batch with
  | nil =>
      intro h op hop
      rw [← Except.ok.inj h] at hop
      cases hop
  | cons t ts ih =>
      intro h op hop
      obtain ⟨status, -, h⟩ := bind_ok h
      obtain ⟨rest, hrest, h⟩ := bind_ok h
      split at h
      · rw [← Except.ok.inj h] at hop
        rcases List.mem_cons.1 hop with rfl | hop
        · exact ⟨_, _, rfl⟩
        · exact ih hrest op hop
      · rw [← Except.ok.inj h] at hop
        exact ih hrest op hop

/-- The kinds of records that a request writes. -/
def Request.writes : Request → List EntityKind
  | createWallet .. | addAliases .. => [.wallet]
  | trackScript .. => [.script, .walletScript]
  | deriveScript .. | buildTransaction .. => [.wallet, .script, .walletScript]
  | observe .. => [.transaction, .channel, .coin, .transactionScript, .script, .walletScript]
  | newBlock => [.transaction]
  | putBlob .. => [.blob]
  | upsertChannel .. => [.channel]
  | attachSpendableData .. => [.script, .walletScript, .coin, .channel]
  | recordPayment .. | updatePayment .. => [.payment]
  | signTransaction .. | setChain .. | reopen .. => []

theorem Request.writes_of_mem_batch {r : Request} {batch : Batch} (h : r.batch l = .ok batch) :
    ∀ op ∈ batch, op.writes ⊆ r.writes := by
  cases r with
  | createWallet mnemonic name template creationBlock aliases =>
      obtain ⟨_, -, h⟩ := bind_ok h
      obtain ⟨master, -, h⟩ := bind_ok h
      rw [← Except.ok.inj h]
      simp [Operation.writes, writes]
  | trackScript walletId script =>
      obtain ⟨_, -, h⟩ := bind_ok h
      rw [← Except.ok.inj h]
      simp [Operation.writes, writes]
  | deriveScript walletId =>
      obtain ⟨next, -, h⟩ := bind_ok h
      rw [← Except.ok.inj h]
      simp [NextScript.batch, Operation.writes, writes]
  | observe name source event =>
      obtain ⟨found, -, h⟩ := bind_ok h
      cases found with
      | none => cases h
      | some w =>
          rw [← Except.ok.inj h]
          simp only [observation, List.forall_mem_cons, List.forall_mem_append, List.forall_mem_map]
          cases source.isDeterministic <;> simp [Operation.writes, writes]
  | newBlock =>
      unfold Request.batch at h
      dsimp only at h
      split at h
      · rw [← Except.ok.inj h]
        simp
      · obtain ⟨pending, -, h⟩ := bind_ok h
        intro op hop
        obtain ⟨txid, block, rfl⟩ := setBlock_of_mem_confirmations h op hop
        simp [Operation.writes, writes]
  | buildTransaction walletId outputs feeRate explicit order =>
      obtain ⟨_, -, h⟩ := bind_ok h
      dsimp only at h
      split at h
      · cases h
      · obtain ⟨next, -, h⟩ := bind_ok h
        rw [← Except.ok.inj h]
        simp [NextScript.batch, Operation.writes, writes]
  | putBlob scope name value =>
      cases value <;> rw [← Except.ok.inj h] <;> simp [Operation.writes, writes]
  | attachSpendableData walletId outputs =>
      rw [← Except.ok.inj h]
      simp only [List.forall_mem_flatMap]
      simp [SpendableOutput.batch, Operation.writes, writes]
  | addAliases _ _ | upsertChannel _ _ _ | recordPayment _ | updatePayment _ _ _
  | signTransaction _ _ | setChain _ | reopen _ =>
      rw [← Except.ok.inj h]
      simp [Operation.writes, writes]

/-- A request commits a batch that it makes, or leaves the store as it is. -/
theorem serve_ok (hs : Sound Wallet l.store) (r : Request) :
    (l.serve r).store = l.store ∨
      ∃ batch, r.batch l = .ok batch ∧ commit l.store batch = .ok (l.serve r).store := by
  have hstore := store_serve hs r
  cases hbatch : r.batch l with
  | error e =>
      rw [hbatch] at hstore
      exact .inl hstore
  | ok batch =>
      rw [hbatch, ok_bind] at hstore
      cases hcommit : commit l.store batch with
      | error e =>
          rw [hcommit] at hstore
          exact .inl hstore
      | ok s =>
          rw [hcommit] at hstore
          refine .inr ⟨batch, rfl, ?_⟩
          rw [hstore, hcommit]
          rfl

theorem wellFormed_serve (hs : WellFormed l.store) (r : Request) : WellFormed (l.serve r).store := by
  rcases serve_ok hs.sound r with hstore | ⟨batch, -, hcommit⟩
  · rw [hstore]
    exact hs
  · exact hs.commit hcommit

/-- The rows of all other kinds stay as they are. -/
theorem sameRows_serve (hs : Sound Wallet l.store) {kind : EntityKind} {r : Request}
    (h : kind ∉ r.writes) : SameRows kind l.store (l.serve r).store := by
  rcases serve_ok hs r with hstore | ⟨batch, hbatch, hcommit⟩
  · rw [hstore]
    exact .refl kind l.store
  · refine (writes_commit hcommit).sameRows fun hmem => ?_
    obtain ⟨op, hop, hkind⟩ := List.mem_flatMap.1 hmem
    exact h (r.writes_of_mem_batch hbatch op hop hkind)

theorem sameRows_serveAll (hs : WellFormed l.store) {kind : EntityKind} {requests : List Request}
    (h : ∀ r ∈ requests, kind ∉ r.writes) : SameRows kind l.store (l.serveAll requests).store := by
  induction requests generalizing l with
  | nil => exact .refl kind l.store
  | cons r requests ih =>
      obtain ⟨hr, hrest⟩ := List.forall_mem_cons.1 h
      exact (sameRows_serve hs.sound hr).trans (ih (wellFormed_serve hs r) hrest)

end CoinLedger.Ledger
