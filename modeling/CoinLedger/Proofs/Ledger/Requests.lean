import CoinLedger.Proofs.Ledger.Batches
import CoinLedger.Proofs.Ledger.UtxoSet

/-! # What requests write

A request commits one batch or none.  `Submitted` lists the batches that there are, with what is
known when each of them is made, and `serve_cases` says that a request leaves the store as it is or
commits one of them.

`Reachable.store_induction` draws the conclusion for all reachable ledgers: what holds of the empty
store and is kept by submitted batches holds of every reachable store.  Two such facts are proved
here.  Reachable stores are well-formed (`Reachable.wellFormed`), and the ids of their wallets have
no zero byte (`Reachable.zero_notMem_id`), so that the keys of scripts tell their wallets apart. -/

namespace CoinLedger

open Ledger

namespace Ledger

/-! ### Batches that requests commit -/

/-- A batch that some request commits to this ledger. -/
inductive Submitted (l : Ledger) : Batch → Prop where
  /-- A new wallet. -/
  | wallet {w : Wallet} {master : Key.ExtendedKey}
      (hmaster : Key.masterKey w.mnemonic l.network = .ok master)
      (hid : w.id = Key.walletId master)
      (htemplate : Key.checkTemplate w.derivationPath = .ok ()) (hindex : w.lastIndex = 0) :
      Submitted l [.insertWallet w]
  | aliases (walletId : String) (aliases : List String) :
      Submitted l [.addAliases walletId aliases]
  /-- A script that was made elsewhere. -/
  | tracked {walletId : String} (hwallet : (record? Wallet l.store walletId).isSome = true)
      (script : Script) :
      Submitted l [.insertScript ⟨script⟩, .insertWalletScript ⟨walletId, script, none⟩]
  /-- The next script of a wallet. -/
  | derived {walletId : String} {next : NextScript} (h : l.nextOf walletId = .ok next) :
      Submitted l (next.batch walletId)
  /-- A transaction that the chain tells of. -/
  | observed {w : Wallet} (hwallet : record? Wallet l.store w.id = some w) (source : TrackedSource)
      (e : TransactionEvent) : Submitted l (observation w source e)
  /-- Blocks that hold transactions now. -/
  | confirmed {batch : Batch} (h : ∀ op ∈ batch, ∃ txid block, op = .setBlock txid block) :
      Submitted l batch
  /-- Outputs of closed channels. -/
  | collected (walletId : String) (outputs : List SpendableOutput) :
      Submitted l (outputs.flatMap (SpendableOutput.batch walletId))
  /-- Something that is kept for others: a channel, a payment or a blob. -/
  | kept {op : Operation} (h : op.writes ⊆ [.channel, .payment, .blob]) : Submitted l [op]

section

variable {l : Ledger}

/-- A wallet that is found is stored under its id. -/
theorem record?_of_findWallet {s : Store} (hs : Sound Wallet s) {name : String} {w : Wallet}
    (h : findWallet s name = .ok (some w)) : record? Wallet s w.id = some w := by
  unfold findWallet at h
  rw [hs.getEntity] at h
  cases hw : record? Wallet s name with
  | some w' =>
      rw [hw] at h
      obtain rfl : w' = w := Option.some.inj (Except.ok.inj h)
      have hid : w'.id = name := hs.key_eq hw
      rw [hid, hw]
  | none =>
      have hall : allWallets s = .ok (recordsFrom Wallet s (RowRange.kind .wallet).start) :=
        hs.scanEntities rfl
      rw [hw, hall] at h
      have hmem := List.mem_of_find?_eq_some (Option.some.inj (congrArg some (Except.ok.inj h)))
      exact ((hs.mem_recordsFrom rfl).1 hmem).1

/-- What a request makes is one of these batches. -/
theorem submitted_of_batch (hs : Sound Wallet l.store) {r : Request} {batch : Batch}
    (h : r.batch l = .ok batch) : Submitted l batch := by
  cases r with
  | createWallet mnemonic name template creationBlock aliases =>
      obtain ⟨_, htemplate, h⟩ := bind_ok h
      obtain ⟨master, hmaster, h⟩ := bind_ok h
      obtain rfl := Except.ok.inj h
      exact .wallet hmaster rfl htemplate rfl
  | addAliases walletId aliases =>
      obtain rfl := Except.ok.inj h
      exact .aliases walletId aliases
  | trackScript walletId script =>
      obtain ⟨w, hw, h⟩ := bind_ok h
      obtain rfl := Except.ok.inj h
      exact .tracked (by rw [record?_of_requireWallet hs hw]; rfl) script
  | deriveScript walletId =>
      obtain ⟨next, hnext, h⟩ := bind_ok h
      obtain rfl := Except.ok.inj h
      exact .derived hnext
  | observe name source event =>
      obtain ⟨found, hfound, h⟩ := bind_ok h
      cases found with
      | none => cases h
      | some w =>
          obtain rfl := Except.ok.inj h
          exact .observed (record?_of_findWallet hs hfound) source event
  | newBlock =>
      unfold Request.batch at h
      dsimp only at h
      split at h
      · obtain rfl := Except.ok.inj h
        exact .confirmed nofun
      · obtain ⟨pending, -, h⟩ := bind_ok h
        exact .confirmed (setBlock_of_mem_confirmations h)
  | buildTransaction walletId outputs feeRate explicit order =>
      obtain ⟨_, -, h⟩ := bind_ok h
      dsimp only at h
      split at h
      · cases h
      · obtain ⟨next, hnext, h⟩ := bind_ok h
        obtain rfl := Except.ok.inj h
        exact .derived hnext
  | attachSpendableData walletId outputs =>
      obtain rfl := Except.ok.inj h
      exact .collected walletId outputs
  | putBlob scope name value =>
      cases value <;> obtain rfl := Except.ok.inj h <;> exact .kept (by simp [Operation.writes])
  | upsertChannel _ _ _ | recordPayment _ | updatePayment _ _ _ =>
      obtain rfl := Except.ok.inj h
      exact .kept (by simp [Operation.writes])
  | signTransaction _ _ | setChain _ | reopen _ =>
      obtain rfl := Except.ok.inj h
      exact .confirmed nofun

/-- A request leaves the store as it is, or commits one of the batches that there are. -/
theorem serve_cases (hs : Sound Wallet l.store) (r : Request) :
    (l.serve r).store = l.store ∨
      ∃ batch, Submitted l batch ∧ commit l.store batch = .ok (l.serve r).store := by
  rcases serve_ok hs r with hstore | ⟨batch, hbatch, hcommit⟩
  · exact .inl hstore
  · exact .inr ⟨batch, submitted_of_batch hs hbatch, hcommit⟩

end

end Ledger

/-! ### Reachable stores -/

theorem Reachable.wellFormed {l : Ledger} (h : Reachable l) : WellFormed l.store := by
  induction h with
  | opened network chain => exact wellFormed_empty
  | served _ r ih => exact wellFormed_serve ih r

/-- What holds of the empty store and is kept by submitted batches holds of reachable stores. -/
theorem Reachable.store_induction {P : Store → Prop} (hempty : P .empty)
    (hcommit : ∀ {l : Ledger} {batch : Batch} {s : Store}, WellFormed l.store → P l.store →
      Submitted l batch → commit l.store batch = .ok s → P s)
    {l : Ledger} (h : Reachable l) : P l.store := by
  induction h with
  | opened network chain => exact hempty
  | served hl r ih =>
      rcases serve_cases hl.wellFormed.sound r with hstore | ⟨batch, hbatch, hs⟩
      · rw [hstore]
        exact ih
      · exact hcommit hl.wellFormed ih hbatch hs

/-! ### The ids of wallets -/

namespace Operation

theorem newWallet_ok {w a : Wallet} {found : Option Wallet}
    (h : newWallet w found = .ok (some a)) : a = w := by
  cases found with
  | none => exact (Option.some.inj (Except.ok.inj h)).symm
  | some known => cases h

theorem raisedIndex_ok {walletId : String} {index : UInt32} {found : Option Wallet} {a : Wallet}
    (h : raisedIndex walletId index found = .ok (some a)) :
    ∃ known, found = some known ∧ a.id = known.id := by
  cases found with
  | none => cases h
  | some known =>
      rw [raisedIndex] at h
      split at h
      · exact ⟨known, rfl, by rw [← Option.some.inj (Except.ok.inj h)]⟩
      · cases h

theorem mergedAliases_ok {walletId : String} {aliases : List String} {found : Option Wallet}
    {a : Wallet} (h : mergedAliases walletId aliases found = .ok (some a)) :
    ∃ known, found = some known ∧ a.id = known.id := by
  cases found with
  | none => cases h
  | some known =>
      simp only [mergedAliases] at h
      split at h
      · exact ⟨known, rfl, by rw [← Option.some.inj (Except.ok.inj h)]⟩
      · cases h

/-- A revision makes no wallet under another id than that of the wallet that it writes. -/
theorem isSome_wallet_of_reviseEntity {s s' : Store} (hs : Sound Wallet s) {key : String}
    {f : Option Wallet → Except Error (Option Wallet)} (h : reviseEntity Wallet s key f = .ok s')
    {id : String} (hid : (record? Wallet s' id).isSome = true) :
    (record? Wallet s id).isSome = true ∨
      ∃ a, f (record? Wallet s key) = .ok (some a) ∧ a.id = id := by
  obtain ⟨found, made, hfound, hmade, rfl⟩ := reviseEntity_ok h
  obtain rfl : record? Wallet s key = found := by
    rw [hs.getEntity] at hfound
    exact Except.ok.inj hfound
  cases made with
  | none => exact .inl hid
  | some a =>
      rw [Option.elim_some, record?_putEntity] at hid
      split at hid
      · rename_i hkey
        exact .inr ⟨a, hmade, hkey⟩
      · exact .inl hid

/-- An operation makes no wallet but the one that it inserts. -/
theorem isSome_wallet_of_apply {s s' : Store} (hs : Sound Wallet s) {op : Operation}
    (h : op.apply s = .ok s') {id : String} (hid : (record? Wallet s' id).isSome = true) :
    (record? Wallet s id).isSome = true ∨ ∃ w, op = insertWallet w ∧ w.id = id := by
  -- the record that a revision of a stored wallet writes has its id
  have hknown : ∀ {key : String} {a : Wallet}, (∃ known, record? Wallet s key = some known ∧
      a.id = known.id) → a.id = id → (record? Wallet s id).isSome = true := by
    rintro key a ⟨known, hrecord, hsame⟩ rfl
    have hkey : known.id = key := hs.key_eq hrecord
    rw [hsame, hkey, hrecord]
    rfl
  by_cases hop : EntityKind.wallet ∈ op.writes
  · cases op with
    | insertWallet w =>
        rcases isSome_wallet_of_reviseEntity hs h hid with hid | ⟨a, hmade, ha⟩
        · exact .inl hid
        · exact .inr ⟨w, rfl, newWallet_ok hmade ▸ ha⟩
    | raiseIndex walletId index =>
        rcases isSome_wallet_of_reviseEntity hs h hid with hid | ⟨a, hmade, ha⟩
        · exact .inl hid
        · exact .inl (hknown (raisedIndex_ok hmade) ha)
    | addAliases walletId aliases =>
        rcases isSome_wallet_of_reviseEntity hs h hid with hid | ⟨a, hmade, ha⟩
        · exact .inl hid
        · exact .inl (hknown (mergedAliases_ok hmade) ha)
    | _ => simp [writes] at hop
  · have hrows : SameRows .wallet s s' := (writes_apply h).sameRows hop
    rw [hrows.record?_eq (α := Wallet)] at hid
    exact .inl hid

end Operation

theorem isSome_wallet_of_commit {batch : Batch} :
    ∀ {s s' : Store}, Sound Wallet s → commit s batch = .ok s' → ∀ {id : String},
      (record? Wallet s' id).isSome = true →
        (record? Wallet s id).isSome = true ∨ ∃ w, .insertWallet w ∈ batch ∧ w.id = id := by
  induction batch with
  | nil =>
      intro s s' _ h id hid
      obtain rfl : s = s' := Except.ok.inj h
      exact .inl hid
  | cons op batch ih =>
      intro s s' hs h id hid
      rw [commit_eq_foldlM] at h
      obtain ⟨t, hop, h⟩ := foldlM_ok h
      rw [← commit_eq_foldlM] at h
      have ht : Sound Wallet t := (Operation.writes_apply hop).sound hs
      rcases ih ht h hid with hid | ⟨w, hw, hwid⟩
      · rcases Operation.isSome_wallet_of_apply hs hop hid with hid | ⟨w, rfl, hwid⟩
        · exact .inl hid
        · exact .inr ⟨w, List.mem_cons_self, hwid⟩
      · exact .inr ⟨w, List.mem_cons_of_mem _ hw, hwid⟩

/-- A wallet that a request makes is the only thing that it writes.  It has a mnemonic and a template,
and it is named by the hash of its master key. -/
theorem Ledger.Submitted.of_insertWallet {l : Ledger} {batch : Batch} (h : Submitted l batch)
    {w : Wallet} (hw : .insertWallet w ∈ batch) :
    batch = [.insertWallet w] ∧ ∃ master, Key.masterKey w.mnemonic l.network = .ok master ∧
      w.id = Key.walletId master ∧ Key.checkTemplate w.derivationPath = .ok () := by
  cases h with
  | wallet hmaster hid htemplate hindex =>
      cases List.mem_singleton.1 hw
      exact ⟨rfl, _, hmaster, hid, htemplate⟩
  | observed hwallet source e => cases needsWallet_of_mem_observation hw
  | confirmed h =>
      obtain ⟨_, _, hop⟩ := h _ hw
      cases hop
  | collected walletId outputs =>
      obtain ⟨output, -, hw⟩ := List.mem_flatMap.1 hw
      simp [SpendableOutput.batch] at hw
  | kept h =>
      obtain rfl := List.mem_singleton.1 hw
      simp [Operation.writes] at h
  | aliases walletId aliases => simp at hw
  | tracked hwallet script => simp at hw
  | derived h => simp [NextScript.batch] at hw

/-- The ids of stored wallets are hexadecimal texts. -/
theorem Reachable.zero_notMem_id {l : Ledger} (h : Reachable l) {id : String}
    (hid : (record? Wallet l.store id).isSome = true) : 0 ∉ Bytes.utf8 id := by
  refine h.store_induction (P := fun s => ∀ {id}, (record? Wallet s id).isSome = true →
    0 ∉ Bytes.utf8 id) ?_ ?_ hid
  · intro id hid
    cases hid
  · intro l batch s hs ih hbatch hcommit id hid
    rcases isSome_wallet_of_commit hs.sound hcommit hid with hid | ⟨w, hw, rfl⟩
    · exact ih hid
    · obtain ⟨-, master, -, hid, -⟩ := hbatch.of_insertWallet hw
      rw [hid]
      exact Bytes.zero_notMem_hex _

end CoinLedger
