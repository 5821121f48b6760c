import CoinLedger.Proofs.Key.Faults
import CoinLedger.Proofs.Ledger.NextScript
import CoinLedger.Proofs.Ledger.SpendableGroups
import CoinLedger.Proofs.Signing

/-! # Results without bad texts

There is one error that reports a text of the store that cannot be read.  `Legible` says of a result
that it is not this error.  It holds of whatever is put together from such results, and since the rows
of a well-formed store can be read, all that is left to be looked at are the causes of failures that
keys, transactions and operations find for themselves.

The service that watches the chain has errors of its own, and may have any.  They are passed on as they
are, so that nothing is said of them but where they come from (`ServiceGives`). -/

namespace CoinLedger

open Ledger

/-- The result is not the error that reports a text that cannot be read. -/
def Legible {α : Type} (r : Except Error α) : Prop := r ≠ .error .json

namespace Legible

variable {α β σ : Type}

theorem ok (a : α) : Legible (.ok a) := nofun

theorem error {e : Error} (h : e ≠ .json) : Legible (.error e : Except Error α) :=
  fun heq => h (Except.error.inj heq)

theorem of_eq_ok {r : Except Error α} {a : α} (h : r = .ok a) : Legible r := h ▸ ok a

theorem bind {r : Except Error α} {f : α → Except Error β} (hr : Legible r)
    (hf : ∀ a, r = .ok a → Legible (f a)) : Legible (r >>= f) := by
  cases r with
  | ok a => exact hf a rfl
  | error e => exact error fun he => hr (he ▸ rfl)

theorem map {r : Except Error α} (hr : Legible r) (f : α → β) : Legible (r.map f) := by
  cases r with
  | ok a => exact ok (f a)
  | error e => exact error fun he => hr (he ▸ rfl)

theorem foldlM {f : σ → α → Except Error σ} (hf : ∀ s a, Legible (f s a)) :
    ∀ (as : List α) (s : σ), Legible (as.foldlM f s)
  | [], s => ok s
  | a :: as, s => by
      rw [List.foldlM_cons]
      exact bind (hf s a) fun s' _ => foldlM hf as s'

/-! ### Keys -/

theorem of_keyFault {r : Except Error α} (h : ∀ e, r = .error e → Key.KeyFault e) : Legible r :=
  fun hr => nomatch h _ hr

theorem checkTemplate (template : String) : Legible (Key.checkTemplate template) :=
  of_keyFault fun _ => Key.keyFault_of_checkTemplate

theorem masterKey (mnemonic : String) (network : Network) :
    Legible (Key.masterKey mnemonic network) :=
  of_keyFault fun _ => Key.keyFault_of_masterKey

theorem derive (master : Key.ExtendedKey) (path : String) :
    Legible (Key.DerivedKey.derive master path) :=
  of_keyFault fun _ => Key.keyFault_of_derive

theorem nextIndex (walletId : String) (last : UInt32) : Legible (Ledger.nextIndex walletId last) := by
  unfold Ledger.nextIndex
  split
  · exact ok _
  · exact error nofun

theorem addGroupKeys (master : Key.ExtendedKey) (keys : SigningKeys) (groups : List CoinGroup) :
    Legible (Ledger.addGroupKeys master keys groups) := by
  have hstep : ∀ (keys : SigningKeys) (g : CoinGroup),
      Legible ((Key.DerivedKey.derive master g.path).map keys.add) :=
    fun keys g => map (derive master g.path) keys.add
  exact foldlM hstep groups keys

/-! ### Transactions -/

theorem outputFees (rate : FeeRate) : ∀ (outputs : List TxOut) (index : Nat) (fee : Float32),
    Legible (TxBuilder.outputFees rate index fee outputs)
  | [], _, fee => ok fee
  | o :: outputs, index, fee => by
      rw [TxBuilder.outputFees]
      split
      · exact error nofun
      · exact outputFees rate outputs _ _

theorem largestFirstBy (sort : FallingSort) (required optional : List WeightedUtxo) (rate : FeeRate)
    (needed : UInt64) (fee : Float32) :
    Legible (CoinLedger.largestFirstBy sort required optional rate needed fee) := by
  unfold CoinLedger.largestFirstBy
  dsimp only
  split
  · exact error nofun
  · exact ok _

theorem finish {b : TxBuilder} {sort : FallingSort}
    (hselector : b.selector = CoinLedger.largestFirstBy sort) : Legible b.finish := by
  unfold TxBuilder.finish
  rw [hselector]
  split
  · exact error nofun
  · refine bind (outputFees _ _ _ _) fun fee _ =>
      bind (largestFirstBy _ _ _ _ _ _) fun selection _ => ?_
    dsimp only
    split
    · exact error nofun
    · obtain ⟨signed, hsigned⟩ :=
        b.signingKeys.exists_sign_eq_ok (b.assemble selection).transaction selection.selected
      exact bind (of_eq_ok hsigned) fun _ _ => ok _

theorem payFromAll (order : CoinOrder) (master : Key.ExtendedKey) (groups : List CoinGroup)
    (p : Payout) : Legible (Ledger.payFromAll order master groups p) :=
  bind (addGroupKeys master .empty groups) fun _ _ => finish rfl

theorem payFrom (p : Payout) (r : Required) : Legible (p.payFrom r) := by
  have hfinish : Legible (TxBuilder.finish { p.builder r.keys with mustSpend := r.coins }) :=
    finish rfl
  unfold Payout.payFrom
  split
  · exact ok _
  · exact ok _
  · rename_i e _ herror
    rw [herror] at hfinish
    exact error fun he => hfinish (he ▸ rfl)

theorem add (master : Key.ExtendedKey) (r : Required) (path : String) (coin : Coin) :
    Legible (r.add master path coin) := by
  unfold Required.add
  dsimp only
  split
  · exact ok _
  · exact bind (derive master path) fun _ _ => ok _

theorem payFromPool (master : Key.ExtendedKey) (p : Payout) :
    ∀ (pool : List (String × Coin)) (r : Required), Legible (Ledger.payFromPool master p r pool)
  | [], r => payFrom p r
  | (path, coin) :: pool, r => by
      rw [Ledger.payFromPool]
      refine bind (payFrom p r) fun built _ => ?_
      cases built with
      | some b => exact ok _
      | none => exact bind (add master r path coin) fun r' _ => payFromPool master p pool r'

theorem payFromExplicit (master : Key.ExtendedKey) (groups : List CoinGroup)
    (explicit : List Utxo) (p : Payout) :
    Legible (Ledger.payFromExplicit master groups explicit p) :=
  bind (addGroupKeys master .empty _) fun _ _ => payFromPool master p _ _

/-! ### Operations -/

section

variable {s : Store}

theorem requireWallet (hs : Sound Wallet s) (walletId : String) :
    Legible (CoinLedger.requireWallet s walletId) := by
  rw [requireWallet_eq hs]
  split
  · exact ok _
  · exact error nofun

theorem reviseEntity {κ : Type} [Entity α κ] [LawfulEntity α] (hs : Sound α s) (key : κ)
    {f : Option α → Except Error (Option α)} (hf : ∀ found, Legible (f found)) :
    Legible (CoinLedger.reviseEntity α s key f) := by
  refine bind (of_eq_ok (hs.getEntity key)) fun found _ => bind (hf found) fun made _ => ?_
  cases made <;> exact ok _

theorem apply (hs : WellFormed s) (op : Operation) : Legible (op.apply s) := by
  cases hop : op.needsWallet with
  | false =>
      obtain ⟨s', hs'⟩ := Operation.exists_apply_eq_ok hs hop
      exact of_eq_ok hs'
  | true =>
      cases op with
      | insertWallet w =>
          refine reviseEntity hs.sound w.id fun found => ?_
          cases found with
          | none => exact ok _
          | some known => exact error nofun
      | raiseIndex walletId index =>
          refine reviseEntity hs.sound walletId fun found => ?_
          cases found with
          | none => exact error nofun
          | some known => exact ok _
      | addAliases walletId aliases =>
          refine reviseEntity hs.sound walletId fun found => ?_
          cases found with
          | none => exact error nofun
          | some known => exact ok _
      | _ => cases hop

theorem commit (hs : WellFormed s) (batch : Batch) : Legible (CoinLedger.commit s batch) := by
  rw [commit_eq_foldlM]
  induction batch generalizing s with
  | nil => exact ok s
  | cons op batch ih =>
      rw [List.foldlM_cons]
      exact bind (apply hs op) fun s' hs' => ih ((Operation.writes_apply hs').wellFormed hs)

end

end Legible

/-! ### The service that watches the chain -/

/-- The service, if there is one, answers some request with this error. -/
inductive ServiceGives : Option ChainTable → Error → Prop where
  | track {table : ChainTable} {walletId : String} {script : Script} {e : Error}
      (h : table.track walletId script = .error e) : ServiceGives (some table) e
  | status {table : ChainTable} {txid : Txid} {e : Error} (h : table.status txid = .error e) :
      ServiceGives (some table) e

namespace ServiceGives

/-- A service that tracks one more script has no other errors. -/
theorem of_track {table table' : ChainTable} {walletId : String} {script : Script}
    (htrack : table.track walletId script = .ok table') {e : Error}
    (h : ServiceGives (some table') e) : ServiceGives (some table) e := by
  obtain rfl : { table with tracked := table.tracked ++ [(walletId, script)] } = table' := by
    unfold ChainTable.track at htrack
    split at htrack
    · cases htrack
    · exact Except.ok.inj htrack
  cases h with
  | @track _ walletId script _ h =>
      have hanswer := ChainTable.track_eq_error_iff.1 h
      have hrefused : table.track walletId script = .error e :=
        ChainTable.track_eq_error_iff.2 hanswer
      exact .track hrefused
  | status h =>
      have hanswer := ChainTable.status_eq_error_iff.1 h
      exact .status (ChainTable.status_eq_error_iff.2 hanswer)

/-- Asking about transactions fails as the service does. -/
theorem of_confirmations {table : ChainTable} {e : Error} :
    ∀ {transactions : List TransactionRecord}, confirmations table transactions = .error e →
      ServiceGives (some table) e
  | [], h => by cases h
  | t :: transactions, h => by
      rw [confirmations] at h
      rcases bind_error h with hstatus | ⟨status, -, h⟩
      · exact .status hstatus
      · rcases bind_error h with hrest | ⟨rest, -, h⟩
        · exact of_confirmations hrest
        · split at h <;> cases h

/-- A service that refuses with texts gives no other errors. -/
theorem generic_of_texts {table : ChainTable} {onTrack : String → String} {wallets : List String}
    (htrack : table.failTrack = .ofTexts onTrack wallets) {onStatus : Txid → String}
    {transactions : List Txid} (hstatus : table.failStatus = .ofTexts onStatus transactions)
    {e : Error} (h : ServiceGives (some table) e) : ∃ text, e = .generic text := by
  cases h with
  | track h => exact Refusals.generic_of_ofTexts (htrack ▸ ChainTable.track_eq_error_iff.1 h)
  | status h => exact Refusals.generic_of_ofTexts (hstatus ▸ ChainTable.status_eq_error_iff.1 h)

end ServiceGives

/-! ### Readers -/

namespace Ledger

variable {s : Store}

theorem exists_findWallet_eq_ok (hs : Sound Wallet s) (name : String) :
    ∃ found, findWallet s name = .ok found := by
  have hall : allWallets s = .ok (recordsFrom Wallet s (RowRange.kind .wallet).start) :=
    hs.scanEntities rfl
  unfold findWallet
  rw [hs.getEntity, hall]
  cases record? Wallet s name with
  | some w => exact ⟨some w, rfl⟩
  | none => exact ⟨_, rfl⟩

theorem exists_pendingTransactions_eq_ok (hs : Sound TransactionRecord s) :
    ∃ pending, pendingTransactions s = .ok pending := by
  have hall : allTransactions s = .ok _ := hs.scanEntities rfl
  unfold pendingTransactions
  rw [hall]
  exact ⟨_, rfl⟩

end Ledger

end CoinLedger
