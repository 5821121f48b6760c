import CoinLedger.Ledger.Query
import CoinLedger.Proofs.Ledger.DeriveScript

/-! # What a failure leaves behind

A request commits one batch or none.  Most requests do nothing after the commit that could fail, so
they leave the store as it was if they fail: these are the `Atomic` actions.

Three requests ask the service that watches the chain to track a script once it is stored.  If the
service refuses, what was committed stays, and it is what the same request leaves behind if the
service agrees (`TrackFailure`).  A transaction that is built goes on after that, but it writes
nothing any more, and so it leaves behind what deriving a script leaves behind, whatever comes of it.

A request asks for one script at most, and about each transaction at most once, so that one
`ChainTable` is enough for all the answers to it, and they may be any errors.  The next request may
find another table. -/

namespace CoinLedger

open Ledger

namespace Ledger

variable {α β : Type}

/-! ### Actions that are carried out as a whole or not at all -/

/-- The action has a result whatever the ledger. -/
def Total (a : Action α) : Prop := ∀ l : Ledger, ∃ x, (l.run a).1 = .ok x

/-- If the action fails, it leaves the store as it is. -/
def Atomic (a : Action α) : Prop :=
  ∀ (l : Ledger) (e : Error), (l.run a).1 = .error e → (l.run a).2.store = l.store

theorem Total.pure (x : α) : Total (Pure.pure x : Action α) := fun _ => ⟨x, rfl⟩

theorem Total.bind {a : Action α} {f : α → Action β} (ha : Total a) (hf : ∀ x, Total (f x)) :
    Total (a >>= f) := by
  intro l
  obtain ⟨x, hx⟩ := ha l
  rw [run_bind]
  generalize l.run a = run at hx ⊢
  obtain ⟨_, l'⟩ := run
  obtain rfl := hx
  exact hf x l'

namespace Atomic

theorem of_keeps {a : Action α} (h : Keeps a) : Atomic a := fun l _ _ => h l

theorem write (batch : Batch) : Atomic (Ledger.write batch) := by
  intro l e h
  rw [run_write] at h ⊢
  cases hcommit : commit l.store batch with
  | error e' => rfl
  | ok s =>
      rw [hcommit] at h
      cases h

/-- What comes before writes nothing. -/
theorem keeps_bind {a : Action α} {f : α → Action β} (ha : Keeps a) (hf : ∀ x, Atomic (f x)) :
    Atomic (a >>= f) := by
  intro l e h
  have hstore := ha l
  rw [run_bind] at h ⊢
  rcases hrun : l.run a with ⟨_ | x, l'⟩
  · rw [hrun] at hstore
    exact hstore
  · rw [hrun] at h hstore
    exact (hf x l' e h).trans hstore

/-- What comes behind cannot fail. -/
theorem bind_total {a : Action α} {f : α → Action β} (ha : Atomic a) (hf : ∀ x, Total (f x)) :
    Atomic (a >>= f) := by
  intro l e h
  have hstore := ha l
  rw [run_bind] at h ⊢
  rcases hrun : l.run a with ⟨e' | x, l'⟩
  · rw [hrun] at hstore
    exact hstore e' rfl
  · rw [hrun] at h
    obtain ⟨y, hy⟩ := hf x l'
    exact absurd (hy.symm.trans h) nofun

end Atomic

/-- The wallet of which a request may ask the service to track a script. -/
def Request.tracks? : Request → Option String
  | trackScript walletId _ | deriveScript walletId | buildTransaction walletId .. => some walletId
  | _ => none

/-- A request that asks the service for nothing is carried out as a whole or not at all. -/
theorem Request.atomic_action {r : Request} (hr : r.tracks? = none) : Atomic r.action := by
  cases r with
  | trackScript | deriveScript | buildTransaction => cases hr
  | createWallet mnemonic name template creationBlock aliases =>
      refine .bind_total ?_ fun _ => .pure _
      refine .keeps_bind (.check _) fun _ => .keeps_bind .get fun _ => .keeps_bind (.check _) fun _ =>
        .bind_total (.write _) fun _ => ?_
      -- the master key is remembered when the wallet is stored
      exact .bind (fun _ => ⟨(), rfl⟩) fun _ => .pure _
  | observe name source event =>
      refine .keeps_bind (.read _) fun found => ?_
      cases found with
      | some w => exact .write _
      | none => exact .of_keeps (.throw _)
  | newBlock =>
      refine .bind_total (.keeps_bind .get fun l => ?_) fun _ => .pure _
      cases l.chain with
      | none => exact .of_keeps (.pure _)
      | some table =>
          exact .keeps_bind (.read _) fun _ => .keeps_bind (.check _) fun batch =>
            .bind_total (.write batch) fun _ => .pure _
  | signTransaction walletId transaction =>
      exact .of_keeps (.bind (.signTransaction walletId transaction) fun _ => .pure _)
  | putBlob scope name value => cases value <;> exact .write _
  | addAliases | upsertChannel | attachSpendableData | recordPayment | updatePayment =>
      exact .write _
  | setChain chain | reopen network => exact .of_keeps fun _ => rfl

/-! ### Actions that ask the service at last -/

/-- The service, if there is one, tracks every script of this wallet. -/
def Tracks (walletId : String) (chain : Option ChainTable) : Prop :=
  ∀ table, chain = some table → ∀ script, ∃ table', table.track walletId script = .ok table'

/-- In which ways an action fails that at last asks the service to track a script of a wallet. -/
inductive TrackFailure (l : Ledger) (walletId : String) (a : Action Unit) (e : Error) : Prop where
  /-- It does not come to that: nothing is written, and no service could change this. -/
  | before (hstore : (l.run a).2.store = l.store)
      (hfails : ∀ chain, ((l.watchedBy chain).run a).1 = .error e)
  /-- The service refuses.  With one that agrees there is a result, and the same store. -/
  | refused {table : ChainTable} {script : Script} (hchain : l.chain = some table)
      (hrefused : table.track walletId script = .error e)
      (hagrees : ∀ chain, Tracks walletId chain → ((l.watchedBy chain).run a).1 = .ok () ∧
        ((l.watchedBy chain).run a).2.store = (l.run a).2.store)

section

variable {l : Ledger} {walletId : String} {script : Script} {e : Error}

theorem run_trackOnChain_of_tracks (h : Tracks walletId l.chain) (script : Script) :
    (l.run (trackOnChain walletId script)).1 = .ok () := by
  unfold trackOnChain
  cases hchain : l.chain with
  | none => simp only [run_bind, run_get, hchain, run_pure]
  | some table =>
      obtain ⟨table', htrack⟩ := h table hchain script
      simp only [run_bind, run_get, hchain, run_check, htrack]
      rfl

/-- Only the service can refuse, and whatever its error is, it is passed on. -/
theorem run_trackOnChain_eq_error_iff : (l.run (trackOnChain walletId script)).1 = .error e ↔
    ∃ table, l.chain = some table ∧ table.track walletId script = .error e := by
  unfold trackOnChain
  cases hchain : l.chain with
  | none =>
      simp only [run_bind, run_get, hchain, run_pure]
      exact ⟨nofun, fun ⟨_, hnone, _⟩ => by cases hnone⟩
  | some table =>
      simp only [run_bind, run_get, hchain, run_check]
      cases htrack : table.track walletId script with
      | error e' =>
          constructor
          · intro h
            obtain rfl : e' = e := Except.error.inj h
            exact ⟨table, rfl, htrack⟩
          · rintro ⟨_, hsame, hrefused⟩
            obtain rfl := Option.some.inj hsame
            obtain rfl : e' = e := Except.error.inj (htrack.symm.trans hrefused)
            rfl
      | ok table' =>
          refine ⟨nofun, fun ⟨_, hsame, hrefused⟩ => ?_⟩
          obtain rfl := Option.some.inj hsame
          cases htrack.symm.trans hrefused

/-- How an action fails that is carried out as a whole or not at all before the service is asked. -/
theorem trackFailure_of_bind {a : Action Script} (hoffline : Offline a) (hatomic : Atomic a)
    (h : (l.run (a >>= trackOnChain walletId)).1 = .error e) :
    TrackFailure l walletId (a >>= trackOnChain walletId) e := by
  rcases hrun : l.run a with ⟨e' | script, l'⟩
  · rw [run_bind, hrun] at h
    refine .before ?_ fun chain => ?_
    · have hstore := hatomic l e'
      rw [hrun] at hstore
      rw [run_bind, hrun]
      exact hstore rfl
    · rw [run_bind, hoffline, hrun]
      exact h
  · rw [run_bind, hrun] at h
    obtain ⟨table, htable, hrefused⟩ := run_trackOnChain_eq_error_iff.1 h
    have hchain : l'.chain = l.chain := by
      have hkeeps := hoffline.chain_eq l
      rwa [hrun] at hkeeps
    refine .refused (hchain ▸ htable) hrefused fun chain hagrees => ?_
    have hasked : (l.watchedBy chain).run a = (.ok script, l'.watchedBy chain) := by
      rw [hoffline, hrun]
    rw [run_bind, hasked, run_bind, hrun]
    refine ⟨run_trackOnChain_of_tracks hagrees script, ?_⟩
    exact (Keeps.trackOnChain walletId script (l'.watchedBy chain)).trans
      (Keeps.trackOnChain walletId script l').symm

theorem trackFailure_deriveScript
    (h : (l.run (Request.deriveScript walletId).action).1 = .error e) :
    TrackFailure l walletId (Request.deriveScript walletId).action e := by
  have haction : (Request.deriveScript walletId).action =
      (nextScript walletId >>= fun next => write (next.batch walletId) >>= fun _ =>
        pure next.script) >>= trackOnChain walletId := by
    simp only [Request.action, deriveScript, bind_assoc, pure_bind, bind_pure_unit]
  rw [haction] at h ⊢
  refine trackFailure_of_bind ?_ ?_ h
  · exact .bind (.nextScript walletId) fun next => .bind (.write _) fun _ => .pure _
  · exact .keeps_bind (.nextScript walletId) fun next => .bind_total (.write _) fun _ => .pure _

theorem trackFailure_trackScript
    (h : (l.run (Request.trackScript walletId script).action).1 = .error e) :
    TrackFailure l walletId (Request.trackScript walletId script).action e := by
  have haction : (Request.trackScript walletId script).action =
      (read (fun s => requireWallet s walletId) >>= fun _ =>
        write [.insertScript ⟨script⟩, .insertWalletScript ⟨walletId, script, none⟩] >>= fun _ =>
          pure script) >>= trackOnChain walletId := by
    simp only [Request.action, trackScript, bind_assoc, pure_bind]
  rw [haction] at h ⊢
  refine trackFailure_of_bind ?_ ?_ h
  · exact .bind (.read _) fun _ => .bind (.write _) fun _ => .pure _
  · exact .keeps_bind (.read _) fun _ => .bind_total (.write _) fun _ => .pure _

end

/-! ### Failures of requests -/

/-- Whatever comes of it, a transaction that is built leaves the store that deriving one script
leaves, or the store that it found if there is nothing to pay. -/
theorem store_serve_buildTransaction {l : Ledger} (hs : Sound Wallet l.store) (walletId : String)
    (outputs : List TxOut) (feeRate : FeeRate) (explicit : List Utxo) (order : CoinOrder) :
    (l.serve (.buildTransaction walletId outputs feeRate explicit order)).store =
      if outputs.isEmpty && explicit.isEmpty then l.store
      else (l.serve (.deriveScript walletId)).store := by
  rw [store_serve hs, store_serve hs, Request.batch, Request.batch]
  cases hw : requireWallet l.store walletId with
  | error e =>
      have hnext : l.nextOf walletId = .error e := by rw [nextOf, hw]; rfl
      rw [hnext]
      exact (ite_self _).symm
  | ok w =>
      split <;> rfl

/-- What a ledger leaves behind if something fails. -/
structure FailsCleanly (l : Ledger) : Prop where
  /-- Requests that ask the service to track nothing leave the store as it was. -/
  untouched {r : Request} {e : Error} :
    r.tracks? = none → (l.run r.action).1 = .error e → (l.serve r).store = l.store
  /-- A script is derived and stored before the service is asked. -/
  deriveScript {walletId : String} {e : Error} :
    (l.run (Request.deriveScript walletId).action).1 = .error e →
      TrackFailure l walletId (Request.deriveScript walletId).action e
  /-- A script that was made elsewhere is stored before the service is asked, too. -/
  trackScript {walletId : String} {script : Script} {e : Error} :
    (l.run (Request.trackScript walletId script).action).1 = .error e →
      TrackFailure l walletId (Request.trackScript walletId script).action e
  /-- A transaction that is built, or is not, costs at most one script. -/
  buildTransaction (walletId : String) (outputs : List TxOut) (feeRate : FeeRate)
    (explicit : List Utxo) (order : CoinOrder) :
    (l.serve (.buildTransaction walletId outputs feeRate explicit order)).store =
      if outputs.isEmpty && explicit.isEmpty then l.store
      else (l.serve (.deriveScript walletId)).store
  signTransaction (walletId : String) (tx : Transaction) :
    (l.serve (.signTransaction walletId tx)).store = l.store
  query {α : Type} (q : Query α) : (l.run q.action).2 = l

end Ledger

/-- **Failures leave the store intact**, up to what was committed before a script was to be
tracked. -/
theorem Reachable.failsCleanly {l : Ledger} (h : Reachable l) : FailsCleanly l where
  untouched hr := Request.atomic_action hr l _
  deriveScript := trackFailure_deriveScript
  trackScript := trackFailure_trackScript
  buildTransaction := store_serve_buildTransaction h.wellFormed.sound
  signTransaction walletId tx := Keeps.bind (.signTransaction walletId tx) (fun _ => .pure ()) l
  query q := by rw [Query.run_action]

namespace Ledger

variable {l : Ledger}

theorem store_watchedBy (l : Ledger) (chain : Option ChainTable) :
    (l.watchedBy chain).store = l.store := rfl

theorem nextOf_watchedBy (l : Ledger) (chain : Option ChainTable) (walletId : String) :
    (l.watchedBy chain).nextOf walletId = l.nextOf walletId := rfl

/-- A script that is not tracked is stored all the same. -/
theorem exists_run_deriveScript_of_refused (hs : WellFormed l.store) {walletId : String}
    {next : NextScript} (hnext : l.nextOf walletId = .ok next) {table : ChainTable}
    (hchain : l.chain = some table) {e : Error}
    (hrefused : table.track walletId next.script = .error e) :
    ∃ l' : Ledger, commit l.store (next.batch walletId) = .ok l'.store ∧
      l.run (Request.deriveScript walletId).action = (.error e, l') := by
  obtain ⟨l', hcommit, hchain', hrun⟩ := exists_run_deriveScript_eq hs hnext
  refine ⟨l', hcommit, ?_⟩
  rw [Request.action, run_bind, hrun, trackOnChain]
  simp only [run_bind, run_get, hchain', hchain, run_check, hrefused]

end Ledger

/-- The service tracks nothing for the wallet of the examples, and the script that could not be
tracked is stored. -/
theorem failsCleanly_of_refusal :
    ∃ (l : Ledger) (id : String) (script : Script) (e : Error), FailsCleanly l ∧
      (l.run (Request.deriveScript id).action).1 = .error e ∧
      TrackFailure l id (Request.deriveScript id).action e ∧
      record? ScriptRecord l.store script = none ∧
      record? ScriptRecord (l.serve (.deriveScript id)).store script = some ⟨script⟩ := by
  obtain ⟨id, next, -, hnext⟩ := exists_nextOf_aliasLedger
  let table : ChainTable := ⟨[id], ⟨[]⟩, [], []⟩
  have hreach : Reachable (aliasLedger.watchedBy (some table)) := by
    rw [← serve_setChain]
    exact reachable_aliasLedger.served _
  rw [← nextOf_watchedBy aliasLedger (some table)] at hnext
  have hnone : record? ScriptRecord (aliasLedger.watchedBy (some table)).store next.script = none := by
    rw [store_watchedBy, record?_aliasLedger (by decide)]
  have hchain : (aliasLedger.watchedBy (some table)).chain = some table := rfl
  generalize aliasLedger.watchedBy (some table) = l at hreach hnext hnone hchain
  have hrefused : table.track id next.script = .error (.generic ("cannot track for " ++ id)) :=
    ChainTable.track_eq_error_iff.2 (by simp [table, Refusals.ofTexts, Refusals.error?])
  obtain ⟨l', hcommit, hserve⟩ :=
    exists_run_deriveScript_of_refused hreach.wellFormed hnext hchain hrefused
  have hfails : (l.run (Request.deriveScript id).action).1 = .error _ := congrArg Prod.fst hserve
  refine ⟨l, id, next.script, _, hreach.failsCleanly, hfails, hreach.failsCleanly.deriveScript hfails,
    hnone, ?_⟩
  rw [serve, hserve, Pointwise.record?_commit hreach.wellFormed.sound hcommit, hnone]
  simp [NextScript.batch, Pointwise.on, Operation.onScript]

end CoinLedger
