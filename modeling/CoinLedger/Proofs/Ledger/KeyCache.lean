import CoinLedger.Proofs.Ledger.Reports
import CoinLedger.Proofs.Ledger.Steps

/-! # Master keys that are remembered

A ledger keeps the master keys that it has computed, and a wallet is made in two steps: it is stored,
and then its key is remembered.  A wallet is stored under the hash of its master key, of which there
are few enough for two mnemonics to have the same one.  The second of them is refused, and then its
key is not remembered (`Reachable.informed`); so a remembered key is the key of the wallet that is
stored.

The memory changes nothing but the time it takes.  Ledgers that differ in what they remember, and in
nothing else, are `Twins`.  `RunsAlike` says that an action has the same result on both and leaves
twins, and it holds of every action that is made of the `Steps` of requests (`Steps.runsAlike`):
`RunsAlike.masterKeyOf` is the one step that looks at what is remembered. -/

namespace CoinLedger

open Ledger Key

/-! ### The wallets -/

/-- The wallet has a template, and a mnemonic by whose master key it is named. -/
def Wallet.Keyed (w : Wallet) (network : Network) : Prop :=
  ∃ master, masterKey w.mnemonic network = .ok master ∧ w.id = walletId master ∧
    checkTemplate w.derivationPath = .ok ()

namespace Wallet.Keyed

variable {w w' : Wallet} {network : Network}

/-- The name of a wallet does not depend on the network. -/
theorem on (h : w.Keyed network) (network' : Network) : w.Keyed network' := by
  obtain ⟨master, hmaster, hid, htemplate⟩ := h
  refine ⟨master.on network', ?_, hid, htemplate⟩
  rw [masterKey_on w.mnemonic network, hmaster]
  rfl

theorem of_sameKeys (h : w.Keyed network) (hsame : w.SameKeys w') : w'.Keyed network := by
  obtain ⟨master, hmaster, hid, htemplate⟩ := h
  exact ⟨master, by rw [hsame.mnemonic, hmaster], by rw [hsame.id, hid],
    by rw [hsame.derivationPath, htemplate]⟩

end Wallet.Keyed

theorem Ledger.keyed_of_commit {l : Ledger} {s : Store} {batch : Batch} {network : Network}
    (hs : Sound Wallet l.store)
    (h : ∀ id w, record? Wallet l.store id = some w → w.Keyed network)
    (hbatch : Submitted l batch) (hcommit : commit l.store batch = .ok s) {id : String} {w : Wallet}
    (hw : record? Wallet s id = some w) : w.Keyed network := by
  cases hbefore : record? Wallet l.store id with
  | some known =>
      obtain ⟨w', hw', hsame⟩ := keepsWallets_of_commit hs hcommit id known hbefore
      obtain rfl : w' = w := Option.some.inj (hw'.symm.trans hw)
      exact (h id known hbefore).of_sameKeys hsame
  | none =>
      -- a wallet that was not there was made by this batch, and alone
      have hsome : (record? Wallet s id).isSome = true := by rw [hw]; rfl
      rcases isSome_wallet_of_commit hs hcommit hsome with hsome | ⟨made, hmade, rfl⟩
      · rw [hbefore] at hsome
        cases hsome
      · obtain ⟨rfl, master, hmaster, hid, htemplate⟩ := hbatch.of_insertWallet hmade
        have hrecord := Pointwise.record?_commit hs hcommit made.id
        rw [hw, hbefore] at hrecord
        have hwas : Operation.onWallet made.id (.insertWallet made) none = some made := if_pos rfl
        obtain rfl : w = made := Option.some.inj (hrecord.trans hwas)
        exact Wallet.Keyed.on ⟨master, hmaster, hid, htemplate⟩ network

/-- Stored wallets are named by the master keys of their mnemonics. -/
theorem Reachable.keyed {l : Ledger} (h : Reachable l) (network : Network) {id : String} {w : Wallet}
    (hw : record? Wallet l.store id = some w) : w.Keyed network :=
  h.store_induction (P := fun s => ∀ id w, record? Wallet s id = some w → w.Keyed network) nofun
    (fun hs ih hbatch hcommit _ _ => keyed_of_commit hs.sound ih hbatch hcommit) id w hw

/-! ### Ledgers that differ in what they remember -/

namespace Ledger

/-- The ledger that remembers no master keys. -/
def forget (l : Ledger) : Ledger := { l with masterKeys := [] }

/-- The ledgers differ in what they remember at most, and what they remember is right. -/
structure Twins (l l' : Ledger) : Prop extends Alike l l' where
  sound : Sound Wallet l.store
  informed : Informed l
  informed' : Informed l'

theorem Twins.sound' {l l' : Ledger} (h : Twins l l') : Sound Wallet l'.store := h.store ▸ h.sound

theorem Twins.of_extends {l l' m m' : Ledger} (h : Twins l l') (halike : Alike m m')
    (hm : Extends l m) (hm' : Extends l' m') : Twins m m' :=
  ⟨halike, hm.sound, hm.informed h.informed, hm'.informed h.informed'⟩

theorem twins_forget {l : Ledger} (hs : Sound Wallet l.store) (h : Informed l) :
    Twins l l.forget where
  store := rfl
  network := rfl
  chain := rfl
  sound := hs
  informed := h
  informed' := nofun

variable {α β : Type}

/-- The action has the same result on both ledgers, and leaves ledgers that are alike. -/
structure SameOutcome (l l' : Ledger) (a : Action α) : Prop where
  result : (l'.run a).1 = (l.run a).1
  alike : Alike (l.run a).2 (l'.run a).2

/-- The action has the same outcome on both ledgers, and it only adds to them. -/
def RunsAlike (l l' : Ledger) (a : Action α) : Prop :=
  ∃ result m m', l.run a = (result, m) ∧ l'.run a = (result, m') ∧ Alike m m' ∧ Extends l m ∧
    Extends l' m'

namespace RunsAlike

variable {l l' : Ledger}

theorem of_leads {a : Action α} (hleads : Leads l a) (hleads' : Leads l' a)
    (hresult : (l'.run a).1 = (l.run a).1) (halike : Alike (l.run a).2 (l'.run a).2) :
    RunsAlike l l' a :=
  ⟨_, (l.run a).2, (l'.run a).2, rfl, Prod.ext hresult rfl, halike, hleads, hleads'⟩

theorem sameOutcome {a : Action α} (h : RunsAlike l l' a) : SameOutcome l l' a := by
  obtain ⟨result, m, m', hrun, hrun', halike, -⟩ := h
  constructor <;> rw [hrun, hrun']
  exact halike

theorem bind (h : Twins l l') {a : Action α} {f : α → Action β} (ha : RunsAlike l l' a)
    (hf : ∀ x m m', l.run a = (.ok x, m) → Twins m m' → RunsAlike m m' (f x)) :
    RunsAlike l l' (a >>= f) := by
  obtain ⟨result, m, m', hrun, hrun', halike, hextends, hextends'⟩ := ha
  cases result with
  | error e =>
      exact ⟨.error e, m, m', by rw [run_bind, hrun], by rw [run_bind, hrun'], halike, hextends,
        hextends'⟩
  | ok x =>
      have htwins := h.of_extends halike hextends hextends'
      obtain ⟨result, n, n', hrest, hrest', halike, hmore, hmore'⟩ := hf x m m' hrun htwins
      refine ⟨result, n, n', ?_, ?_, halike, hextends.trans hmore, hextends'.trans hmore'⟩
      · rw [run_bind, hrun]
        exact hrest
      · rw [run_bind, hrun']
        exact hrest'

theorem get_bind {g : Ledger → Action β} (hg : g l' = g l) (h : RunsAlike l l' (g l)) :
    RunsAlike l l' (MonadState.get >>= g) := by
  have hrun : l.run (MonadState.get >>= g) = l.run (g l) := by rw [run_bind, run_get]
  have hrun' : l'.run (MonadState.get >>= g) = l'.run (g l) := by rw [run_bind, run_get, ← hg]
  unfold RunsAlike
  rw [hrun, hrun']
  exact h

theorem write (h : Twins l l') (batch : Batch) : RunsAlike l l' (Ledger.write batch) := by
  refine of_leads (.write h.sound batch) (.write h.sound' batch) ?_ ?_ <;>
    rw [run_write, run_write, h.store] <;> cases commit l.store batch
  · rfl
  · rfl
  · exact h.toAlike
  · exact ⟨rfl, h.network, h.chain⟩

/-- The one step that looks at what is remembered. -/
theorem masterKeyOf (h : Twins l l') {w : Wallet} (hw : HasKeysOf l.store w) :
    RunsAlike l l' (Ledger.masterKeyOf w) := by
  have hw' : HasKeysOf l'.store w := h.store ▸ hw
  have hleads := Leads.masterKeyOf h.sound hw
  have hleads' := Leads.masterKeyOf h.sound' hw'
  refine of_leads hleads hleads' ?_ ⟨?_, ?_, ?_⟩
  · rw [(run_masterKeyOf l' w).1, (run_masterKeyOf l w).1, h.informed'.masterOf_eq hw',
      h.informed.masterOf_eq hw, h.network]
  · rw [Keeps.masterKeyOf w l', Keeps.masterKeyOf w l, h.store]
  · rw [hleads'.network, hleads.network, h.network]
  · rw [(Offline.masterKeyOf w).chain_eq, (Offline.masterKeyOf w).chain_eq, h.chain]

end RunsAlike

/-- An action of requests has the same outcome, whatever is remembered. -/
theorem Steps.runsAlike {l l' : Ledger} {a : Action α} (hsteps : Steps l a) (h : Twins l l') :
    RunsAlike l l' a := by
  induction hsteps generalizing l' with
  | pure | throw => exact .of_leads (.refl h.sound) (.refl h.sound') rfl h.toAlike
  | read =>
      refine .of_leads ?_ ?_ ?_ ?_
      · rw [Leads, run_read]
        exact .refl h.sound
      · rw [Leads, run_read]
        exact .refl h.sound'
      · rw [run_read, run_read, h.store]
      · rw [run_read, run_read]
        exact h.toAlike
  | ask hr =>
      have hr' := hr
      rw [← h.chain] at hr'
      refine .of_leads ((Steps.ask hr).leads h.sound) ((Steps.ask hr').leads h.sound') ?_ ?_
      · rw [run_check, run_check]
      · rw [run_check, run_check]
        exact h.toAlike
  | write batch => exact .write h batch
  | watch hchain =>
      have hchain' := hchain
      rw [← h.chain] at hchain'
      exact .of_leads ((Steps.watch hchain).leads h.sound) ((Steps.watch hchain').leads h.sound') rfl
        ⟨h.store, h.network, rfl⟩
  | masterKeyOf hw => exact .masterKeyOf h hw
  | remember hw hmaster =>
      exact .of_leads (.remember h.sound hw hmaster)
        (.remember h.sound' (h.store ▸ hw) (h.network ▸ hmaster)) rfl ⟨h.store, h.network, h.chain⟩
  | get_bind hg _ ih => exact .get_bind (hg l' h.toAlike) (ih h)
  | bind _ _ iha ihf => exact .bind h (iha h) fun x m m' hrun => ihf x m hrun

/-- Twins that are asked for the same stay twins. -/
theorem twins_serve {l l' : Ledger} (hs : WellFormed l.store) (h : Twins l l') (r : Request) :
    Twins (l.serve r) (l'.serve r) := by
  by_cases hr : r.Surrounds
  · cases r with
    | setChain chain =>
        exact ⟨⟨h.store, h.network, rfl⟩, h.sound, h.informed, h.informed'⟩
    -- ledgers that were opened anew know no master keys
    | reopen network => exact ⟨⟨h.store, rfl, h.chain⟩, h.sound, nofun, nofun⟩
    | _ => cases hr
  · obtain ⟨result, m, m', hrun, hrun', halike, hextends, hextends'⟩ :=
      (Steps.action hs hr).runsAlike h
    rw [serve, serve, hrun, hrun']
    exact h.of_extends halike hextends hextends'

theorem twins_serveAll {l l' : Ledger} (hs : WellFormed l.store) (h : Twins l l')
    (requests : List Request) : Twins (l.serveAll requests) (l'.serveAll requests) := by
  induction requests generalizing l l' with
  | nil => exact h
  | cons r requests ih => exact ih (wellFormed_serve hs r) (twins_serve hs h r)

/-- A mnemonic with the name of a stored wallet is refused, and nothing of it stays, whether it is
the mnemonic of that wallet or not. -/
theorem run_createWallet_of_collision {l : Ledger} (hs : Sound Wallet l.store)
    {mnemonic template : String} (htemplate : checkTemplate template = .ok ())
    {master : ExtendedKey} (hmaster : masterKey mnemonic l.network = .ok master) {w : Wallet}
    (hw : record? Wallet l.store (walletId master) = some w) (name : String)
    (creationBlock : BlockHash) (aliases : List String) :
    l.run (createWallet mnemonic name template creationBlock aliases) =
      (.error (.walletAlreadyExists (walletId master)), l) := by
  have hrefused : commit l.store [.insertWallet
      ⟨walletId master, name, mnemonic, template, 0, creationBlock, aliases⟩] =
        .error (.walletAlreadyExists (walletId master)) := by
    rw [commit_singleton]
    show reviseEntity Wallet l.store (walletId master) _ = _
    rw [reviseEntity, hs.getEntity, hw]
    rfl
  simp only [createWallet, run_bind, run_check, htemplate, run_get, hmaster, run_write, hrefused]

/-- What a ledger remembers agrees with what it has stored. -/
structure KeysAgree (l : Ledger) : Prop where
  /-- Each stored wallet is named by the master key of its mnemonic. -/
  wallets {id : String} {w : Wallet} : record? Wallet l.store id = some w → w.Keyed l.network
  /-- Each key that is remembered is the one of a stored wallet. -/
  remembered : ∀ e ∈ l.masterKeys, ∃ w, record? Wallet l.store e.1 = some w ∧
    masterKey w.mnemonic l.network = .ok e.2
  /-- The key of a wallet is the one that is computed of its mnemonic. -/
  masterKeyOf {w : Wallet} : HasKeysOf l.store w →
    (l.run (Ledger.masterKeyOf w)).1 = masterKey w.mnemonic l.network
  deriveScript (walletId : String) : SameOutcome l l.forget (Ledger.deriveScript walletId)
  buildTransaction (walletId : String) (outputs : List TxOut) (feeRate : FeeRate)
    (explicit : List Utxo) (order : CoinOrder) :
    SameOutcome l l.forget (Ledger.buildTransaction walletId outputs feeRate explicit order)
  signTransaction (walletId : String) (tx : Transaction) :
    SameOutcome l l.forget (Ledger.signTransaction walletId tx)
  /-- No later request finds a difference either. -/
  requests (requests : List Request) : Alike (l.serveAll requests) (l.forget.serveAll requests)

end Ledger

/-- **Remembered master keys agree with the store**, in every ledger that requests lead to. -/
theorem Reachable.keysAgree {l : Ledger} (h : Reachable l) : KeysAgree l := by
  have hs := h.wellFormed
  have htwins := twins_forget hs.sound h.informed
  exact {
    wallets := h.keyed l.network
    remembered := h.informed
    masterKeyOf := fun hw => by rw [(run_masterKeyOf l _).1, h.informed.masterOf_eq hw]
    deriveScript := fun walletId => ((Steps.deriveScript hs walletId).runsAlike htwins).sameOutcome
    buildTransaction := fun walletId outputs feeRate explicit order =>
      ((Steps.buildTransaction hs walletId outputs feeRate explicit order).runsAlike
        htwins).sameOutcome
    signTransaction := fun walletId tx =>
      ((Steps.signTransaction hs walletId tx).runsAlike htwins).sameOutcome
    requests := fun requests => (twins_serveAll hs htwins requests).toAlike }

/-- A second wallet of one mnemonic is refused, and the key of the first one stays, also when the
store is opened for another network. -/
theorem keysAgree_of_collision :
    ∃ (l : Ledger) (id : String) (w : Wallet), record? Wallet l.store id = some w ∧
      (l.run (createWallet w.mnemonic "other" "m/*" .zero [])).1 =
        .error (.walletAlreadyExists id) ∧
      KeysAgree (l.serve (.createWallet w.mnemonic "other" "m/*" .zero [])) ∧
      KeysAgree (l.serveAll [.createWallet w.mnemonic "other" "m/*" .zero [], .reopen .bitcoin]) := by
  obtain ⟨id, hw, -⟩ := exists_wallet_aliasLedger
  have hreach := reachable_aliasLedger
  have hs : Sound Wallet aliasLedger.store := hreach.wellFormed.sound
  obtain ⟨master, hmaster, hid, -⟩ := hreach.keyed aliasLedger.network hw
  obtain rfl : id = walletId master := hid
  refine ⟨aliasLedger, _, _, hw, ?_, (hreach.served _).keysAgree, (hreach.serveAll _).keysAgree⟩
  exact congrArg Prod.fst (run_createWallet_of_collision hs (by decide) hmaster hw _ _ _)

end CoinLedger
