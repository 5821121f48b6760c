import CoinLedger.Proofs.Ledger.Legible
import CoinLedger.Proofs.Ledger.WalletKeys

/-! # The steps of an action

`Steps l a` says of which steps an action is made when it is carried out on a ledger.  It reads what
can be read, it asks for the keys of stored wallets and remembers no other ones, and it looks at
nothing else that is remembered.  It may ask the service that watches the chain, and then it may fail
as the service does.  All requests are made of such steps (`Steps.action`), but for the two that stand
for the surroundings of a ledger, and so is what they are put together from.

What holds of the actions of all requests is shown once for each kind of step: no action leaves a
wallet out or remembers a wrong key (`Steps.leads`), and none finds a text that it cannot read, unless
the service says so (`Steps.legible`).  A request itself is gone through only once. -/

namespace CoinLedger

namespace Ledger

open Key

/-- The ledgers differ in what they remember at most. -/
structure Alike (l l' : Ledger) : Prop where
  store : l'.store = l.store
  network : l'.network = l.network
  chain : l'.chain = l.chain

/-- The action is made of these steps, from this ledger on. -/
inductive Steps : {α : Type} → Ledger → Action α → Prop where
  | pure {α : Type} {l : Ledger} (x : α) : Steps l (Pure.pure x)
  | throw {α : Type} {l : Ledger} {e : Error} (he : e ≠ .json) :
      Steps l (MonadExcept.throw e : Action α)
  | read {α : Type} {l : Ledger} {f : Store → Except Error α} (hf : Legible (f l.store)) :
      Steps l (Ledger.read f)
  | write {l : Ledger} (batch : Batch) : Steps l (Ledger.write batch)
  /-- An answer of the service may be an error. -/
  | ask {α : Type} {l : Ledger} {r : Except Error α}
      (hr : ∀ e, r = .error e → ServiceGives l.chain e) : Steps l (check r)
  /-- The service has tracked something, and has no other errors than before. -/
  | watch {l : Ledger} {chain : Option ChainTable}
      (hchain : ∀ e, ServiceGives chain e → ServiceGives l.chain e) :
      Steps l (modify fun l => { l with chain := chain })
  | masterKeyOf {l : Ledger} {w : Wallet} (hw : HasKeysOf l.store w) :
      Steps l (Ledger.masterKeyOf w)
  | remember {l : Ledger} {id : String} {w : Wallet} {master : ExtendedKey}
      (hw : record? Wallet l.store id = some w)
      (hmaster : masterKey w.mnemonic l.network = .ok master) : Steps l (Ledger.remember id master)
  /-- What is remembered makes no difference to what follows. -/
  | get_bind {β : Type} {l : Ledger} {g : Ledger → Action β}
      (hg : ∀ l', Alike l l' → g l' = g l) (h : Steps l (g l)) : Steps l (MonadState.get >>= g)
  | bind {α β : Type} {l : Ledger} {a : Action α} {f : α → Action β} (ha : Steps l a)
      (hf : ∀ x l', l.run a = (.ok x, l') → Steps l' (f x)) : Steps l (a >>= f)

variable {α β : Type} {l : Ledger}

/-! ### Wallets are only added -/

/-- The action leads to a ledger that extends this one. -/
def Leads {α : Type} (l : Ledger) (a : Action α) : Prop := Extends l (l.run a).2

namespace Leads

theorem bind {a : Action α} {f : α → Action β} (ha : Leads l a)
    (hf : ∀ x l', l.run a = (.ok x, l') → Extends l l' → Leads l' (f x)) : Leads l (a >>= f) := by
  unfold Leads at ha ⊢
  rw [run_bind]
  rcases hrun : l.run a with ⟨_ | x, l'⟩
  · rw [hrun] at ha
    exact ha
  · rw [hrun] at ha
    exact ha.trans (hf x l' hrun ha)

theorem write (hs : Sound Wallet l.store) (batch : Batch) : Leads l (Ledger.write batch) := by
  unfold Leads
  rw [run_write]
  cases hcommit : commit l.store batch with
  | error e => exact .refl hs
  | ok s =>
      exact .of_masterKeys_eq ((writes_commit hcommit).sound hs) rfl
        (keepsWallets_of_commit hs hcommit) rfl

/-- A master key of a stored wallet is remembered. -/
theorem remember (hs : Sound Wallet l.store) {id : String} {w : Wallet}
    {master : ExtendedKey} (hw : record? Wallet l.store id = some w)
    (hmaster : masterKey w.mnemonic l.network = .ok master) :
    Leads l (Ledger.remember id master) where
  sound := hs
  network := rfl
  wallets := .refl l.store
  informed hl e he := by
    rcases List.mem_cons.1 he with rfl | he
    · exact ⟨w, hw, hmaster⟩
    · exact hl e he

theorem masterKeyOf (hs : Sound Wallet l.store) {w : Wallet} (hw : HasKeysOf l.store w) :
    Leads l (Ledger.masterKeyOf w) := by
  obtain ⟨stored, hstored, hsame⟩ := hw
  unfold Leads Ledger.masterKeyOf
  cases hlookup : l.masterKeys.lookup w.id with
  | some master =>
      simp only [run_bind, run_get, hlookup, run_pure]
      exact .refl hs
  | none =>
      simp only [run_bind, run_get, hlookup, run_check]
      cases hmaster : masterKey w.mnemonic l.network with
      | error e => exact .refl hs
      | ok master => exact remember hs hstored (hsame.mnemonic ▸ hmaster)

end Leads

theorem Steps.leads {a : Action α} (h : Steps l a) (hs : Sound Wallet l.store) : Leads l a := by
  induction h with
  | pure | throw => exact .refl hs
  | read =>
      rw [Leads, run_read]
      exact .refl hs
  | ask =>
      rw [Leads, run_check]
      exact .refl hs
  | write batch => exact .write hs batch
  | watch => exact .of_masterKeys_eq hs rfl (.refl _) rfl
  | masterKeyOf hw => exact .masterKeyOf hs hw
  | remember hw hmaster => exact .remember hs hw hmaster
  | get_bind hg h ih =>
      rw [Leads, run_bind, run_get]
      exact ih hs
  | bind ha hf iha ihf =>
      exact .bind (iha hs) fun x l' hrun hextends => ihf x l' hrun hextends.sound

/-! ### What is stored can be read -/

/-- The action finds no text that it cannot read, and leaves rows that can be read and a service that
has no other errors. -/
structure LegibleRun {α : Type} (l : Ledger) (a : Action α) : Prop where
  result : ¬ ServiceGives l.chain .json → Legible (l.run a).1
  wellFormed : WellFormed (l.run a).2.store
  chain : ∀ e, ServiceGives (l.run a).2.chain e → ServiceGives l.chain e

theorem legible_write (hs : WellFormed l.store) (batch : Batch) :
    Legible (l.run (Ledger.write batch)).1 := by
  have hlegible := Legible.commit hs batch
  rw [run_write]
  cases hcommit : commit l.store batch with
  | error e =>
      rw [hcommit] at hlegible
      exact .error fun he => hlegible (he ▸ rfl)
  | ok s => exact .ok ()

namespace LegibleRun

/-- An action that does not ask the service leaves it as it is. -/
theorem of_offline {a : Action α} (ha : Offline a) (hresult : Legible (l.run a).1)
    (hwf : WellFormed (l.run a).2.store) : LegibleRun l a where
  result _ := hresult
  wellFormed := hwf
  chain _ he := ha.chain_eq l ▸ he

theorem bind {a : Action α} {f : α → Action β} (ha : LegibleRun l a)
    (hf : ∀ x l', l.run a = (.ok x, l') → WellFormed l'.store → LegibleRun l' (f x)) :
    LegibleRun l (a >>= f) := by
  obtain ⟨hresult, hwf, hchain⟩ := ha
  rcases hrun : l.run a with ⟨e | x, l'⟩
  · rw [hrun] at hresult hwf hchain
    constructor <;> rw [run_bind, hrun]
    · exact fun hgives => .error fun he => hresult hgives (he ▸ rfl)
    · exact hwf
    · exact hchain
  · rw [hrun] at hwf hchain
    have hrest := hf x l' hrun hwf
    constructor <;> rw [run_bind, hrun]
    · exact fun hgives => hrest.result fun h => hgives (hchain _ h)
    · exact hrest.wellFormed
    · exact fun e he => hchain e (hrest.chain e he)

theorem write (hs : WellFormed l.store) (batch : Batch) : LegibleRun l (Ledger.write batch) := by
  refine .of_offline (.write batch) (legible_write hs batch) ?_
  rw [run_write]
  cases hcommit : commit l.store batch with
  | error e => exact hs
  | ok s => exact hs.commit hcommit

theorem masterKeyOf (hs : WellFormed l.store) (w : Wallet) :
    LegibleRun l (Ledger.masterKeyOf w) := by
  refine .of_offline (.masterKeyOf w) ?_ ?_
  · rw [(run_masterKeyOf l w).1, masterOf]
    cases l.masterKeys.lookup w.id with
    | some master => exact .ok master
    | none => exact .masterKey w.mnemonic l.network
  · rw [Keeps.masterKeyOf w l]
    exact hs

end LegibleRun

theorem Steps.legible {a : Action α} (h : Steps l a) (hs : WellFormed l.store) :
    LegibleRun l a := by
  induction h with
  | pure x => exact .of_offline (.pure x) (.ok x) hs
  | throw he => exact ⟨fun _ => .error he, hs, fun _ => id⟩
  | read hf => refine .of_offline (.read _) ?_ ?_ <;> rwa [run_read]
  | @ask _ l r hr =>
      constructor <;> rw [run_check]
      · exact fun hgives he => hgives (hr _ he)
      · exact hs
      · exact fun _ => id
  | write batch => exact .write hs batch
  | masterKeyOf => exact .masterKeyOf hs _
  | watch hchain => exact ⟨fun _ => .ok (), hs, hchain⟩
  | remember => exact .of_offline (.remember _ _) (.ok ()) hs
  | get_bind hg h ih =>
      constructor <;> rw [run_bind, run_get]
      · exact (ih hs).result
      · exact (ih hs).wellFormed
      · exact (ih hs).chain
  | bind ha hf iha ihf => exact .bind (iha hs) ihf

/-! ### Actions of requests -/

/-- The request stands for the surroundings of a ledger. -/
def Request.Surrounds : Request → Prop
  | setChain _ | reopen _ => True
  | _ => False

namespace Steps

theorem read_bind {f : Store → Except Error α} {g : α → Action β} (hf : Legible (f l.store))
    (hg : ∀ x, f l.store = .ok x → Steps l (g x)) : Steps l (Ledger.read f >>= g) := by
  refine .bind (.read hf) fun x l' hrun => ?_
  rw [run_read] at hrun
  obtain ⟨hx, rfl⟩ := Prod.mk.inj hrun
  exact hg x hx

theorem check_bind {r : Except Error α} {g : α → Action β} (hr : Legible r)
    (hg : ∀ x, r = .ok x → Steps l (g x)) : Steps l (check r >>= g) :=
  read_bind (f := fun _ => r) hr hg

/-- What follows is carried out on a ledger that extends this one. -/
theorem bind_extends (hs : WellFormed l.store) {a : Action α} {f : α → Action β} (ha : Steps l a)
    (hf : ∀ x l', WellFormed l'.store → Extends l l' → Steps l' (f x)) : Steps l (a >>= f) := by
  refine .bind ha fun x l' hrun => ?_
  have hwf := (ha.legible hs).wellFormed
  have hextends : Extends l (l.run a).2 := ha.leads hs.sound
  rw [hrun] at hwf hextends
  exact hf x l' hwf hextends

theorem requireWallet_bind (hs : WellFormed l.store) {walletId : String} {g : Wallet → Action β}
    (hg : ∀ w, HasKeysOf l.store w → Steps l (g w)) :
    Steps l (Ledger.read (fun s => requireWallet s walletId) >>= g) :=
  .read_bind (.requireWallet hs.sound walletId) fun w hw =>
    hg w (hasKeysOf_of_requireWallet hs.sound hw)

theorem spendableGroups_bind (hs : WellFormed l.store) {walletId : String}
    {g : List CoinGroup → Action β} (hg : ∀ groups, Steps l (g groups)) :
    Steps l (Ledger.read (fun s => spendableGroups s walletId) >>= g) := by
  obtain ⟨groups, hgroups, -⟩ := exists_groupsOf hs walletId
  exact .read_bind (.of_eq_ok hgroups) fun groups _ => hg groups

theorem trackOnChain (walletId : String) (script : Script) :
    Steps l (Ledger.trackOnChain walletId script) := by
  refine .get_bind (fun l' h => by simp only [h.chain]) ?_
  cases hchain : l.chain with
  | none => exact .pure ()
  | some table =>
      refine .bind (.ask fun e he => hchain ▸ .track he) fun table' l' hrun => .watch fun e he => ?_
      rw [run_check] at hrun
      obtain ⟨htrack, rfl⟩ := Prod.mk.inj hrun
      exact hchain ▸ he.of_track htrack

theorem nextScript (hs : WellFormed l.store) (walletId : String) :
    Steps l (Ledger.nextScript walletId) :=
  .requireWallet_bind hs fun _ hw => .check_bind (.nextIndex _ _) fun _ _ =>
    .bind (.masterKeyOf hw) fun _ _ _ => .check_bind (.derive _ _) fun _ _ => .pure _

theorem deriveScript (hs : WellFormed l.store) (walletId : String) :
    Steps l (Ledger.deriveScript walletId) :=
  .bind (.nextScript hs walletId) fun next _ _ => .bind (.write (next.batch walletId)) fun _ _ _ =>
    .bind (.trackOnChain walletId next.script) fun _ _ _ => .pure _

theorem createWallet (hs : WellFormed l.store) (mnemonic name template : String)
    (creationBlock : BlockHash) (aliases : List String) :
    Steps l (Ledger.createWallet mnemonic name template creationBlock aliases) := by
  refine .check_bind (.checkTemplate template) fun _ _ => .get_bind
    (fun l' h => by simp only [h.network]) ?_
  refine .check_bind (.masterKey _ _) fun master hmaster => .bind (.write _) fun _ l' hrun => ?_
  have hw := record?_of_run_insertWallet hs.sound hrun
  obtain ⟨s, -, rfl⟩ := run_write_ok hrun
  exact .bind (.remember hw hmaster) fun _ _ _ => .pure _

theorem buildTransaction (hs : WellFormed l.store) (walletId : String) (outputs : List TxOut)
    (feeRate : FeeRate) (explicit : List Utxo) (order : CoinOrder) :
    Steps l (Ledger.buildTransaction walletId outputs feeRate explicit order) := by
  refine .requireWallet_bind hs fun w hw => ?_
  dsimp only
  split
  · exact .throw nofun
  · -- the wallet was read before the script was derived, but its keys are the same
    refine .bind_extends hs (.deriveScript hs walletId) fun script _ hs hextends =>
      .spendableGroups_bind hs fun groups => .bind (.masterKeyOf (hw.keeps hextends.wallets))
        fun master _ _ => .check_bind ?_ fun _ _ => .pure _
    split
    · exact .map (.payFromAll order master groups _) some
    · exact .payFromExplicit master groups explicit _

theorem signTransaction (hs : WellFormed l.store) (walletId : String) (tx : Transaction) :
    Steps l (Ledger.signTransaction walletId tx) := by
  refine .requireWallet_bind hs fun w hw => .bind_extends hs (.masterKeyOf hw) fun master _ hs _ =>
    .spendableGroups_bind hs fun groups => .check_bind (.addGroupKeys _ _ _) fun keys _ =>
      .check_bind ?_ fun _ _ => .pure _
  obtain ⟨signed, hsigned⟩ :=
    keys.exists_sign_eq_ok tx ((groupCoins (groupsSpentBy groups tx)).map (·.utxo))
  exact .of_eq_ok hsigned

theorem putBlob (walletId : Option String) (name : String) (value : Option Bytes) :
    Steps l (Ledger.putBlob walletId name value) := by
  unfold Ledger.putBlob
  cases value <;> exact .write _

/-- All requests are made of such steps, but for those that stand for the surroundings. -/
theorem action (hs : WellFormed l.store) {r : Request} (hr : ¬ r.Surrounds) :
    Steps l r.action := by
  cases r with
  | createWallet mnemonic name template creationBlock aliases =>
      exact .bind (.createWallet hs ..) fun _ _ _ => .pure ()
  | trackScript walletId script =>
      exact .requireWallet_bind hs fun _ _ => .bind (.write _) fun _ _ _ =>
        .trackOnChain walletId script
  | deriveScript walletId => exact .bind (.deriveScript hs walletId) fun _ _ _ => .pure ()
  | observe name source event =>
      obtain ⟨found, hfound⟩ := exists_findWallet_eq_ok hs.sound name
      refine .read_bind (.of_eq_ok hfound) fun found _ => ?_
      cases found with
      | some w => exact .write _
      | none => exact .throw nofun
  | newBlock =>
      refine .bind (.get_bind (fun l' h => by simp only [h.chain]) ?_) fun _ _ _ => .pure ()
      cases hchain : l.chain with
      | none => exact .pure 0
      | some table =>
          obtain ⟨pending, hpending⟩ := exists_pendingTransactions_eq_ok hs.sound
          exact .read_bind (.of_eq_ok hpending) fun pending _ =>
            .bind (.ask fun e he => hchain ▸ .of_confirmations he) fun batch _ _ =>
              .bind (.write batch) fun _ _ _ => .pure _
  | buildTransaction walletId outputs feeRate explicit order =>
      exact .bind (.buildTransaction hs ..) fun _ _ _ => .pure ()
  | signTransaction walletId transaction =>
      exact .bind (.signTransaction hs walletId transaction) fun _ _ _ => .pure ()
  | putBlob scope name value => exact .putBlob scope name value
  | recordPayment payment => exact .write [.upsertPayment payment]
  | addAliases | upsertChannel | attachSpendableData | updatePayment => exact .write _
  | setChain | reopen => exact absurd trivial hr

end Steps

/-! ### Requests -/

/-- A request adds wallets and what is known about them, unless it opens the store anew. -/
theorem extends_serve (hs : WellFormed l.store) {r : Request} (hr : ∀ n, r ≠ .reopen n) :
    Extends l (l.serve r) := by
  by_cases hsurrounds : r.Surrounds
  · cases r with
    | setChain chain => exact .of_masterKeys_eq hs.sound rfl (.refl _) rfl
    | reopen network => exact absurd rfl (hr network)
    | _ => cases hsurrounds
  · exact (Steps.action hs hsurrounds).leads hs.sound

theorem informed_serve (hs : WellFormed l.store) (h : Informed l) (r : Request) :
    Informed (l.serve r) := by
  by_cases hr : ∃ network, r = .reopen network
  · -- a ledger that was opened anew knows no master keys
    obtain ⟨network, rfl⟩ := hr
    rintro e ⟨⟩
  · exact (extends_serve hs fun n hn => hr ⟨n, hn⟩).informed h

/-- No request comes across a text that it cannot read, unless the service gives this error. -/
theorem legible_serve (hs : WellFormed l.store) (r : Request) (hgives : ¬ ServiceGives l.chain .json) :
    Legible (l.run r.action).1 := by
  by_cases hr : r.Surrounds
  · cases r with
    | setChain | reopen => exact .ok ()
    | _ => cases hr
  · exact ((Steps.action hs hr).legible hs).result hgives

/-- No request changes the keys of a wallet. -/
theorem keepsWallets_serve (hs : Sound Wallet l.store) (r : Request) :
    KeepsWallets l.store (l.serve r).store := by
  rcases serve_ok hs r with hstore | ⟨batch, -, hcommit⟩
  · rw [hstore]
    exact .refl l.store
  · exact keepsWallets_of_commit hs hcommit

theorem keepsWallets_serveAll (hs : WellFormed l.store) (requests : List Request) :
    KeepsWallets l.store (l.serveAll requests).store := by
  induction requests generalizing l with
  | nil => exact .refl l.store
  | cons r requests ih =>
      exact (keepsWallets_serve hs.sound r).trans (ih (wellFormed_serve hs r))

end Ledger

theorem Reachable.informed {l : Ledger} (h : Reachable l) : Ledger.Informed l := by
  induction h with
  | opened network chain => rintro e ⟨⟩
  | served hl r ih => exact Ledger.informed_serve hl.wellFormed ih r

end CoinLedger
