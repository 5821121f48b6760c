import CoinLedger.Proofs.Ledger.Reports
import CoinLedger.Proofs.Ledger.Steps

/-! # Scripts that are derived

A script that is derived is the next one of its wallet (`run_deriveScript_ok`), and the key at its path
unlocks it (`Informed.unlocks_of_nextOf`).  Deriving writes one batch and asks the service that watches
the chain afterwards, which is all that can go wrong once there is a next script
(`exists_run_deriveScript_eq`). -/

namespace CoinLedger

open Ledger Key

namespace Ledger

/-- What is derived is unlocked by the key at its path. -/
theorem Informed.unlocks_of_nextOf {l : Ledger} (h : Informed l) (hs : Sound Wallet l.store)
    {walletId : String} {next : NextScript} (hnext : l.nextOf walletId = .ok next) :
    ∃ w, record? Wallet l.store walletId = some w ∧ w.Unlocks next.path next.script := by
  obtain ⟨w, hw, hnext⟩ := bind_ok hnext
  obtain ⟨index, -, hnext⟩ := bind_ok hnext
  obtain ⟨master, hmaster, hnext⟩ := bind_ok hnext
  obtain ⟨key, hkey, hnext⟩ := bind_ok hnext
  obtain rfl := Except.ok.inj hnext
  rw [h.masterOf_eq (hasKeysOf_of_requireWallet hs hw)] at hmaster
  exact ⟨w, record?_of_requireWallet hs hw, l.network, key,
    by rw [Wallet.keyAt, hmaster, ok_bind, hkey], rfl⟩

/-- What changes no wallet changes no next script. -/
theorem nextOf_serve {l : Ledger} (hs : WellFormed l.store) (hl : Informed l) {r : Request}
    (hr : ∀ n, r ≠ .reopen n) (hwallet : .wallet ∉ r.writes) (walletId : String) :
    (l.serve r).nextOf walletId = l.nextOf walletId := by
  have hextends := extends_serve hs hr
  have hrows : SameRows (Entity.kind Wallet) l.store (l.serve r).store :=
    sameRows_serve hs.sound hwallet
  unfold nextOf
  rw [requireWallet_eq hextends.sound, hrows.record?_eq, ← requireWallet_eq hs.sound]
  cases hw : requireWallet l.store walletId with
  | error e => rfl
  | ok w =>
      have hkeys := hasKeysOf_of_requireWallet hs.sound hw
      have hmaster : (l.serve r).masterOf w = l.masterOf w := by
        rw [(hextends.informed hl).masterOf_eq (hkeys.keeps hextends.wallets), hl.masterOf_eq hkeys,
          hextends.network]
      simp only [ok_bind, hmaster]

/-- A script that is derived is the next one of the wallet, and what it makes is committed. -/
theorem run_deriveScript_ok {l l' : Ledger} (hs : Sound Wallet l.store) {walletId : String}
    {script : Script} (h : l.run (deriveScript walletId) = (.ok script, l')) :
    ∃ next, l.nextOf walletId = .ok next ∧ next.script = script ∧
      commit l.store (next.batch walletId) = .ok l'.store := by
  obtain ⟨hnext, hlearned⟩ := run_nextScript hs walletId
  obtain ⟨next, l₁, hrun, h⟩ := run_bind_ok h
  obtain ⟨_, l₂, hwrite, h⟩ := run_bind_ok h
  obtain ⟨_, l₃, htrack, h⟩ := run_bind_ok h
  obtain ⟨hscript, rfl⟩ := Prod.mk.inj h
  rw [hrun] at hnext hlearned
  obtain ⟨s, hcommit, rfl⟩ := run_write_ok hwrite
  have hstore : l₃.store = s := by
    have hkeeps := Keeps.trackOnChain walletId next.script { l₁ with store := s }
    rw [htrack] at hkeeps
    exact hkeeps
  have hlearnedStore : l₁.store = l.store := hlearned.store
  refine ⟨next, hnext.symm, Except.ok.inj hscript, ?_⟩
  rw [hstore, ← hlearnedStore, hcommit]

theorem serve_deriveScript {l l' : Ledger} {walletId : String} {script : Script}
    (h : l.run (deriveScript walletId) = (.ok script, l')) :
    l.serve (.deriveScript walletId) = l' := by
  show (l.run (deriveScript walletId >>= fun _ => pure ())).2 = l'
  rw [run_bind, h]
  rfl

/-- The next script of a wallet is committed, and then it is up to the service to track it. -/
theorem exists_run_deriveScript_eq {l : Ledger} (hs : WellFormed l.store) {walletId : String}
    {next : NextScript} (hnext : l.nextOf walletId = .ok next) :
    ∃ l' : Ledger, commit l.store (next.batch walletId) = .ok l'.store ∧ l'.chain = l.chain ∧
      l.run (deriveScript walletId) =
        l'.run (trackOnChain walletId next.script >>= fun _ => pure next.script) := by
  obtain ⟨hrun, hlearned⟩ := run_nextScript hs.sound walletId
  have hchain := (Offline.nextScript walletId).chain_eq l
  rw [hnext] at hrun
  obtain ⟨l₁, hl₁⟩ : ∃ l₁, l.run (nextScript walletId) = (.ok next, l₁) := ⟨_, Prod.ext hrun rfl⟩
  rw [hl₁] at hlearned hchain
  have hstore : l₁.store = l.store := hlearned.store
  obtain ⟨w, hw, -⟩ := isNext_of_nextOf hs.sound hnext
  obtain ⟨s, hcommit⟩ := NextScript.exists_commit_batch_eq_ok hs hw next
  refine ⟨{ l₁ with store := s }, hcommit, hchain, ?_⟩
  unfold deriveScript
  rw [run_bind, hl₁]
  dsimp only
  rw [run_bind, run_write, hstore, hcommit]

/-- As long as nobody watches the chain, the next script of a wallet can be derived. -/
theorem exists_run_deriveScript_eq_ok {l : Ledger} (hs : WellFormed l.store)
    (hchain : l.chain = none) {walletId : String} {next : NextScript}
    (hnext : l.nextOf walletId = .ok next) :
    ∃ l', l.run (deriveScript walletId) = (.ok next.script, l') := by
  obtain ⟨l', -, hchain', hrun⟩ := exists_run_deriveScript_eq hs hnext
  refine ⟨l', ?_⟩
  rw [hrun, trackOnChain]
  simp only [run_bind, run_get, hchain', hchain, run_pure]

end Ledger

/-- In the ledger of the examples a script can be derived. -/
theorem exists_nextOf_aliasLedger :
    ∃ id next, record? Wallet aliasLedger.store id = some (aliasWallet id) ∧
      aliasLedger.nextOf id = .ok next := by
  obtain ⟨id, hw, -⟩ := exists_wallet_aliasLedger
  have hs : Sound Wallet aliasLedger.store := reachable_aliasLedger.wellFormed.sound
  obtain ⟨master, hmaster, hdepth⟩ : ∃ master, masterKey zeroMnemonic aliasLedger.network =
      .ok master ∧ master.depth = 0 := by
    rw [masterKey, parse_zeroMnemonic]
    exact ⟨_, rfl, rfl⟩
  have hkeys : HasKeysOf aliasLedger.store (aliasWallet id) := ⟨aliasWallet id, hw, .refl _⟩
  obtain ⟨path, hpath, hlength⟩ : ∃ path, Path.parse? ((aliasWallet id).pathFor (toString 1)) =
      some path ∧ path.length = 5 := by
    refine ⟨[⟨84, true, by decide⟩, ⟨1, true, by decide⟩, ⟨0, true, by decide⟩,
      ⟨0, false, by decide⟩, ⟨1, false, by decide⟩], ?_, rfl⟩
    show Path.parse? (fill "m/84'/1'/0'/0/*" (toString 1)) = _
    decide
  have hmaster := (reachable_aliasLedger.informed.masterOf_eq hkeys).trans hmaster
  have hindex : (aliasWallet id).lastIndex.toNat + 1 < UInt32.size := by
    show 0 + 1 < UInt32.size
    decide
  obtain ⟨next, hnext⟩ := exists_nextOf_eq_ok hs hw hindex hmaster hpath (by omega)
  exact ⟨id, next, hw, hnext⟩

end CoinLedger
