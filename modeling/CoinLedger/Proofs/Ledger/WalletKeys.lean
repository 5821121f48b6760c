import CoinLedger.Proofs.Ledger.Requests
import CoinLedger.Proofs.Ledger.Tables

/-! # The keys of wallets

What a wallet can unlock is decided when it is made.  Its key at a path is `Wallet.keyAt`, which
depends on its mnemonic only; the network that a ledger is opened for is written into keys, but
changes neither a secret nor a script, so `Wallet.Unlocks` need not name one
(`Wallet.Unlocks.exists_keyAt`).

Operations keep the mnemonic and the template of a stored wallet, and only add to it
(`exists_onWallet_eq_some`).  `Informed` says that the master keys which a ledger remembers are those
of its wallets, and `Extends` what holds between a ledger and one that comes of it by adding wallets
and their keys. -/

namespace CoinLedger

open Ledger

/-! ### Keys and networks -/

namespace Key

/-- The same key, written for another network. -/
def ExtendedKey.on (network : Network) (k : ExtendedKey) : ExtendedKey := { k with network := network }

/-- The same key, written for another network. -/
def DerivedKey.on (network : Network) (k : DerivedKey) : DerivedKey := { k with network := network }

@[simp] theorem DerivedKey.script_on (network : Network) (k : DerivedKey) :
    (k.on network).script = k.script := rfl

theorem ExtendedKey.descend_on (network : Network) :
    ∀ (path : Path) (k : ExtendedKey),
      (k.on network).descend path = (k.descend path).map (on network)
  | [], _ => rfl
  | step :: path, k => by
      have hchild : (k.on network).child step = (k.child step).map (on network) := by
        have hdepth : (k.on network).depth = k.depth := rfl
        unfold child
        rw [hdepth]
        split <;> rfl
      rw [descend, descend, hchild]
      cases k.child step with
      | error e => rfl
      | ok next => exact descend_on network path next

theorem DerivedKey.derive_on (network : Network) (master : ExtendedKey) (path : String) :
    derive (master.on network) path = (derive master path).map (on network) := by
  unfold derive
  cases parsePath path with
  | error e => rfl
  | ok steps =>
      simp only [ok_bind, ExtendedKey.descend_on]
      cases master.descend steps <;> rfl

theorem masterKey_on (mnemonic : String) (network network' : Network) :
    masterKey mnemonic network' = (masterKey mnemonic network).map (ExtendedKey.on network') := by
  unfold masterKey
  cases Mnemonic.parse mnemonic <;> rfl

end Key

open Key

namespace Wallet

/-- The key of the wallet at a path. -/
def keyAt (w : Wallet) (network : Network) (path : String) : Except Error DerivedKey := do
  let master ← masterKey w.mnemonic network
  DerivedKey.derive master path

/-- The key of the wallet at this path unlocks the script. -/
def Unlocks (w : Wallet) (path : String) (script : Script) : Prop :=
  ∃ network key, w.keyAt network path = .ok key ∧ key.script = script

variable {w w' w'' : Wallet} {path : String} {script : Script}

theorem keyAt_on (w : Wallet) (network network' : Network) (path : String) :
    w.keyAt network' path = (w.keyAt network path).map (DerivedKey.on network') := by
  unfold keyAt
  rw [masterKey_on w.mnemonic network network']
  cases masterKey w.mnemonic network with
  | error e => rfl
  | ok master => exact DerivedKey.derive_on network' master path

/-- What a key unlocks does not depend on the network. -/
theorem Unlocks.exists_keyAt (h : w.Unlocks path script) (network : Network) :
    ∃ key, w.keyAt network path = .ok key ∧ key.script = script := by
  obtain ⟨network', key, hkey, hscript⟩ := h
  exact ⟨key.on network, by rw [keyAt_on w network' network, hkey]; rfl, hscript⟩

theorem Unlocks.length_script (h : w.Unlocks path script) : script.bytes.length = 22 := by
  obtain ⟨network, key, -, rfl⟩ := h
  simp [DerivedKey.script, Script.ofPublicKey]

/-- The second wallet has the keys and the template of the first one. -/
structure SameKeys (w w' : Wallet) : Prop where
  id : w'.id = w.id
  mnemonic : w'.mnemonic = w.mnemonic
  derivationPath : w'.derivationPath = w.derivationPath

theorem SameKeys.refl (w : Wallet) : SameKeys w w := ⟨rfl, rfl, rfl⟩

theorem SameKeys.trans (h : SameKeys w w') (h' : SameKeys w' w'') : SameKeys w w'' :=
  ⟨h'.id.trans h.id, h'.mnemonic.trans h.mnemonic, h'.derivationPath.trans h.derivationPath⟩

theorem SameKeys.keyAt_eq (h : SameKeys w w') (network : Network) (path : String) :
    w'.keyAt network path = w.keyAt network path := by rw [keyAt, h.mnemonic, keyAt]

theorem SameKeys.unlocks_iff (h : SameKeys w w') : w'.Unlocks path script ↔ w.Unlocks path script := by
  simp only [Unlocks, h.keyAt_eq]

/-- The second wallet is the first one after more scripts and aliases. -/
structure Grows (w w' : Wallet) : Prop extends SameKeys w w' where
  name : w'.name = w.name
  creationBlock : w'.creationBlock = w.creationBlock
  lastIndex : w.lastIndex ≤ w'.lastIndex
  aliases : w.aliases <+: w'.aliases

theorem Grows.refl (w : Wallet) : Grows w w where
  toSameKeys := .refl w
  name := rfl
  creationBlock := rfl
  lastIndex := UInt32.le_refl _
  aliases := List.prefix_refl _

theorem Grows.trans (h : Grows w w') (h' : Grows w' w'') : Grows w w'' where
  toSameKeys := h.toSameKeys.trans h'.toSameKeys
  name := h'.name.trans h.name
  creationBlock := h'.creationBlock.trans h.creationBlock
  lastIndex := UInt32.le_trans h.lastIndex h'.lastIndex
  aliases := h.aliases.trans h'.aliases

end Wallet

/-! ### The table of wallets -/

namespace Operation

/-- What an operation that is carried out makes of the wallet with this id. -/
def onWallet (id : String) : Operation → Option Wallet → Option Wallet
  | insertWallet w, found => if w.id = id then found.or (some w) else found
  | raiseIndex walletId index, found =>
      if walletId = id then
        found.map fun w => if w.lastIndex < index then { w with lastIndex := index } else w
      else found
  | addAliases walletId aliases, found =>
      if walletId = id then
        found.map fun w =>
          let merged := mergeAliases w.aliases aliases
          if merged.length ≠ w.aliases.length then { w with aliases := merged } else w
      else found
  | _, found => found

theorem record?_reviseEntity_raisedIndex {s s' : Store} (hs : Sound Wallet s) {walletId : String}
    {index : UInt32} (h : reviseEntity Wallet s walletId (raisedIndex walletId index) = .ok s')
    (id : String) :
    record? Wallet s' id = (raiseIndex walletId index).onWallet id (record? Wallet s id) := by
  have hkey : ∀ a, raisedIndex walletId index (record? Wallet s walletId) = .ok (some a) →
      a.id = walletId := by
    intro a ha
    obtain ⟨known, hknown, hid⟩ := raisedIndex_ok ha
    exact hid.trans (hs.key_eq hknown)
  obtain ⟨-, made, hmade, hrecord⟩ := hs.reviseEntity hkey h
  rw [hrecord, onWallet]
  by_cases hid : walletId = id
  · subst hid
    rw [if_pos rfl, if_pos rfl]
    cases hw : record? Wallet s walletId with
    | none =>
        rw [hw] at hmade
        cases hmade
    | some w =>
        rw [hw, raisedIndex] at hmade
        rw [← Except.ok.inj hmade]
        split <;> simp [*]
  · rw [if_neg hid, if_neg hid]

theorem record?_reviseEntity_mergedAliases {s s' : Store} (hs : Sound Wallet s)
    {walletId : String} {aliases : List String}
    (h : reviseEntity Wallet s walletId (mergedAliases walletId aliases) = .ok s') (id : String) :
    record? Wallet s' id = (addAliases walletId aliases).onWallet id (record? Wallet s id) := by
  have hkey : ∀ a, mergedAliases walletId aliases (record? Wallet s walletId) = .ok (some a) →
      a.id = walletId := by
    intro a ha
    obtain ⟨known, hknown, hid⟩ := mergedAliases_ok ha
    exact hid.trans (hs.key_eq hknown)
  obtain ⟨-, made, hmade, hrecord⟩ := hs.reviseEntity hkey h
  rw [hrecord, onWallet]
  by_cases hid : walletId = id
  · subst hid
    rw [if_pos rfl, if_pos rfl]
    cases hw : record? Wallet s walletId with
    | none =>
        rw [hw] at hmade
        cases hmade
    | some w =>
        rw [hw, mergedAliases] at hmade
        rw [← Except.ok.inj hmade]
        split <;> simp [*]
  · rw [if_neg hid, if_neg hid]

theorem record?_reviseEntity_newWallet {s s' : Store} (hs : Sound Wallet s) {w : Wallet}
    (h : reviseEntity Wallet s w.id (newWallet w) = .ok s') (id : String) :
    record? Wallet s' id = (insertWallet w).onWallet id (record? Wallet s id) := by
  have hkey : ∀ a, newWallet w (record? Wallet s w.id) = .ok (some a) → a.id = w.id := by
    intro a ha
    rw [newWallet_ok ha]
  obtain ⟨-, made, hmade, hrecord⟩ := hs.reviseEntity hkey h
  rw [hrecord, onWallet]
  by_cases hid : w.id = id
  · subst hid
    rw [if_pos rfl, if_pos rfl]
    cases hw : record? Wallet s w.id with
    | none =>
        rw [hw] at hmade
        rw [← Except.ok.inj hmade]
        rfl
    | some w' =>
        rw [hw] at hmade
        cases hmade
  · rw [if_neg hid, if_neg hid]

end Operation

instance : Pointwise Wallet where
  on := Operation.onWallet
  on_of_notMem_writes {op} hop id found := by
    cases op with
    | insertWallet _ | raiseIndex _ _ | addAliases _ _ =>
        simp [Operation.writes, Entity.kind] at hop
    | _ => rfl
  record?_of_mem_writes {s s' op} hs hop h id := by
    cases op with
    | insertWallet w => exact Operation.record?_reviseEntity_newWallet hs h id
    | raiseIndex walletId index => exact Operation.record?_reviseEntity_raisedIndex hs h id
    | addAliases walletId aliases => exact Operation.record?_reviseEntity_mergedAliases hs h id
    | _ => simp [Operation.writes, Entity.kind] at hop

theorem prefix_mergeAliases (old : List String) :
    ∀ new : List String, old <+: mergeAliases old new
  | [] => List.prefix_refl old
  | a :: new => by
      have hstep : old <+: if old.contains a then old else old ++ [a] := by
        split
        · exact List.prefix_refl old
        · exact List.prefix_append old [a]
      exact hstep.trans (prefix_mergeAliases _ new)

/-- Operations leave a stored wallet where it is, and it only grows. -/
theorem exists_onWallet_eq_some (id : String) (op : Operation) (w : Wallet) :
    ∃ w', op.onWallet id (some w) = some w' ∧ w.Grows w' := by
  cases op with
  | insertWallet new =>
      by_cases hid : new.id = id
      · exact ⟨w, if_pos hid, .refl w⟩
      · exact ⟨w, if_neg hid, .refl w⟩
  | raiseIndex walletId index =>
      by_cases hid : walletId = id
      · refine ⟨_, if_pos hid, ?_⟩
        dsimp only
        split
        · rename_i hlt
          exact { Wallet.Grows.refl w with lastIndex := UInt32.le_of_lt hlt }
        · exact .refl w
      · exact ⟨w, if_neg hid, .refl w⟩
  | addAliases walletId aliases =>
      by_cases hid : walletId = id
      · refine ⟨_, if_pos hid, ?_⟩
        dsimp only
        split
        · exact { Wallet.Grows.refl w with aliases := prefix_mergeAliases w.aliases aliases }
        · exact .refl w
      · exact ⟨w, if_neg hid, .refl w⟩
  | _ => exact ⟨w, rfl, .refl w⟩

theorem exists_onAll_wallet_eq_some (id : String) (batch : Batch) (w : Wallet) :
    ∃ w', Pointwise.onAll id batch (some w) = some w' ∧ w.Grows w' :=
  Pointwise.exists_onAll_eq_some .refl .trans (exists_onWallet_eq_some id) batch w

/-- The wallets of the first store are wallets of the second one, with the same keys. -/
def KeepsWallets (s s' : Store) : Prop :=
  ∀ id w, record? Wallet s id = some w → ∃ w', record? Wallet s' id = some w' ∧ w.SameKeys w'

theorem KeepsWallets.refl (s : Store) : KeepsWallets s s := fun _ w hw => ⟨w, hw, .refl w⟩

theorem KeepsWallets.trans {s s' s'' : Store} (h : KeepsWallets s s') (h' : KeepsWallets s' s'') :
    KeepsWallets s s'' := by
  intro id w hw
  obtain ⟨w', hw', hsame⟩ := h id w hw
  obtain ⟨w'', hw'', hsame'⟩ := h' id w' hw'
  exact ⟨w'', hw'', hsame.trans hsame'⟩

theorem keepsWallets_of_commit {s s' : Store} (hs : Sound Wallet s) {batch : Batch}
    (h : commit s batch = .ok s') : KeepsWallets s s' := by
  intro id w hw
  rw [Pointwise.record?_commit hs h, hw]
  obtain ⟨w', hw', hgrows⟩ := exists_onAll_wallet_eq_some id batch w
  exact ⟨w', hw', hgrows.toSameKeys⟩

/-! ### Master keys -/

namespace Ledger

/-- The master keys that a ledger remembers are those of its wallets. -/
def Informed (l : Ledger) : Prop :=
  ∀ e ∈ l.masterKeys, ∃ w, record? Wallet l.store e.1 = some w ∧
    masterKey w.mnemonic l.network = .ok e.2

/-- The wallet, or one with its keys, is stored. -/
def HasKeysOf (s : Store) (w : Wallet) : Prop :=
  ∃ stored, record? Wallet s w.id = some stored ∧ w.SameKeys stored

theorem Informed.masterOf_eq {l : Ledger} (h : Informed l) {w : Wallet}
    (hw : HasKeysOf l.store w) : l.masterOf w = masterKey w.mnemonic l.network := by
  unfold masterOf
  cases hlookup : l.masterKeys.lookup w.id with
  | none => rfl
  | some master =>
      obtain ⟨before, behind, hentries, -⟩ := List.lookup_eq_some_iff.1 hlookup
      obtain ⟨w', hw', hmaster⟩ := h (w.id, master) (by simp [hentries])
      obtain ⟨stored, hstored, hsame⟩ := hw
      obtain rfl : stored = w' := Option.some.inj (hstored.symm.trans hw')
      rw [← hsame.mnemonic, hmaster]

theorem HasKeysOf.keeps {s s' : Store} {w : Wallet} (hw : HasKeysOf s w) (h : KeepsWallets s s') :
    HasKeysOf s' w := by
  obtain ⟨stored, hstored, hsame⟩ := hw
  obtain ⟨stored', hstored', hsame'⟩ := h w.id stored hstored
  exact ⟨stored', hstored', hsame.trans hsame'⟩

theorem hasKeysOf_of_requireWallet {s : Store} (hs : Sound Wallet s) {walletId : String}
    {w : Wallet} (h : requireWallet s walletId = .ok w) : HasKeysOf s w := by
  have hw := record?_of_requireWallet hs h
  have hid : w.id = walletId := hs.key_eq hw
  exact ⟨w, hid ▸ hw, .refl w⟩

/-- Between these ledgers wallets and what is known about them were only added. -/
structure Extends (l l' : Ledger) : Prop where
  sound : Sound Wallet l'.store
  network : l'.network = l.network
  wallets : KeepsWallets l.store l'.store
  informed : Informed l → Informed l'

namespace Extends

variable {l l' l'' : Ledger}

theorem trans (h : Extends l l') (h' : Extends l' l'') : Extends l l'' where
  sound := h'.sound
  network := h'.network.trans h.network
  wallets := h.wallets.trans h'.wallets
  informed hl := h'.informed (h.informed hl)

/-- No master key is added. -/
theorem of_masterKeys_eq (hs : Sound Wallet l'.store) (hnetwork : l'.network = l.network)
    (hwallets : KeepsWallets l.store l'.store) (hkeys : l'.masterKeys = l.masterKeys) :
    Extends l l' where
  sound := hs
  network := hnetwork
  wallets := hwallets
  informed hl e he := by
    obtain ⟨w, hw, hmaster⟩ := hl e (hkeys ▸ he)
    obtain ⟨w', hw', hsame⟩ := hwallets e.1 w hw
    exact ⟨w', hw', by rw [hsame.mnemonic, hnetwork, hmaster]⟩

theorem refl (hs : Sound Wallet l.store) : Extends l l :=
  of_masterKeys_eq hs rfl (.refl l.store) rfl

end Extends

/-- A wallet that was made is stored. -/
theorem record?_of_run_insertWallet {l l' : Ledger} (hs : Sound Wallet l.store) {w : Wallet}
    (h : l.run (Ledger.write [.insertWallet w]) = (.ok (), l')) :
    record? Wallet l'.store w.id = some w := by
  obtain ⟨s, hcommit, rfl⟩ := run_write_ok h
  rw [commit_singleton] at hcommit
  obtain ⟨-, made, hmade, hrecord⟩ := hs.reviseEntity
    (fun a ha => by rw [Operation.newWallet_ok ha]; rfl) hcommit
  cases made with
  | none => cases hfound : record? Wallet l.store w.id <;> rw [hfound] at hmade <;> cases hmade
  | some a => rw [hrecord, if_pos rfl, Operation.newWallet_ok hmade, Option.some_or]

end Ledger

end CoinLedger
