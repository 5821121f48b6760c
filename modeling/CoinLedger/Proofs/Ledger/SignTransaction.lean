import CoinLedger.Proofs.Ledger.Steps

/-! # Signing for a wallet

A transaction of a wallet is signed with the keys at the paths of groups of coins: all groups when it
is built, and those with a coin that it spends when it is signed later.  Which groups these are makes
no difference to the key that a coin is signed with (`keyFor?_of_spendable`): a script has one path
among the scripts of a wallet, and if scripts are locked by the keys at their paths (`KeyedScripts`)
the keys of different groups unlock different scripts.

So every input is `SignedFor` its coin in the same way whenever it is signed, and
`run_signTransaction_eq_ok` says that a transaction whose inputs are comes back from signing whatever
witnesses were taken out of it. -/

namespace CoinLedger

open Ledger Key

/-! ### Keys of a wallet -/

/-- The scripts that are listed for the wallet with a path are locked by the keys at their paths. -/
def KeyedScripts (s : Store) (w : Wallet) : Prop :=
  ∀ row ∈ listedScripts s w.id, ∀ path, row.derivationPath = some path → w.Unlocks path row.script

/-- The input has the witness for a spendable coin of the wallet, made with the key of its script. -/
def SignedFor (s : Store) (w : Wallet) (parts : SighashParts) (input : TxIn) (c : Coin) : Prop :=
  ∃ path network key, Spendable s w.id path c ∧ w.keyAt network path = .ok key ∧
    key.script = c.script ∧ input.witness = SigningKeys.keyWitness parts input key c.value

section

variable {s : Store} {w : Wallet}

theorem KeyedScripts.unlocks (h : KeyedScripts s w) {path : String} {c : Coin}
    (hc : Spendable s w.id path c) : w.Unlocks path c.script := by
  obtain ⟨row, hrow, hscript, hpath⟩ := mem_of_pathOf? hc.path
  exact hscript ▸ h row hrow path hpath

/-- A coin is signed for in one way only. -/
theorem SignedFor.witness_eq {parts : SighashParts} {i i' : TxIn} {c : Coin}
    (h : SignedFor s w parts i c) (h' : SignedFor s w parts i' c)
    (hsame : i.unsigned = i'.unsigned) : i.witness = i'.witness := by
  obtain ⟨path, network, key, hc, hkey, -, hwitness⟩ := h
  obtain ⟨path', network', key', hc', hkey', -, hwitness'⟩ := h'
  obtain rfl : path = path' := Option.some.inj (hc.path.symm.trans hc'.path)
  -- the keys are the same up to the network, which no witness shows
  rw [w.keyAt_on network network', hkey] at hkey'
  obtain rfl : key.on network' = key' := Except.ok.inj hkey'
  rw [hwitness, hwitness']
  show SigningKeys.keyWitness parts i.unsigned key c.value =
    SigningKeys.keyWitness parts i'.unsigned key c.value
  rw [hsame]

/-! ### Keys of groups -/

/-- Of groups whose keys were added the last one with the key for a script counts. -/
theorem keyFor?_of_addGroupKeys {master : ExtendedKey} (script : Script) :
    ∀ {groups : List CoinGroup} {known keys : SigningKeys},
      addGroupKeys master known groups = .ok keys →
      (∃ g ∈ groups, ∃ key, DerivedKey.derive master g.path = .ok key ∧ key.script = script ∧
          keys.keyFor? script = some key) ∨
        (∀ g ∈ groups, ∀ key, DerivedKey.derive master g.path = .ok key → key.script ≠ script) ∧
          keys.keyFor? script = known.keyFor? script
  | [], known, keys, h => by
      obtain rfl : known = keys := Except.ok.inj h
      exact .inr ⟨nofun, rfl⟩
  | g :: groups, known, keys, h => by
      obtain ⟨_, hfirst, hrest⟩ := foldlM_ok h
      obtain ⟨key, hkey, rfl⟩ := map_ok hfirst
      rcases keyFor?_of_addGroupKeys script hrest with ⟨g', hg', hfound⟩ | ⟨hnone, hknown⟩
      · exact .inl ⟨g', List.mem_cons_of_mem _ hg', hfound⟩
      · rw [SigningKeys.keyFor?_add] at hknown
        by_cases hscript : key.script = script
        · rw [if_pos hscript] at hknown
          exact .inl ⟨g, List.mem_cons_self, key, hkey, hscript, hknown⟩
        · rw [if_neg hscript] at hknown
          refine .inr ⟨List.forall_mem_cons.2 ⟨?_, hnone⟩, hknown⟩
          intro key' hkey'
          obtain rfl : key = key' := Except.ok.inj (hkey.symm.trans hkey')
          exact hscript

theorem exists_addGroupKeys_eq_ok {master : ExtendedKey} {groups : List CoinGroup}
    (h : ∀ g ∈ groups, ∃ key, DerivedKey.derive master g.path = .ok key) (known : SigningKeys) :
    ∃ keys, addGroupKeys master known groups = .ok keys := by
  induction groups generalizing known with
  | nil => exact ⟨known, rfl⟩
  | cons g groups ih =>
      obtain ⟨key, hkey⟩ := h g List.mem_cons_self
      obtain ⟨keys, hkeys⟩ := ih (fun g' hg' => h g' (List.mem_cons_of_mem _ hg')) (known.add key)
      refine ⟨keys, ?_⟩
      rw [addGroupKeys, List.foldlM_cons, hkey]
      exact hkeys

/-- The groups have spendable coins of the wallet, each of them at least one. -/
def Groups (s : Store) (walletId : String) (groups : List CoinGroup) : Prop :=
  ∀ g ∈ groups, g.coins ≠ [] ∧ ∀ c ∈ g.coins, Spendable s walletId g.path c

theorem GroupsOf.groups {walletId : String} {groups : List CoinGroup}
    (h : GroupsOf s walletId groups) : Groups s walletId groups := fun g hg =>
  ⟨h.nonempty g hg, fun c hc => (h.mem g.path c).1 ⟨g, hg, rfl, hc⟩⟩

variable {network : Network} {master : ExtendedKey} {groups : List CoinGroup} {keys : SigningKeys}

theorem keyAt_eq_derive (hmaster : masterKey w.mnemonic network = .ok master) (path : String) :
    w.keyAt network path = DerivedKey.derive master path := by
  rw [Wallet.keyAt, hmaster, ok_bind]

/-- The keys of groups are known. -/
theorem Groups.exists_addGroupKeys_eq_ok (hgroups : Groups s w.id groups)
    (hkeyed : KeyedScripts s w) (hmaster : masterKey w.mnemonic network = .ok master)
    (known : SigningKeys) : ∃ keys, addGroupKeys master known groups = .ok keys := by
  refine CoinLedger.exists_addGroupKeys_eq_ok (fun g hg => ?_) known
  obtain ⟨hnonempty, hcoins⟩ := hgroups g hg
  obtain ⟨c, hc⟩ := List.exists_mem_of_ne_nil _ hnonempty
  obtain ⟨key, hkey, -⟩ := (hkeyed.unlocks (hcoins c hc)).exists_keyAt network
  exact ⟨key, keyAt_eq_derive hmaster g.path ▸ hkey⟩

/-- The key of a coin is the one at the path of its group. -/
theorem keyFor?_of_spendable (hkeyed : KeyedScripts s w)
    (hmaster : masterKey w.mnemonic network = .ok master) (hgroups : Groups s w.id groups)
    (hkeys : addGroupKeys master .empty groups = .ok keys) {g : CoinGroup} (hg : g ∈ groups)
    {c : Coin} (hc : c ∈ g.coins) :
    ∃ key, w.keyAt network g.path = .ok key ∧ key.script = c.script ∧
      keys.keyFor? c.script = some key := by
  have hspendable := (hgroups g hg).2 c hc
  obtain ⟨key, hkey, hscript⟩ := (hkeyed.unlocks hspendable).exists_keyAt network
  have hderive := keyAt_eq_derive hmaster g.path
  refine ⟨key, hkey, hscript, ?_⟩
  rcases keyFor?_of_addGroupKeys c.script hkeys with ⟨g', hg', key', hkey', hscript', hfound⟩ | ⟨hnone, -⟩
  · -- the other group has a coin, whose script the key unlocks as well
    obtain ⟨hnonempty, hcoins⟩ := hgroups g' hg'
    obtain ⟨c', hc'⟩ := List.exists_mem_of_ne_nil _ hnonempty
    have hspendable' := hcoins c' hc'
    obtain ⟨key'', hkey'', hscript''⟩ := (hkeyed.unlocks hspendable').exists_keyAt network
    obtain rfl : key'' = key' := by
      rw [keyAt_eq_derive hmaster, hkey'] at hkey''
      exact (Except.ok.inj hkey'').symm
    have hpath : g'.path = g.path := by
      have hpath' := hspendable'.path
      rw [← hscript'', hscript', hspendable.path] at hpath'
      exact (Option.some.inj hpath').symm
    rw [hfound]
    rw [hpath, ← hderive, hkey] at hkey'
    exact congrArg some (Except.ok.inj hkey').symm
  · exact absurd hscript (hnone g hg key (hderive ▸ hkey))

/-- With the keys of groups all inputs that spend coins of the groups are signed. -/
theorem signedFor_of_sign (hkeyed : KeyedScripts s w)
    (hmaster : masterKey w.mnemonic network = .ok master) (hgroups : Groups s w.id groups)
    (hkeys : addGroupKeys master .empty groups = .ok keys) {prevouts : List Utxo}
    (hnodup : (prevouts.map (·.outpoint)).Nodup)
    (hprevouts : ∀ u ∈ prevouts, ∃ c ∈ groupCoins groups, c.utxo = u) {tx : Transaction}
    (hinputs : ∀ i ∈ tx.inputs, i.previous ∈ prevouts.map (·.outpoint))
    {signed : Transaction × Nat} (hsign : keys.sign tx prevouts = .ok signed) :
    ∀ i ∈ signed.1.inputs, ∃ c, c.utxo ∈ prevouts ∧ i.previous = c.outpoint ∧
      SignedFor s w (.ofTransaction signed.1) i c := by
  have hparts : SighashParts.ofTransaction signed.1 = .ofTransaction tx := by
    rw [← SighashParts.ofTransaction_unsigned, SigningKeys.unsigned_sign hsign,
      SighashParts.ofTransaction_unsigned]
  obtain ⟨count, hsigned⟩ := keys.sign_eq tx prevouts
  obtain rfl := Except.ok.inj (hsigned.symm.trans hsign)
  intro i hi
  obtain ⟨input, hinput, rfl⟩ := List.mem_map.1 hi
  obtain ⟨u, hu, hprevious⟩ := List.mem_map.1 (hinputs input hinput)
  obtain ⟨c, hc, rfl⟩ := hprevouts u hu
  obtain ⟨g, hg, hcg⟩ := List.mem_flatMap.1 hc
  obtain ⟨key, hkey, hscript, hfound⟩ := keyFor?_of_spendable hkeyed hmaster hgroups hkeys hg hcg
  have hsigner : keys.signerOf? prevouts input = some (key, c.txout) :=
    SigningKeys.signerOf?_eq_some hnodup hu hprevious.symm hfound
  have hsignedInput : (keys.signedInput prevouts (.ofTransaction tx) input).1 =
      { input with witness := SigningKeys.keyWitness (.ofTransaction tx) input key c.value } := by
    rw [SigningKeys.signedInput, hsigner]
    rfl
  simp only [hsignedInput]
  refine ⟨c, hu, hprevious.symm, g.path, network, key, (hgroups g hg).2 c hcg, hkey, hscript, ?_⟩
  rw [hparts]
  rfl

end

/-! ### Signing again -/

theorem Groups.groupsSpentBy {s : Store} {walletId : String} {groups : List CoinGroup}
    (h : Groups s walletId groups) (tx : Transaction) :
    Groups s walletId (groupsSpentBy groups tx) := by
  intro g hg
  obtain ⟨hg, hnonempty⟩ := List.mem_filter.1 hg
  obtain ⟨g₀, hg₀, rfl⟩ := List.mem_map.1 hg
  exact ⟨by simpa using hnonempty, fun c hc => (h g₀ hg₀).2 c (List.mem_filter.1 hc).1⟩

/-- The groups that a transaction spends coins of have just the coins that it spends. -/
theorem groupCoins_groupsSpentBy (groups : List CoinGroup) (tx : Transaction) :
    groupCoins (groupsSpentBy groups tx) =
      (groupCoins groups).filter fun c => tx.inputs.any fun i => i.previous == c.outpoint := by
  unfold groupsSpentBy groupCoins
  induction groups with
  | nil => rfl
  | cons g groups ih =>
      rw [List.map_cons, List.flatMap_cons, List.filter_append, ← ih, List.filter_cons]
      split
      · rw [List.flatMap_cons]
      · rename_i hempty
        have hnil : (g.coins.filter fun c => tx.inputs.any fun i => i.previous == c.outpoint) = [] := by
          simpa using hempty
        rw [hnil, List.nil_append]

namespace Ledger

variable {l : Ledger} {w : Wallet}

/-- A wallet's master key does not depend on what a ledger remembers. -/
theorem exists_run_masterKeyOf (hl : Informed l) (hw : HasKeysOf l.store w) {master : ExtendedKey}
    (hmaster : masterKey w.mnemonic l.network = .ok master) :
    ∃ l', l.run (masterKeyOf w) = (.ok master, l') ∧ l'.store = l.store := by
  have hresult : (l.run (masterKeyOf w)).1 = .ok master := by
    rw [(run_masterKeyOf l w).1, hl.masterOf_eq hw, hmaster]
  exact ⟨_, Prod.ext hresult rfl, Keeps.masterKeyOf w l⟩

/-- What happens when a transaction is signed. -/
theorem exists_run_signTransaction (hl : Reachable l) (hw : HasKeysOf l.store w)
    (hkeyed : KeyedScripts l.store w) {master : ExtendedKey}
    (hmaster : masterKey w.mnemonic l.network = .ok master) (t : Transaction) :
    ∃ groups keys signed, GroupsOf l.store w.id groups ∧
      addGroupKeys master .empty (groupsSpentBy groups t) = .ok keys ∧
      keys.sign t ((groupCoins (groupsSpentBy groups t)).map (·.utxo)) = .ok signed ∧
      (l.run (signTransaction w.id t)).1 = .ok signed.1 := by
  have hs := hl.wellFormed
  obtain ⟨stored, hstored, hsame⟩ := hw
  have hrequire : requireWallet l.store w.id = .ok stored := by
    rw [requireWallet_eq hs.sound, hstored]
  obtain ⟨l', hrun, hstore⟩ := exists_run_masterKeyOf (w := stored) hl.informed
    ⟨stored, by rw [hsame.id, hstored], .refl stored⟩ (hsame.mnemonic ▸ hmaster)
  obtain ⟨groups, hgroups, hof⟩ := exists_groupsOf hs w.id
  obtain ⟨keys, hkeys⟩ :=
    (hof.groups.groupsSpentBy t).exists_addGroupKeys_eq_ok hkeyed hmaster .empty
  obtain ⟨signed, hsign⟩ :=
    keys.exists_sign_eq_ok t ((groupCoins (groupsSpentBy groups t)).map (·.utxo))
  refine ⟨groups, keys, signed, hof, hkeys, hsign, ?_⟩
  unfold signTransaction
  simp only [run_bind, run_read, hrequire, hrun, hstore, hgroups, run_check, hkeys, hsign, run_pure]

/-- Signing a transaction whose inputs are signed for coins of the wallet gives this transaction, and
so does signing what is left of it without some of its witnesses. -/
theorem run_signTransaction_eq_ok (hl : Reachable l) (hw : HasKeysOf l.store w)
    (hkeyed : KeyedScripts l.store w) {network : Network} {master : ExtendedKey}
    (hmaster : masterKey w.mnemonic network = .ok master) {tx t : Transaction}
    (hsigned : ∀ i ∈ tx.inputs, ∃ c, i.previous = c.outpoint ∧
      SignedFor l.store w (.ofTransaction tx) i c)
    (ht : t.unsigned = tx.unsigned) : (l.run (signTransaction w.id t)).1 = .ok tx := by
  have hmaster' : masterKey w.mnemonic l.network = .ok (master.on l.network) := by
    rw [masterKey_on w.mnemonic network, hmaster]
    rfl
  obtain ⟨groups, keys, signed, hof, hkeys, hsign, hrun⟩ :=
    exists_run_signTransaction hl hw hkeyed hmaster' t
  rw [hrun]
  set prevouts := (groupCoins (groupsSpentBy groups t)).map Coin.utxo with hprevouts
  have hnodup : (prevouts.map (·.outpoint)).Nodup := by
    rw [hprevouts, List.map_map, groupCoins_groupsSpentBy]
    exact hof.nodup.sublist (List.filter_sublist.map _)
  have hinputs : ∀ i ∈ t.inputs, i.previous ∈ prevouts.map (·.outpoint) := by
    intro i hi
    -- the input is one of the signed transaction, up to its witness, and so spends a coin
    have hmem : i.unsigned ∈ tx.inputs.map TxIn.unsigned := by
      have hmaps : t.inputs.map TxIn.unsigned = tx.inputs.map TxIn.unsigned :=
        congrArg Transaction.inputs ht
      rw [← hmaps]
      exact List.mem_map_of_mem hi
    obtain ⟨i', hi', heq⟩ := List.mem_map.1 hmem
    have hprevious : i'.previous = i.previous := TxIn.previous_eq_of_unsigned heq
    obtain ⟨c, hc, path, _, _, hspendable, -⟩ := hsigned i' hi'
    obtain ⟨g, hg, -, hcg⟩ := (hof.mem path c).2 hspendable
    rw [hprevouts, List.map_map, groupCoins_groupsSpentBy]
    refine List.mem_map.2 ⟨c, List.mem_filter.2 ⟨List.mem_flatMap.2 ⟨g, hg, hcg⟩, ?_⟩, ?_⟩
    · exact List.any_eq_true.2 ⟨i, hi, by simp [← hprevious, hc]⟩
    · exact hc.symm.trans hprevious
  have hresigned := signedFor_of_sign hkeyed hmaster' (hof.groups.groupsSpentBy t) hkeys hnodup
    (fun u hu => List.mem_map.1 hu) hinputs hsign
  have hunsigned : signed.1.unsigned = tx.unsigned := (SigningKeys.unsigned_sign hsign).trans ht
  have hparts : SighashParts.ofTransaction signed.1 = .ofTransaction tx := by
    rw [← SighashParts.ofTransaction_unsigned, hunsigned, SighashParts.ofTransaction_unsigned]
  refine congrArg Except.ok (Transaction.eq_of_unsigned hunsigned fun i hi i' hi' hsame => ?_)
  obtain ⟨c, -, hc, hfor⟩ := hresigned i hi
  obtain ⟨c', hc', hfor'⟩ := hsigned i' hi'
  have hprevious : i.previous = i'.previous := TxIn.previous_eq_of_unsigned hsame
  obtain rfl : c = c' := by
    obtain ⟨_, _, _, hspendable, -⟩ := hfor
    obtain ⟨_, _, _, hspendable', -⟩ := hfor'
    have hstored := hspendable.stored
    rw [← hc, hprevious, hc', hspendable'.stored] at hstored
    exact (Option.some.inj hstored).symm
  exact (hparts ▸ hfor).witness_eq hfor' hsame

end Ledger

end CoinLedger
