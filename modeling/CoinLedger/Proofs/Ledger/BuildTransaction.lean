import CoinLedger.Proofs.Funding.Conservation
import CoinLedger.Proofs.Ledger.DerivedScripts
import CoinLedger.Proofs.Ledger.SignTransaction

/-! # Building for a wallet

Building a transaction derives a script for the change, lists the coins that the wallet can spend,
and hands a builder to `TxBuilder.finish`.  `run_buildTransaction_ok` takes the run apart, and
`finish_signs` says what is made of the builder.  In the other direction a wallet with a next script
builds what its coins can pay (`exists_run_buildTransaction`, `exists_payFromAll_eq_ok`).

Without explicit inputs all coins of the wallet are offered, and which of them are chosen may depend on
the order in which they stand (`CoinOrder`).  In any order the transaction spends some of them, each
once, and all inputs are signed.  `SpendsCoins` says so of a transaction and a list of coins, and
`signed_of_buildTransaction` is the result, together with the balance, and with the signatures being
the ones that are made when the transaction is signed again. -/

namespace CoinLedger

open Ledger Key

/-! ### What a builder makes -/

namespace TxBuilder

/-- What was built of a builder, and signed. -/
structure Signs (b : TxBuilder) (taken : List WeightedUtxo) (built : BuiltTransaction) : Prop where
  optional : taken.Subperm b.maySpend
  spent : built.spent = (b.mustSpend ++ taken).map (·.utxo)
  signed : ∃ tx signed, b.signingKeys.sign tx built.spent = .ok signed ∧
    built.transaction = signed.1 ∧ tx.inputs.map (·.previous) = built.spent.map (·.outpoint)
  /-- What the coins are worth goes to the outputs and to the fee, as sums that wrap around. -/
  modEq : coinsValue built.spent ≡
    outputsValue built.transaction.outputs + built.fee.toNat [MOD UInt64.size]
  balanced : b.Fits →
    coinsValue built.spent = outputsValue built.transaction.outputs + built.fee.toNat

theorem Signs.previous {b : TxBuilder} {taken : List WeightedUtxo} {built : BuiltTransaction}
    (h : Signs b taken built) :
    built.transaction.inputs.map (·.previous) = built.spent.map (·.outpoint) := by
  obtain ⟨tx, signed, hsign, hsigned, hprevious⟩ := h.signed
  rw [hsigned, SigningKeys.previous_sign hsign, hprevious]

theorem finish_signs {b : TxBuilder} {sort : FallingSort} {built : BuiltTransaction}
    (hselector : b.selector = largestFirstBy sort) (h : b.finish = .ok built) :
    ∃ taken, Signs b taken built := by
  obtain ⟨taken, selection, signed, hchosen, hsigned, rfl, hconserves, -⟩ :=
    finish_chosen hselector h
  have hspent := spent_assemble b selection
  have houtputs : signed.1.outputs = (b.assemble selection).transaction.outputs :=
    SigningKeys.outputs_sign hsigned
  refine ⟨taken, ⟨?_, ?_, ?_, ?_, fun hfits => ((hconserves hfits).sign hsigned).balanced⟩⟩
  · exact hchosen.optional.sublist.subperm.trans (sort.fallingOrder b.maySpend).perm.subperm
  · exact hspent.trans hchosen.selected
  · refine ⟨(b.assemble selection).transaction, signed, hspent.symm ▸ hsigned, rfl, ?_⟩
    rw [previous_assemble, hspent]
  · simp only [houtputs]
    exact hchosen.modEq

end TxBuilder

namespace Ledger

/-- Coins with different outpoints are all the last ones of theirs. -/
theorem lastByOutpoint_eq_self : ∀ {coins : List Coin}, (coins.map (·.outpoint)).Nodup →
    lastByOutpoint coins = coins
  | [], _ => rfl
  | c :: cs, h => by
      obtain ⟨hfirst, hrest⟩ := List.nodup_cons.1 h
      have hany : (cs.any fun d => d.outpoint == c.outpoint) = false := by
        rw [List.any_eq_false]
        intro d hd heq
        exact hfirst (List.mem_map.2 ⟨d, hd, beq_iff_eq.1 heq⟩)
      rw [lastByOutpoint, hany, lastByOutpoint_eq_self hrest]
      rfl

/-- Paying from any of the wallet's coins is finishing the builder that offers them all.  The coins
that are spent then are coins of the wallet, and none of them is spent twice. -/
theorem payFromAll_ok {order : CoinOrder} {master : ExtendedKey} {groups : List CoinGroup}
    {p : Payout} {built : BuiltTransaction} (hnodup : ((groupCoins groups).map (·.outpoint)).Nodup)
    (h : payFromAll order master groups p = .ok built) :
    (∃ keys taken, addGroupKeys master .empty groups = .ok keys ∧
      TxBuilder.Signs { p.offer order (groupCoins groups) with signingKeys := keys } taken built) ∧
    (∀ u ∈ built.spent, ∃ c ∈ groupCoins groups, c.utxo = u) ∧
    (built.spent.map (·.outpoint)).Nodup := by
  obtain ⟨keys, hkeys, hfinish⟩ := bind_ok h
  rw [lastByOutpoint_eq_self hnodup] at hfinish
  obtain ⟨taken, hsigns⟩ := TxBuilder.finish_signs rfl hfinish
  have hspent : built.spent = taken.map (·.utxo) := hsigns.spent
  have harranged := order.arrange_perm (groupCoins groups)
  refine ⟨⟨keys, taken, hkeys, hsigns⟩, fun u hu => ?_, ?_⟩
  · rw [hspent] at hu
    obtain ⟨taken', htaken', rfl⟩ := List.mem_map.1 hu
    obtain ⟨c, hc, rfl⟩ := List.mem_map.1 (hsigns.optional.subset htaken')
    exact ⟨c, harranged.subset hc, rfl⟩
  · have hall : (((order.arrange (groupCoins groups)).map fun c =>
        WeightedUtxo.ofKeyHash c.utxo).map fun u => u.utxo.outpoint).Nodup := by
      rw [List.map_map]
      exact (harranged.map _).nodup_iff.2 hnodup
    obtain ⟨taken', hperm, hsublist⟩ := hsigns.optional
    rw [hspent, List.map_map]
    exact (hperm.map _).nodup_iff.1 (hall.sublist (hsublist.map _))

/-! ### The coins that are reported -/

/-- A coin that may be reported: one of the wallet, or else what was said first about an outpoint. -/
inductive Reported (groups : List CoinGroup) (explicit : List Utxo) : Coin → Prop where
  | own {c : Coin} (h : c ∈ groupCoins groups) : Reported groups explicit c
  | said {u : Utxo} (hother : ∀ c ∈ groupCoins groups, c.outpoint ≠ u.outpoint)
      (hfirst : (explicit.find? fun e => e.outpoint == u.outpoint) = some u) :
      Reported groups explicit (coinOfUtxo u)

section

variable {groups : List CoinGroup} {explicit spent : List Utxo}

/-- One coin is reported for each coin that is spent, in their order. -/
theorem spentCoins_spec (h : ∀ u ∈ spent, (∃ c ∈ groupCoins groups, c.outpoint = u.outpoint) ∨
      ∃ e ∈ explicit, e.outpoint = u.outpoint) :
    (spentCoins groups explicit spent).map (·.outpoint) = spent.map (·.outpoint) ∧
      ∀ c ∈ spentCoins groups explicit spent, Reported groups explicit c := by
  induction spent with
  | nil => exact ⟨rfl, nofun⟩
  | cons u spent ih =>
      obtain ⟨hmap, hmem⟩ := ih fun v hv => h v (List.mem_cons_of_mem _ hv)
      have hu := h u List.mem_cons_self
      have hcons : ∃ c, spentCoins groups explicit (u :: spent) =
          c :: spentCoins groups explicit spent ∧ c.outpoint = u.outpoint ∧
            Reported groups explicit c := by
        unfold spentCoins
        cases hown : (groupCoins groups).reverse.find? fun c => c.outpoint == u.outpoint with
        | some c =>
            have hc : c ∈ groupCoins groups := List.mem_reverse.1 (List.mem_of_find?_eq_some hown)
            refine ⟨c, ?_, by simpa using List.find?_some hown, .own hc⟩
            rw [List.filterMap_cons, hown]
        | none =>
            have hother : ∀ c ∈ groupCoins groups, c.outpoint ≠ u.outpoint := by simpa using hown
            obtain ⟨e, he, heq⟩ := hu.resolve_left fun ⟨c, hc, heq⟩ => hother c hc heq
            have hsome : (explicit.find? fun e => e.outpoint == u.outpoint).isSome = true :=
              List.find?_isSome.2 ⟨e, he, by simp [heq]⟩
            obtain ⟨v, hv⟩ := Option.isSome_iff_exists.1 hsome
            have hsame : v.outpoint = u.outpoint := by simpa using List.find?_some hv
            refine ⟨coinOfUtxo v, ?_, hsame, .said (hsame ▸ hother) (hsame ▸ hv)⟩
            rw [List.filterMap_cons, hown]
            simp only [hv, Option.map_some]
      obtain ⟨c, hc, houtpoint, hreported⟩ := hcons
      rw [hc, List.map_cons, List.map_cons, houtpoint, hmap]
      exact ⟨rfl, List.forall_mem_cons.2 ⟨hreported, hmem⟩⟩

/-- What is reported of coins of the wallet are these coins. -/
theorem spentCoins_of_groups (explicit : List Utxo)
    (hnodup : ((groupCoins groups).map (·.outpoint)).Nodup)
    (h : ∀ u ∈ spent, ∃ c ∈ groupCoins groups, c.utxo = u) :
    (spentCoins groups explicit spent).map (·.utxo) = spent ∧
      ∀ c ∈ spentCoins groups explicit spent, c ∈ groupCoins groups := by
  have hown : ∀ u ∈ spent, ∃ c ∈ groupCoins groups, c.outpoint = u.outpoint := by
    intro u hu
    obtain ⟨c, hc, rfl⟩ := h u hu
    exact ⟨c, hc, rfl⟩
  obtain ⟨houtpoints, hreported⟩ := spentCoins_spec fun u hu => .inl (hown u hu)
  have hmem : ∀ c ∈ spentCoins groups explicit spent, c ∈ groupCoins groups := by
    intro c hc
    cases hreported c hc with
    | own hc => exact hc
    | @said e hother _ =>
        obtain ⟨u, hu, hsame⟩ := List.mem_map.1 (houtpoints ▸ List.mem_map_of_mem hc)
        obtain ⟨d, hd, heq⟩ := hown u hu
        exact absurd (heq.trans hsame) (hother d hd)
  have hutxos : (spentCoins groups explicit spent).map (·.utxo) = spent.map id := by
    refine map_eq_map_of_keys houtpoints fun c hc u hu hsame => ?_
    obtain ⟨d, hd, rfl⟩ := h u hu
    rw [List.inj_on_of_nodup_map hnodup (hmem c hc) hd hsame]
    rfl
  exact ⟨hutxos.trans (List.map_id spent), hmem⟩

end

/-! ### The run -/

/-- What has happened when a transaction was built for a wallet, up to the payment. -/
structure Prepared (l l' : Ledger) (w : Wallet) (next : NextScript) (groups : List CoinGroup)
    (master : ExtendedKey) : Prop where
  stored : record? Wallet l.store w.id = some w
  derived : l.nextOf w.id = .ok next
  committed : commit l.store (next.batch w.id) = .ok l'.store
  listed : spendableGroups l'.store w.id = .ok groups
  offered : GroupsOf l'.store w.id groups
  unlocked : masterKey w.mnemonic l.network = .ok master

theorem run_buildTransaction_ok {l l' : Ledger} (hl : Reachable l) {walletId : String}
    {outputs : List TxOut} {feeRate : FeeRate} {explicit : List Utxo} {order : CoinOrder}
    {result : Option CreatedTransaction}
    (h : l.run (buildTransaction walletId outputs feeRate explicit order) = (.ok result, l')) :
    ∃ w next groups master built, w.id = walletId ∧ Prepared l l' w next groups master ∧
      (if explicit.isEmpty then
          (payFromAll order master groups ⟨outputs, next.script, feeRate⟩).map some
        else payFromExplicit master groups explicit ⟨outputs, next.script, feeRate⟩) = .ok built ∧
      result = built.map fun b =>
        ⟨b.transaction, spentCoins groups explicit b.spent, next.script, b.fee⟩ := by
  have hs := hl.wellFormed
  obtain ⟨w, _, hread, h⟩ := run_bind_ok h
  rw [run_read] at hread
  obtain ⟨hrequire, rfl⟩ := Prod.mk.inj hread
  have hkeys := hasKeysOf_of_requireWallet hs.sound hrequire
  have hw := record?_of_requireWallet hs.sound hrequire
  obtain rfl : w.id = walletId := hs.sound.key_eq hw
  dsimp only at h
  split at h
  · cases h
  · obtain ⟨changeScript, l₁, hderive, h⟩ := run_bind_ok h
    obtain ⟨groups, _, hread, h⟩ := run_bind_ok h
    rw [run_read] at hread
    obtain ⟨hgroups, rfl⟩ := Prod.mk.inj hread
    obtain ⟨master, l₂, hmaster, h⟩ := run_bind_ok h
    obtain ⟨built, _, hcheck, h⟩ := run_bind_ok h
    rw [run_check] at hcheck
    obtain ⟨hbuilt, rfl⟩ := Prod.mk.inj hcheck
    obtain ⟨hresult, rfl⟩ := Prod.mk.inj h
    have hl₁ : Reachable l₁ := serve_deriveScript hderive ▸ hl.served _
    have hextends : Extends l l₁ := by
      have hleads := (Steps.deriveScript hs w.id).leads hs.sound
      rw [Leads, hderive] at hleads
      exact hleads
    have hstore : l₂.store = l₁.store := by
      have hkeeps := Keeps.masterKeyOf w l₁
      rw [hmaster] at hkeeps
      exact hkeeps
    have hmaster' : masterKey w.mnemonic l.network = .ok master := by
      have hresult := (run_masterKeyOf l₁ w).1
      rw [hmaster, hl₁.informed.masterOf_eq (hkeys.keeps hextends.wallets), hextends.network]
        at hresult
      exact hresult.symm
    obtain ⟨next, hnext, rfl, hcommit⟩ := run_deriveScript_ok hs.sound hderive
    obtain ⟨groups', hgroups', hof⟩ := exists_groupsOf hl₁.wellFormed w.id
    obtain rfl : groups = groups' := Except.ok.inj (hgroups.symm.trans hgroups')
    rw [← hstore] at hcommit hgroups hof
    exact ⟨w, next, groups, master, built, rfl, ⟨hw, hnext, hcommit, hgroups, hof, hmaster'⟩,
      hbuilt, (Except.ok.inj hresult).symm⟩

theorem serve_buildTransaction {l l' : Ledger} {walletId : String} {outputs : List TxOut}
    {feeRate : FeeRate} {explicit : List Utxo} {order : CoinOrder}
    {result : Option CreatedTransaction}
    (h : l.run (buildTransaction walletId outputs feeRate explicit order) = (.ok result, l')) :
    l.serve (.buildTransaction walletId outputs feeRate explicit order) = l' := by
  show (l.run (buildTransaction walletId outputs feeRate explicit order >>= fun _ => pure ())).2 = l'
  rw [run_bind, h]
  rfl

theorem nothingAsked_eq_false {outputs : List TxOut} {explicit : List Utxo}
    (h : outputs ≠ [] ∨ explicit ≠ []) : (outputs.isEmpty && explicit.isEmpty) = false := by
  rcases h with h | h <;> simp [h]

/-- If the script for the change cannot be derived, building fails with this error. -/
theorem run_buildTransaction_error {l l₁ : Ledger} (hl : Reachable l) {w : Wallet}
    (hw : record? Wallet l.store w.id = some w) {e : Error}
    (hderive : l.run (deriveScript w.id) = (.error e, l₁)) (outputs : List TxOut)
    (feeRate : FeeRate) {explicit : List Utxo} (hsome : outputs ≠ [] ∨ explicit ≠ [])
    (order : CoinOrder) :
    l.run (buildTransaction w.id outputs feeRate explicit order) = (.error e, l₁) := by
  have hrequire : requireWallet l.store w.id = .ok w := by
    rw [requireWallet_eq hl.wellFormed.sound, hw]
  unfold buildTransaction
  simp only [run_bind, run_read, hrequire, nothingAsked_eq_false hsome, Bool.false_eq_true, if_false,
    hderive]

/-- What becomes of building once the script for the change is derived. -/
theorem exists_run_buildTransaction_derived {l l₁ : Ledger} (hl : Reachable l) {w : Wallet}
    (hw : record? Wallet l.store w.id = some w) {script : Script}
    (hderive : l.run (deriveScript w.id) = (.ok script, l₁)) (outputs : List TxOut)
    (feeRate : FeeRate) (explicit : List Utxo) (hsome : outputs ≠ [] ∨ explicit ≠ [])
    (order : CoinOrder) :
    ∃ l' next groups master, next.script = script ∧ l'.store = l₁.store ∧
      Prepared l l' w next groups master ∧
      l.run (buildTransaction w.id outputs feeRate explicit order) =
        ((if explicit.isEmpty then
            (payFromAll order master groups ⟨outputs, script, feeRate⟩).map some
          else payFromExplicit master groups explicit ⟨outputs, script, feeRate⟩).map
            fun built => built.map fun b =>
              ⟨b.transaction, spentCoins groups explicit b.spent, script, b.fee⟩, l') := by
  have hs := hl.wellFormed
  have hrequire : requireWallet l.store w.id = .ok w := by rw [requireWallet_eq hs.sound, hw]
  have hkeys : HasKeysOf l.store w := ⟨w, hw, .refl w⟩
  obtain ⟨next, hnext, rfl, hcommit⟩ := run_deriveScript_ok hs.sound hderive
  have hl₁ : Reachable l₁ := serve_deriveScript hderive ▸ hl.served _
  have hextends : Extends l l₁ := by
    have hleads := (Steps.deriveScript hs w.id).leads hs.sound
    rw [Leads, hderive] at hleads
    exact hleads
  obtain ⟨w', hw', hunlocks⟩ := hl.informed.unlocks_of_nextOf hs.sound hnext
  obtain rfl : w = w' := Option.some.inj (hw.symm.trans hw')
  obtain ⟨key, hkey, -⟩ := hunlocks.exists_keyAt l.network
  obtain ⟨master, hmaster, -⟩ := bind_ok hkey
  obtain ⟨l', hrun, hstore⟩ := exists_run_masterKeyOf hl₁.informed (hkeys.keeps hextends.wallets)
    (hextends.network ▸ hmaster)
  obtain ⟨groups, hgroups, hof⟩ := exists_groupsOf hl₁.wellFormed w.id
  refine ⟨l', next, groups, master, rfl, hstore, ⟨hw, hnext, by rw [hcommit, hstore],
    by rw [hstore, hgroups], by rwa [hstore], hmaster⟩, ?_⟩
  unfold buildTransaction
  simp only [run_bind, run_read, hrequire, nothingAsked_eq_false hsome, Bool.false_eq_true, if_false,
    hderive, hgroups, hrun, run_check]
  generalize (if explicit.isEmpty then _ else _ : Except Error (Option BuiltTransaction)) = built
  cases built <;> rfl

/-- As long as nobody watches the chain, a wallet with a next script can build what it can pay. -/
theorem exists_run_buildTransaction {l : Ledger} (hl : Reachable l) (hchain : l.chain = none)
    {w : Wallet} (hw : record? Wallet l.store w.id = some w) {next : NextScript}
    (hnext : l.nextOf w.id = .ok next) (outputs : List TxOut) (houtputs : outputs ≠ [])
    (feeRate : FeeRate) (explicit : List Utxo) (order : CoinOrder) :
    ∃ l' groups master, Prepared l l' w next groups master ∧ ∀ built,
      (if explicit.isEmpty then
          (payFromAll order master groups ⟨outputs, next.script, feeRate⟩).map some
        else payFromExplicit master groups explicit ⟨outputs, next.script, feeRate⟩) = .ok built →
      l.run (buildTransaction w.id outputs feeRate explicit order) =
        (.ok (built.map fun b =>
          ⟨b.transaction, spentCoins groups explicit b.spent, next.script, b.fee⟩), l') := by
  obtain ⟨l₁, hderive⟩ := exists_run_deriveScript_eq_ok hl.wellFormed hchain hnext
  obtain ⟨l', next', groups, master, -, -, hprepared, hrun⟩ := exists_run_buildTransaction_derived hl
    hw hderive outputs feeRate explicit (.inl houtputs) order
  obtain rfl : next' = next := Except.ok.inj (hprepared.derived.symm.trans hnext)
  refine ⟨l', groups, master, hprepared, fun built hbuilt => ?_⟩
  rw [hrun, hbuilt]
  rfl

end Ledger

/-- The groups are those that are listed once the script for the change is derived. -/
theorem Ledger.Prepared.groups_eq {l l' l₁ : Ledger} (hl : Reachable l) {w : Wallet}
    {next : NextScript} {groups groups' : List CoinGroup} {master : ExtendedKey}
    (h : Prepared l l' w next groups master) {script : Script}
    (hderive : l.run (deriveScript w.id) = (.ok script, l₁))
    (hgroups : spendableGroups l₁.store w.id = .ok groups') : groups = groups' := by
  obtain ⟨next', hnext', -, hcommit⟩ := run_deriveScript_ok hl.wellFormed.sound hderive
  obtain rfl : next = next' := Except.ok.inj (h.derived.symm.trans hnext')
  have hstore : l₁.store = l'.store := Except.ok.inj (hcommit.symm.trans h.committed)
  exact Except.ok.inj (h.listed.symm.trans (hstore ▸ hgroups))

/-- The script that is derived for the change is the only one that comes to be listed. -/
theorem Ledger.Prepared.mem_listedScripts {l l' : Ledger} (hs : WellFormed l.store) {w : Wallet}
    {next : NextScript} {groups : List CoinGroup} {master : ExtendedKey}
    (h : Prepared l l' w next groups master) {row : WalletScript}
    (hrow : row ∈ listedScripts l'.store w.id) :
    row ∈ listedScripts l.store w.id ∨ row = ⟨w.id, next.script, some next.path⟩ := by
  obtain ⟨hstored, hstart⟩ := ((hs.commit h.committed).sound.mem_recordsFrom rfl).1 hrow
  have hrecord : record? WalletScript l'.store (Entity.key row) =
      if rowKey WalletScript ⟨w.id, next.script⟩ = rowKey WalletScript (Entity.key row) then
        (record? WalletScript l.store (Entity.key row)).or
          (some ⟨w.id, next.script, some next.path⟩)
      else record? WalletScript l.store (Entity.key row) :=
    Pointwise.record?_commit hs.sound h.committed (Entity.key row)
  have hcases : record? WalletScript l.store (Entity.key row) = some row ∨
      row = ⟨w.id, next.script, some next.path⟩ := by
    rw [hstored] at hrecord
    split at hrecord
    · cases hfound : record? WalletScript l.store (Entity.key row) with
      | some known =>
          rw [hfound] at hrecord
          exact .inl hrecord.symm
      | none =>
          rw [hfound] at hrecord
          exact .inr (Option.some.inj hrecord)
    · exact .inl hrecord.symm
  exact hcases.imp_left fun hbefore => (hs.sound.mem_recordsFrom rfl).2 ⟨hbefore, hstart⟩

/-- The script that is derived for the change is locked by the key at its path too. -/
theorem KeyedScripts.prepared {l l' : Ledger} (hl : Reachable l) {w : Wallet} {next : NextScript}
    {groups : List CoinGroup} {master : ExtendedKey} (h : Prepared l l' w next groups master)
    (hkeyed : KeyedScripts l.store w) : KeyedScripts l'.store w := by
  obtain ⟨w', hw', hunlocks⟩ := hl.informed.unlocks_of_nextOf hl.wellFormed.sound h.derived
  obtain rfl : w = w' := Option.some.inj (h.stored.symm.trans hw')
  intro row hrow path hpath
  rcases h.mem_listedScripts hl.wellFormed hrow with hbefore | rfl
  · exact hkeyed row hbefore path hpath
  · obtain rfl : next.path = path := Option.some.inj hpath
    exact hunlocks

/-- If the coins of a wallet are enough, they pay. -/
theorem exists_payFromAll_eq_ok {s : Store} {w : Wallet} (hkeyed : KeyedScripts s w)
    {network : Network} {master : ExtendedKey} (hmaster : masterKey w.mnemonic network = .ok master)
    {groups : List CoinGroup} (hgroups : GroupsOf s w.id groups) {p : Payout}
    (houtputs : p.outputs ≠ []) {order : CoinOrder} {fee : Float32}
    (hfee : TxBuilder.outputFees p.feeRate 0 (p.feeRate.feeFor headerWeight) p.outputs = .ok fee)
    (hpays : (p.offer order (groupCoins groups)).outgoing + wholeSat (feeAfter p.feeRate fee
        (order.sort (p.offer order (groupCoins groups)).maySpend)) ≤
      totalValue (order.sort (p.offer order (groupCoins groups)).maySpend)) :
    ∃ built, payFromAll order master groups p = .ok built := by
  obtain ⟨keys, hkeys⟩ := hgroups.groups.exists_addGroupKeys_eq_ok hkeyed hmaster .empty
  obtain ⟨selection, hselection⟩ := exists_largestFirstBy_eq_ok [] _ hpays
  obtain ⟨built, hbuilt⟩ := TxBuilder.exists_finish_eq_ok
    (b := { p.offer order (groupCoins groups) with signingKeys := keys }) houtputs hfee hselection
  refine ⟨built, ?_⟩
  rw [payFromAll, hkeys, ok_bind, lastByOutpoint_eq_self hgroups.nodup]
  exact hbuilt

/-! ### A wallet that was paid -/

/-- A wallet with one script, which is the next one to derive, and a coin of this script. -/
structure PaidWallet (l : Ledger) (w : Wallet) (next : NextScript) (value : UInt64) : Prop where
  reachable : Reachable l
  unwatched : l.chain = none
  stored : record? Wallet l.store w.id = some w
  derivable : l.nextOf w.id = .ok next
  scripts : ∀ k row, record? WalletScript l.store k = some row →
    row = ⟨w.id, next.script, some next.path⟩
  known : PathKnown l.store w.id next.script next.path
  coins : ∀ o c, record? Coin l.store o = some c ↔
    (paidCoin next.script value).outpoint = o ∧ c = paidCoin next.script value

/-- The wallet of the examples is paid to its next script, and the key path is reported. -/
theorem exists_paidWallet (value : UInt64) : ∃ l w next, PaidWallet l w next value := by
  obtain ⟨id, next, hw, hnext⟩ := exists_nextOf_aliasLedger
  obtain ⟨-, -, hchain⟩ := exists_store_aliasLedger
  have hs := reachable_aliasLedger.wellFormed
  let report := paymentReport id next.script value (some "1")
  obtain ⟨w, hw', hisNext⟩ := isNext_of_nextOf hs.sound hnext
  obtain rfl : aliasWallet id = w := Option.some.inj (hw.symm.trans hw')
  have hpath : next.path = (aliasWallet id).pathFor "1" := by
    have hone : toString ((aliasWallet id).lastIndex.toNat + 0 + 1) = "1" := by
      show toString ((0 : UInt32).toNat + 0 + 1) = "1"
      decide
    rw [hisNext.path, hisNext.index, hone]
  have hscript : ∀ k, record? WalletScript (aliasLedger.serve report.request).store k =
      if rowKey WalletScript ⟨id, next.script⟩ = rowKey WalletScript k then
        some ⟨id, next.script, some next.path⟩
      else none := by
    intro k
    rw [record?_walletScript_payment hs hw, record?_aliasLedger (by decide), hpath]
    rfl
  refine ⟨aliasLedger.serve report.request, aliasWallet id, next, reachable_aliasLedger.served _,
    (chain_payment hs).trans hchain, ?_,
    (nextOf_payment hs reachable_aliasLedger.informed id).trans hnext, ?_, ?_, ?_⟩
  · have hrows : SameRows (Entity.kind Wallet) aliasLedger.store
        (aliasLedger.serve report.request).store :=
      sameRows_serve hs.sound (by simp [report, Report.request, Request.writes, Entity.kind])
    rw [hrows.record?_eq]
    exact hw
  · intro k row hrow
    rw [hscript] at hrow
    split at hrow
    · exact (Option.some.inj hrow).symm
    · cases hrow
  · exact (hscript _).trans (if_pos rfl)
  · intro o c
    rw [record?_coin_payment hs hw, record?_aliasLedger (by decide), Option.none_or]
    split
    · rename_i ho
      simp only [Option.some.injEq, ho, true_and]
      exact eq_comm
    · rename_i ho
      simp [ho]

/-- One coin of 5600 pays 5000 and the fee. -/
theorem sumAmounts_le_of_oneCoin :
    sumAmounts [5000] + wholeSat (FeeRate.minimumRelay.feeFor headerWeight +
      FeeRate.minimumRelay.feeFor (TxOut.weight ⟨5000, ⟨[81]⟩⟩) +
        FeeRate.minimumRelay.feeFor (inputWeight + keyHashSatisfactionWeight)) ≤
      sumAmounts [5600] := by
  decide +kernel

section

variable {l l' : Ledger} {w : Wallet} {next : NextScript}

/-- A wallet with one script, the next one to derive, has the key of it. -/
theorem keyedScripts_of_oneScript (hl : Reachable l) (hw : record? Wallet l.store w.id = some w)
    (hnext : l.nextOf w.id = .ok next)
    (hscripts : ∀ k row, record? WalletScript l.store k = some row →
      row = ⟨w.id, next.script, some next.path⟩) : KeyedScripts l.store w := by
  obtain ⟨w', hw', hunlocks⟩ := hl.informed.unlocks_of_nextOf hl.wellFormed.sound hnext
  obtain rfl : w = w' := Option.some.inj (hw.symm.trans hw')
  intro row hrow path hpath
  obtain ⟨hstored, -⟩ := (hl.wellFormed.sound.mem_recordsFrom rfl).1 hrow
  obtain rfl := hscripts _ row hstored
  obtain rfl : next.path = path := Option.some.inj hpath
  exact hunlocks

/-- If all coins that are stored are unspent and of the next script, they are what there is to
spend. -/
theorem groupCoins_perm (hl : Reachable l) {groups : List CoinGroup} {master : ExtendedKey}
    (hprepared : Prepared l l' w next groups master)
    (hknown : PathKnown l.store w.id next.script next.path) {coins : List Coin} (hnodup : coins.Nodup)
    (hcoins : ∀ o c, record? Coin l.store o = some c ↔ c.outpoint = o ∧ c ∈ coins)
    (hunspent : ∀ c ∈ coins, c.spentBy = none ∧ c.script = next.script) :
    (groupCoins groups).Perm coins := by
  have hs := hl.wellFormed
  have hs' : WellFormed l'.store := hs.commit hprepared.committed
  have hrows : SameRows (Entity.kind Coin) l.store l'.store :=
    (writes_commit hprepared.committed).sameRows
      (by simp [NextScript.batch, Operation.writes, Entity.kind])
  have hrow : record? WalletScript l'.store ⟨w.id, next.script⟩ =
      some ⟨w.id, next.script, some next.path⟩ := by
    rw [record?_walletScript_derived hs hprepared.committed, hknown]
    rfl
  have hlisted : (⟨w.id, next.script, some next.path⟩ : WalletScript) ∈
      listedScripts l'.store w.id := (hs'.sound.mem_recordsFrom rfl).2 ⟨hrow, ⟨next.script.bytes, rfl⟩⟩
  obtain ⟨path, hpath⟩ := exists_pathOf?_eq_some hlisted rfl rfl
  refine (List.perm_ext_iff_of_nodup (List.Nodup.of_map _ hprepared.offered.nodup) hnodup).2
    fun c => ⟨fun hc => ?_, fun hc => ?_⟩
  · obtain ⟨g, hg, hcg⟩ := List.mem_flatMap.1 hc
    have hspendable := (hprepared.offered.mem g.path c).1 ⟨g, hg, rfl, hcg⟩
    have hstored := hspendable.stored
    rw [hrows.record?_eq] at hstored
    exact ((hcoins _ _).1 hstored).2
  · obtain ⟨hspent, hscript⟩ := hunspent c hc
    have hstored : record? Coin l'.store c.outpoint = some c := by
      rw [hrows.record?_eq]
      exact (hcoins _ _).2 ⟨rfl, hc⟩
    obtain ⟨g, hg, -, hcg⟩ := (hprepared.offered.mem path c).2 ⟨hstored, hspent, hscript ▸ hpath⟩
    exact List.mem_flatMap.2 ⟨g, hg, hcg⟩

end

namespace PaidWallet

variable {l l' : Ledger} {w : Wallet} {next : NextScript} {value : UInt64}

theorem keyed (h : PaidWallet l w next value) : KeyedScripts l.store w :=
  keyedScripts_of_oneScript h.reachable h.stored h.derivable h.scripts

/-- The coin is all that there is to spend. -/
theorem groupCoins_eq (h : PaidWallet l w next value) {groups : List CoinGroup}
    {master : ExtendedKey} (hprepared : Prepared l l' w next groups master) :
    groupCoins groups = [paidCoin next.script value] := by
  refine List.perm_singleton.1 (groupCoins_perm h.reachable hprepared h.known
    (List.nodup_singleton _) (fun o c => ?_) fun c hc => ?_)
  · rw [h.coins, List.mem_singleton]
    constructor
    · rintro ⟨ho, rfl⟩
      exact ⟨ho, rfl⟩
    · rintro ⟨ho, rfl⟩
      exact ⟨ho, rfl⟩
  · obtain rfl := List.mem_singleton.1 hc
    exact ⟨rfl, rfl⟩

end PaidWallet

/-! ### Building from the coins of a wallet -/

/-- The inputs of the transaction spend these coins of the wallet in their order, each coin once, and
each input is signed for its coin. -/
structure SpendsCoins (s : Store) (w : Wallet) (tx : Transaction) (coins : List Coin) : Prop where
  previous : tx.inputs.map (·.previous) = coins.map (·.outpoint)
  nodup : (coins.map (·.outpoint)).Nodup
  signed : ∀ i ∈ tx.inputs, ∀ c ∈ coins, i.previous = c.outpoint →
    SignedFor s w (.ofTransaction tx) i c

theorem spendsCoins_of_payFromAll {s : Store} {w : Wallet} (hkeyed : KeyedScripts s w)
    {network : Network} {master : ExtendedKey} (hmaster : masterKey w.mnemonic network = .ok master)
    {groups : List CoinGroup} (hgroups : GroupsOf s w.id groups) {order : CoinOrder} {p : Payout}
    {built : BuiltTransaction} (h : payFromAll order master groups p = .ok built) :
    SpendsCoins s w built.transaction (spentCoins groups [] built.spent) ∧
      ((p.offer order (groupCoins groups)).Fits →
        coinsValue ((spentCoins groups [] built.spent).map (·.utxo)) =
          outputsValue built.transaction.outputs + built.fee.toNat) := by
  obtain ⟨⟨keys, taken, hkeys, hsigns⟩, hoffered, hnodup⟩ := payFromAll_ok hgroups.nodup h
  obtain ⟨tx, signed, hsign, hsigned, hprevious⟩ := hsigns.signed
  obtain ⟨hcoins, hmem⟩ := spentCoins_of_groups [] hgroups.nodup hoffered
  have houtpoints : (spentCoins groups [] built.spent).map (·.outpoint) =
      built.spent.map (·.outpoint) := by
    rw [← hcoins, List.map_map, hcoins]
    rfl
  have hsignedFor := signedFor_of_sign hkeyed hmaster hgroups.groups hkeys hnodup hoffered
    (fun i hi => hprevious ▸ List.mem_map_of_mem hi) hsign
  refine ⟨⟨?_, houtpoints ▸ hnodup, ?_⟩, fun hfits => ?_⟩
  · rw [houtpoints, hsigns.previous]
  · intro i hi c hc hprev
    rw [hsigned] at hi ⊢
    obtain ⟨c', hc', hprev', hfor⟩ := hsignedFor i hi
    obtain ⟨g, hg, hcg⟩ := List.mem_flatMap.1 (hmem c hc)
    have hstored := ((hgroups.groups g hg).2 c hcg).stored
    obtain rfl : c = c' := by
      obtain ⟨path, _, _, hspendable, -⟩ := hfor
      rw [← hprev, hprev', hspendable.stored] at hstored
      exact (Option.some.inj hstored).symm
    exact hfor
  · rw [hcoins]
    exact hsigns.balanced ⟨hfits.recipients, hfits.coins, hfits.cost⟩

/-- **A transaction that is built from the coins of a wallet is signed, and stays the same when it is
signed again.**  In a reachable ledger, let the scripts of the wallet be locked by the keys at their
paths, and let building not fail, in whatever order the coins stand.  Then there is a transaction.  It
spends coins of the wallet, each once, with the coins that are reported in the order of the inputs, and
every input is signed with the key of its coin.  What the coins are worth goes to the outputs and to
the fee.  Signing the transaction on the same store gives it back, whatever witnesses were taken
out. -/
theorem signed_of_buildTransaction {l l' : Ledger} (hl : Reachable l) {w : Wallet}
    (hw : record? Wallet l.store w.id = some w) (hkeyed : KeyedScripts l.store w)
    {outputs : List TxOut} {feeRate : FeeRate} {order : CoinOrder}
    {result : Option CreatedTransaction}
    (h : l.run (buildTransaction w.id outputs feeRate [] order) = (.ok result, l')) :
    ∃ created, result = some created ∧
      SpendsCoins l'.store w created.transaction created.spentCoins ∧
      (∀ groups, spendableGroups l'.store w.id = .ok groups →
        (Payout.offer ⟨outputs, created.changeScript, feeRate⟩ order (groupCoins groups)).Fits →
          coinsValue (created.spentCoins.map (·.utxo)) =
            outputsValue created.transaction.outputs + created.fee.toNat) ∧
      ∀ l'' t, Reachable l'' → l''.store = l'.store →
        t.unsigned = created.transaction.unsigned →
          (l''.run (signTransaction w.id t)).1 = .ok created.transaction := by
  obtain ⟨w', next, groups, master, built, hid, hprepared, hbuilt, rfl⟩ :=
    run_buildTransaction_ok hl h
  obtain rfl : w = w' := by
    have hw' := hprepared.stored
    rw [hid, hw] at hw'
    exact Option.some.inj hw'
  obtain ⟨b, hpay, rfl⟩ := map_ok hbuilt
  have hkeyed' := hkeyed.prepared hl hprepared
  obtain ⟨hspends, hbalanced⟩ :=
    spendsCoins_of_payFromAll hkeyed' hprepared.unlocked hprepared.offered hpay
  refine ⟨_, rfl, hspends, fun groups' hgroups' hfits => ?_, fun l'' t hl'' hstore ht => ?_⟩
  · obtain rfl : groups = groups' := Except.ok.inj (hprepared.listed.symm.trans hgroups')
    exact hbalanced hfits
  · have hkeys : HasKeysOf l'.store w := HasKeysOf.keeps ⟨w, hw, .refl w⟩
      (keepsWallets_of_commit hl.wellFormed.sound hprepared.committed)
    refine run_signTransaction_eq_ok hl'' (hstore ▸ hkeys) (hstore ▸ hkeyed') hprepared.unlocked ?_ ht
    intro i hi
    -- every input has its coin
    have hmem : i.previous ∈ (spentCoins groups [] b.spent).map (·.outpoint) :=
      hspends.previous ▸ List.mem_map_of_mem hi
    obtain ⟨c, hc, hprevious⟩ := List.mem_map.1 hmem
    exact ⟨c, hprevious.symm, hstore ▸ hspends.signed i hi c hc hprevious.symm⟩

/-- The one coin is all that is offered, in any order. -/
theorem Ledger.Payout.maySpend_offer_singleton (p : Payout) (order : CoinOrder) (c : Coin) :
    order.sort (p.offer order [c]).maySpend = [.ofKeyHash c.utxo] := by
  simp [offer]

/-- A wallet with a coin of 5600 pays 5000. -/
theorem signed_of_paidWallet :
    ∃ (l : Ledger) (w : Wallet), Reachable l ∧ record? Wallet l.store w.id = some w ∧
      KeyedScripts l.store w ∧ ∀ order : CoinOrder, ∃ (l' : Ledger) (created : CreatedTransaction),
        l.run (buildTransaction w.id [⟨5000, ⟨[81]⟩⟩] .minimumRelay [] order) =
          (.ok (some created), l') ∧
        SpendsCoins l'.store w created.transaction created.spentCoins ∧
        ∀ t, t.unsigned = created.transaction.unsigned →
          (l'.run (signTransaction w.id t)).1 = .ok created.transaction := by
  obtain ⟨l, w, next, h⟩ := exists_paidWallet 5600
  refine ⟨l, w, h.reachable, h.stored, h.keyed, fun order => ?_⟩
  obtain ⟨l', groups, master, hprepared, hrun⟩ := exists_run_buildTransaction h.reachable
    h.unwatched h.stored h.derivable [⟨5000, ⟨[81]⟩⟩] (List.cons_ne_nil _ _) .minimumRelay [] order
  have hgroups := h.groupCoins_eq hprepared
  obtain ⟨built, hbuilt⟩ : ∃ built, payFromAll order master groups
      ⟨[⟨5000, ⟨[81]⟩⟩], next.script, .minimumRelay⟩ = .ok built := by
    refine exists_payFromAll_eq_ok (h.keyed.prepared h.reachable hprepared) hprepared.unlocked
      hprepared.offered (List.cons_ne_nil _ _) rfl ?_
    rw [hgroups, Payout.maySpend_offer_singleton]
    exact sumAmounts_le_of_oneCoin
  have hrun := hrun (some built) (by rw [hbuilt]; rfl)
  obtain ⟨created, hcreated, hspends, -, hagain⟩ :=
    signed_of_buildTransaction h.reachable h.stored h.keyed hrun
  rw [hcreated] at hrun
  have hl' : Reachable l' := serve_buildTransaction hrun ▸ h.reachable.served _
  exact ⟨l', created, hrun, hspends, fun t ht => hagain l' t hl' rfl ht⟩

end CoinLedger
