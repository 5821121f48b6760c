import CoinLedger.Proofs.Ledger.BuildTransaction

/-! # What a built transaction spends

With explicit inputs a transaction spends these in the order in which they are named, and behind them
coins of the wallet that are none of them.  Without explicit inputs it spends coins of the wallet
alone.  `FundedBy` says so for both, and that one coin is reported for each input.

An outpoint that is named twice is spent twice, so that the inputs are different just when the
explicit inputs are (`FundedBy.nodup_iff`).  What is reported of an explicit input is the wallet's own
coin, or what was said first of its outpoint.  If this is what was said each time (`Agrees`), then the
reported coins are worth what the transaction pays out (`FundedBy.coinsValue_eq`). -/

namespace CoinLedger

open Ledger Key

/-! ### Paying from explicit inputs -/

namespace Ledger

/-- The builder that must spend coins, in this order. -/
def Payout.spend (p : Payout) (coins : List Utxo) : TxBuilder :=
  { p.builder .empty with mustSpend := coins.map .ofKeyHash }

variable {master : ExtendedKey} {p : Payout} {built : BuiltTransaction}

theorem Payout.payFrom_ok {r : Required} (h : p.payFrom r = .ok (some built)) {spent : List Utxo}
    (hcoins : r.coins = spent.map .ofKeyHash) :
    TxBuilder.Signs { p.spend spent with signingKeys := r.keys } [] built := by
  unfold Payout.payFrom at h
  split at h
  · rename_i hfinish
    obtain rfl := Option.some.inj (Except.ok.inj h)
    obtain ⟨taken, hsigns⟩ := TxBuilder.finish_signs rfl hfinish
    obtain rfl : taken = [] := List.subperm_nil.1 hsigns.optional
    rwa [hcoins] at hsigns
  · cases h
  · cases h

/-- Paying from a pool is paying from what is required and the first coins of the pool. -/
theorem payFromPool_ok {pool : List (String × Coin)} {r : Required} {spent : List Utxo}
    (hcoins : r.coins = spent.map .ofKeyHash)
    (h : payFromPool master p r pool = .ok (some built)) :
    ∃ added keys, added <+: pool.map (·.2) ∧ TxBuilder.Signs
      { p.spend (spent ++ added.map (·.utxo)) with signingKeys := keys } [] built := by
  induction pool generalizing r spent with
  | nil => exact ⟨[], r.keys, List.prefix_refl [], by simpa using p.payFrom_ok h hcoins⟩
  | cons entry pool ih =>
      obtain ⟨path, coin⟩ := entry
      obtain ⟨paid, hpaid, h⟩ := bind_ok h
      cases paid with
      | some b =>
          obtain rfl : b = built := Option.some.inj (Except.ok.inj h)
          exact ⟨[], r.keys, List.nil_prefix, by simpa using p.payFrom_ok hpaid hcoins⟩
      | none =>
          obtain ⟨r', hr', h⟩ := bind_ok h
          have hadded : r'.coins = (spent ++ [coin.utxo]).map .ofKeyHash := by
            rw [List.map_append, ← hcoins]
            unfold Required.add at hr'
            dsimp only at hr'
            split at hr'
            · rw [← Except.ok.inj hr']
              rfl
            · obtain ⟨key, -, hr'⟩ := bind_ok hr'
              rw [← Except.ok.inj hr']
              rfl
          obtain ⟨added, keys, hstarts, hsigns⟩ := ih hadded h
          rw [List.append_assoc] at hsigns
          exact ⟨coin :: added, keys, (List.prefix_cons_inj coin).2 hstarts, hsigns⟩

theorem map_poolOf (groups : List CoinGroup) (explicit : List Utxo) :
    (poolOf groups explicit).map (·.2) = (groupCoins groups).filter fun c =>
      !explicit.any fun u => u.outpoint == c.outpoint := by
  have hcoins : (groups.flatMap fun g => g.coins.map fun c => (g.path, c)).map (·.2) =
      groupCoins groups := by
    simp [groupCoins, List.map_flatMap, Function.comp_def]
  rw [← hcoins, List.filter_map]
  rfl

/-- If explicit inputs are enough, they pay. -/
theorem exists_payFromExplicit_eq_ok {s : Store} {w : Wallet} (hkeyed : KeyedScripts s w)
    {network : Network} (hmaster : masterKey w.mnemonic network = .ok master)
    {groups : List CoinGroup} (hgroups : GroupsOf s w.id groups) {explicit : List Utxo}
    (houtputs : p.outputs ≠ []) {fee : Float32}
    (hfee : TxBuilder.outputFees p.feeRate 0 (p.feeRate.feeFor headerWeight) p.outputs = .ok fee)
    (hpays : (p.spend explicit).outgoing +
        wholeSat (feeAfter p.feeRate fee (p.spend explicit).mustSpend) ≤
      totalValue (p.spend explicit).mustSpend) :
    ∃ built, payFromExplicit master groups explicit p = .ok (some built) := by
  have hspent : Groups s w.id (groups.filter fun g => g.coins.any fun c =>
      explicit.any fun u => u.outpoint == c.outpoint) :=
    fun g hg => hgroups.groups g (List.mem_filter.1 hg).1
  obtain ⟨keys, hkeys⟩ := hspent.exists_addGroupKeys_eq_ok hkeyed hmaster .empty
  obtain ⟨selection, hselection⟩ :=
    exists_largestFirstBy_eq_ok (p.spend explicit).mustSpend [] (by simpa using hpays)
  obtain ⟨built, hbuilt⟩ := TxBuilder.exists_finish_eq_ok
    (b := { p.spend explicit with signingKeys := keys }) houtputs hfee hselection
  have hpaid : ∀ paths, p.payFrom ⟨explicit.map .ofKeyHash, keys, paths⟩ = .ok (some built) := by
    intro paths
    unfold Payout.payFrom
    rw [show TxBuilder.finish { p.builder keys with mustSpend := explicit.map .ofKeyHash } =
      .ok built from hbuilt]
  refine ⟨built, ?_⟩
  unfold payFromExplicit
  dsimp only
  rw [hkeys, ok_bind]
  cases poolOf groups explicit with
  | nil => exact hpaid _
  | cons entry pool =>
      unfold payFromPool
      rw [hpaid, ok_bind]
      rfl

end Ledger

/-! ### What is spent and what is reported -/

/-- A transaction that was created for a wallet from explicit inputs and these coins of the wallet. -/
structure FundedBy (groups : List CoinGroup) (explicit : List Utxo) (added : List Coin)
    (created : CreatedTransaction) : Prop where
  own : ∀ c ∈ added, c ∈ groupCoins groups
  nodup : (added.map (·.outpoint)).Nodup
  apart : ∀ c ∈ added, ∀ u ∈ explicit, u.outpoint ≠ c.outpoint
  /-- The inputs spend the explicit inputs in their order, and then the coins of the wallet. -/
  previous : created.transaction.inputs.map (·.previous) =
    explicit.map (·.outpoint) ++ added.map (·.outpoint)
  /-- One coin is reported for each input, in the order of the inputs. -/
  outpoints : created.spentCoins.map (·.outpoint) = created.transaction.inputs.map (·.previous)
  reported : ∀ c ∈ created.spentCoins, Reported groups explicit c
  /-- What the coins are said to be worth goes to the outputs and to the fee, as sums that wrap
  around. -/
  modEq : coinsValue (explicit ++ added.map (·.utxo)) ≡
    outputsValue created.transaction.outputs + created.fee.toNat [MOD UInt64.size]

/-- What is said of explicit inputs agrees with the coins of the wallet, and with itself. -/
structure Agrees (groups : List CoinGroup) (explicit : List Utxo) : Prop where
  own : ∀ u ∈ explicit, ∀ c ∈ groupCoins groups, c.outpoint = u.outpoint → c.value = u.txout.value
  said : ∀ u ∈ explicit, ∀ v ∈ explicit, u.outpoint = v.outpoint → u.txout.value = v.txout.value

section

variable {groups : List CoinGroup} {explicit : List Utxo} {added : List Coin}

theorem TxBuilder.Signs.fundedBy {b : TxBuilder} {taken : List WeightedUtxo}
    {built : BuiltTransaction} (h : Signs b taken built)
    (hspent : built.spent = explicit ++ added.map (·.utxo))
    (hown : ∀ c ∈ added, c ∈ groupCoins groups) (hnodup : (added.map (·.outpoint)).Nodup)
    (hapart : ∀ c ∈ added, ∀ u ∈ explicit, u.outpoint ≠ c.outpoint) (changeScript : Script) :
    FundedBy groups explicit added
      ⟨built.transaction, spentCoins groups explicit built.spent, changeScript, built.fee⟩ := by
  have hknown : ∀ u ∈ built.spent, (∃ c ∈ groupCoins groups, c.outpoint = u.outpoint) ∨
      ∃ e ∈ explicit, e.outpoint = u.outpoint := by
    intro u hu
    rw [hspent] at hu
    rcases List.mem_append.1 hu with hu | hu
    · exact .inr ⟨u, hu, rfl⟩
    · obtain ⟨c, hc, rfl⟩ := List.mem_map.1 hu
      exact .inl ⟨c, hown c hc, rfl⟩
  obtain ⟨houtpoints, hreported⟩ := spentCoins_spec hknown
  refine ⟨hown, hnodup, hapart, ?_, houtpoints.trans h.previous.symm, hreported, hspent ▸ h.modEq⟩
  rw [h.previous, hspent, List.map_append, List.map_map]
  rfl

/-- Paying from any of the wallet's coins spends coins of the wallet alone. -/
theorem fundedBy_of_payFromAll {order : CoinOrder} {master : ExtendedKey} {p : Payout}
    {built : BuiltTransaction} (hnodup : ((groupCoins groups).map (·.outpoint)).Nodup)
    (h : payFromAll order master groups p = .ok built) (changeScript : Script) :
    ∃ added, FundedBy groups [] added
      ⟨built.transaction, spentCoins groups [] built.spent, changeScript, built.fee⟩ := by
  obtain ⟨⟨keys, taken, -, hsigns⟩, hoffered, hspent⟩ := payFromAll_ok hnodup h
  obtain ⟨hcoins, hown⟩ := spentCoins_of_groups [] hnodup hoffered
  refine ⟨spentCoins groups [] built.spent, hsigns.fundedBy hcoins.symm hown ?_ ?_ changeScript⟩
  · rw [← hcoins, List.map_map] at hspent
    exact hspent
  · exact fun _ _ => nofun

/-- Paying from explicit inputs spends them all, and other coins of the wallet behind them. -/
theorem fundedBy_of_payFromExplicit {master : ExtendedKey} {p : Payout} {built : BuiltTransaction}
    (hnodup : ((groupCoins groups).map (·.outpoint)).Nodup)
    (h : payFromExplicit master groups explicit p = .ok (some built)) (changeScript : Script) :
    ∃ added, FundedBy groups explicit added
      ⟨built.transaction, spentCoins groups explicit built.spent, changeScript, built.fee⟩ := by
  obtain ⟨known, -, h⟩ := bind_ok h
  obtain ⟨added, keys, hstarts, hsigns⟩ := payFromPool_ok rfl h
  have hspent : built.spent = explicit ++ added.map (·.utxo) := by
    rw [hsigns.spent, List.append_nil, Payout.spend, List.map_map]
    exact List.map_id _
  rw [map_poolOf] at hstarts
  have hmem : ∀ c ∈ added, c ∈ groupCoins groups ∧
      (!explicit.any fun u => u.outpoint == c.outpoint) = true :=
    fun c hc => List.mem_filter.1 (hstarts.subset hc)
  refine ⟨added, hsigns.fundedBy hspent (fun c hc => (hmem c hc).1) ?_ ?_ changeScript⟩
  · exact hnodup.sublist ((hstarts.sublist.trans List.filter_sublist).map _)
  · intro c hc u hu heq
    have hnone := (hmem c hc).2
    rw [Bool.not_eq_true', List.any_eq_false] at hnone
    exact hnone u hu (beq_iff_eq.2 heq)

namespace FundedBy

variable {created : CreatedTransaction}

/-- The inputs are different just when the explicit inputs are. -/
theorem nodup_iff (h : FundedBy groups explicit added created) :
    (created.transaction.inputs.map (·.previous)).Nodup ↔ (explicit.map (·.outpoint)).Nodup := by
  rw [h.previous, List.nodup_append]
  refine ⟨fun hall => hall.1, fun hexplicit => ⟨hexplicit, h.nodup, ?_⟩⟩
  intro o ho o' ho' heq
  obtain ⟨u, hu, rfl⟩ := List.mem_map.1 ho
  obtain ⟨c, hc, rfl⟩ := List.mem_map.1 ho'
  exact h.apart c hc u hu heq

/-- If explicit inputs are said to be what they are, so are the coins that are reported. -/
theorem coinsValue_eq (h : FundedBy groups explicit added created)
    (hnodup : ((groupCoins groups).map (·.outpoint)).Nodup) (hagrees : Agrees groups explicit) :
    coinsValue (created.spentCoins.map (·.utxo)) = coinsValue (explicit ++ added.map (·.utxo)) := by
  have houtpoints : created.spentCoins.map (·.outpoint) =
      (explicit ++ added.map (·.utxo)).map (·.outpoint) := by
    rw [h.outpoints, h.previous, List.map_append, List.map_map]
    rfl
  have hvalues := map_eq_map_of_keys houtpoints (p := fun c => c.value.toNat)
    (q := fun u => u.txout.value.toNat) fun c hc u hu hsame => by
      rcases List.mem_append.1 hu with hu | hu
      · cases h.reported c hc with
        | own hown => rw [hagrees.own u hu c hown hsame]
        | said _ hfirst =>
            exact congrArg UInt64.toNat
              (hagrees.said _ (List.mem_of_find?_eq_some hfirst) u hu hsame)
      · obtain ⟨d, hd, rfl⟩ := List.mem_map.1 hu
        cases h.reported c hc with
        | own hown =>
            rw [List.inj_on_of_nodup_map hnodup hown (h.own d hd) hsame]
            rfl
        | said hother _ => exact absurd hsame.symm (hother d (h.own d hd))
  rw [coinsValue, coinsValue, List.map_map]
  exact congrArg List.sum hvalues

end FundedBy

end

/-- As long as nobody watches the chain, explicit inputs that are enough are spent. -/
theorem exists_run_buildTransaction_explicit {l : Ledger} (hl : Reachable l) (hchain : l.chain = none)
    {w : Wallet} (hw : record? Wallet l.store w.id = some w) (hkeyed : KeyedScripts l.store w)
    {next : NextScript} (hnext : l.nextOf w.id = .ok next) (outputs : List TxOut)
    (houtputs : outputs ≠ []) (feeRate : FeeRate) (explicit : List Utxo) (hexplicit : explicit ≠ [])
    {fee : Float32}
    (hfee : TxBuilder.outputFees feeRate 0 (feeRate.feeFor headerWeight) outputs = .ok fee)
    (hpays : sumAmounts (outputs.map (·.value)) +
        wholeSat (feeAfter feeRate fee (explicit.map .ofKeyHash)) ≤
      totalValue (explicit.map .ofKeyHash)) (order : CoinOrder) :
    ∃ l' groups added created,
      l.run (buildTransaction w.id outputs feeRate explicit order) = (.ok (some created), l') ∧
      FundedBy groups explicit added created := by
  obtain ⟨l', groups, master, hprepared, hrun⟩ :=
    exists_run_buildTransaction hl hchain hw hnext outputs houtputs feeRate explicit order
  obtain ⟨built, hbuilt⟩ := exists_payFromExplicit_eq_ok (p := ⟨outputs, next.script, feeRate⟩)
    (hkeyed.prepared hl hprepared) hprepared.unlocked hprepared.offered houtputs hfee hpays
  obtain ⟨added, hfunded⟩ :=
    fundedBy_of_payFromExplicit hprepared.offered.nodup hbuilt next.script
  refine ⟨l', groups, added, _, hrun (some built) ?_, hfunded⟩
  rw [if_neg (by simpa using hexplicit), hbuilt]

/-- **What a built transaction spends, and what is reported of it.**  A transaction that is built in a
reachable ledger, in whatever order the coins stand, spends the explicit inputs in their order and
behind them other coins of the wallet, each once, and one coin is reported for each input.  Its inputs
are different just when the explicit inputs are.  If what is said of the explicit inputs agrees with
the coins of the wallet and with itself, the reported coins are worth what goes to the outputs and to
the fee. -/
theorem funded_of_buildTransaction {l l' : Ledger} (hl : Reachable l) {walletId : String}
    {outputs : List TxOut} {feeRate : FeeRate} {explicit : List Utxo} {order : CoinOrder}
    {created : CreatedTransaction}
    (h : l.run (buildTransaction walletId outputs feeRate explicit order) =
      (.ok (some created), l')) :
    ∃ groups added, spendableGroups l'.store walletId = .ok groups ∧
      FundedBy groups explicit added created ∧
      ((created.transaction.inputs.map (·.previous)).Nodup ↔ (explicit.map (·.outpoint)).Nodup) ∧
      (Agrees groups explicit → coinsValue (created.spentCoins.map (·.utxo)) < UInt64.size →
        outputsValue created.transaction.outputs + created.fee.toNat < UInt64.size →
          coinsValue (created.spentCoins.map (·.utxo)) =
            outputsValue created.transaction.outputs + created.fee.toNat) := by
  obtain ⟨w, next, groups, master, built, rfl, hprepared, hbuilt, hcreated⟩ :=
    run_buildTransaction_ok hl h
  obtain ⟨b, rfl, rfl⟩ := Option.map_eq_some_iff.1 hcreated.symm
  have hnodup := hprepared.offered.nodup
  obtain ⟨added, hfunded⟩ : ∃ added, FundedBy groups explicit added
      ⟨b.transaction, spentCoins groups explicit b.spent, next.script, b.fee⟩ := by
    split at hbuilt
    · rename_i hnone
      obtain rfl : explicit = [] := List.isEmpty_iff.1 hnone
      obtain ⟨b', hpay, hb⟩ := map_ok hbuilt
      obtain rfl := Option.some.inj hb
      exact fundedBy_of_payFromAll hnodup hpay next.script
    · exact fundedBy_of_payFromExplicit hnodup hbuilt next.script
  refine ⟨groups, added, hprepared.listed, hfunded, hfunded.nodup_iff, fun hagrees hcoins hpaid => ?_⟩
  have hmodEq := hfunded.modEq
  rw [← hfunded.coinsValue_eq hnodup hagrees] at hmodEq
  exact hmodEq.eq_of_lt_of_lt hcoins hpaid

/-- A wallet pays 5000 from its coin of 5600, which is named as an explicit input. -/
theorem funded_of_paidWallet :
    ∃ (l l' : Ledger) (walletId : String) (u : Utxo) (created : CreatedTransaction),
      Reachable l ∧
      l.run (buildTransaction walletId [⟨5000, ⟨[81]⟩⟩] .minimumRelay [u]) =
        (.ok (some created), l') ∧
      (created.transaction.inputs.map (·.previous)).Nodup := by
  obtain ⟨l, w, next, h⟩ := exists_paidWallet 5600
  obtain ⟨l', -, -, created, hrun, -⟩ := exists_run_buildTransaction_explicit h.reachable
    h.unwatched h.stored h.keyed h.derivable [⟨5000, ⟨[81]⟩⟩] (List.cons_ne_nil _ _) .minimumRelay
    [(paidCoin next.script 5600).utxo] (List.cons_ne_nil _ _) rfl sumAmounts_le_of_oneCoin .listed
  obtain ⟨groups, added, -, -, hnodup, -⟩ := funded_of_buildTransaction h.reachable hrun
  exact ⟨l, l', w.id, _, created, h.reachable, hrun, hnodup.2 (List.nodup_singleton _)⟩

/-- A wallet pays 5600 from its coin of 3000, which is named twice. -/
theorem not_nodup_of_namedTwice :
    ∃ (l l' : Ledger) (walletId : String) (c : Coin) (created : CreatedTransaction),
      Reachable l ∧ record? Coin l.store c.outpoint = some c ∧ c.value = 3000 ∧
      l.run (buildTransaction walletId [⟨5600, ⟨[81]⟩⟩] .minimumRelay [c.utxo, c.utxo]) =
        (.ok (some created), l') ∧
      ¬ (created.transaction.inputs.map (·.previous)).Nodup := by
  obtain ⟨l, w, next, h⟩ := exists_paidWallet 3000
  have hpays : sumAmounts [5600] + wholeSat (FeeRate.minimumRelay.feeFor headerWeight +
      FeeRate.minimumRelay.feeFor (TxOut.weight ⟨5600, ⟨[81]⟩⟩) +
        FeeRate.minimumRelay.feeFor (inputWeight + keyHashSatisfactionWeight) +
          FeeRate.minimumRelay.feeFor (inputWeight + keyHashSatisfactionWeight)) ≤
      sumAmounts [3000, 3000] := by
    decide +kernel
  obtain ⟨l', groups, added, created, hrun, hfunded⟩ := exists_run_buildTransaction_explicit
    h.reachable h.unwatched h.stored h.keyed h.derivable [⟨5600, ⟨[81]⟩⟩] (List.cons_ne_nil _ _)
    .minimumRelay [(paidCoin next.script 3000).utxo, (paidCoin next.script 3000).utxo]
    (List.cons_ne_nil _ _) rfl hpays .listed
  refine ⟨l, l', w.id, paidCoin next.script 3000, created, h.reachable, (h.coins _ _).2 ⟨rfl, rfl⟩,
    rfl, hrun, ?_⟩
  rw [hfunded.nodup_iff]
  simp

end CoinLedger
