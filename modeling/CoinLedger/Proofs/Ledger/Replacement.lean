import CoinLedger.Proofs.Ledger.Reports
import CoinLedger.Proofs.Ledger.SpendableGroups

/-! # What a replacement leaves

When a transaction is replaced, nothing of it is left: `Gone` says so of its record, its scripts,
the coins that it made and the spends that it is named in.  An event touches a transaction if it is
of it or spends one of its outputs (`TransactionEvent.Touches`).  After an event that does not touch
a transaction, it is gone if it was gone before or the event replaces it (`Gone.of_observation`).

A transaction is `Settled` in a history that does not touch it any more once it is replaced.  Then
it is gone in the end (`gone_of_reports`).  In causal order this only asks that none of its outputs
is spent late (`Causal.settled_iff`).

A replacement does not reach further: the coins of a transaction that spends an output of the
replaced one stay, unless that transaction is replaced as well.  `offered_of_reports` says both for
the coins that are offered to be spent, and `offered_below_replaced` shows coins that are offered
below a replaced transaction. -/

namespace CoinLedger

open Ledger

/-! ### Traces of a transaction -/

/-- Nothing of the transaction is left. -/
structure Gone (s : Store) (txid : Txid) : Prop where
  transaction : record? TransactionRecord s txid = none
  transactionScript : ∀ k, k.txid = txid → record? TransactionScript s k = none
  /-- There are no coins that it made. -/
  funded : ∀ o, o.txid = txid → record? Coin s o = none
  /-- There are no coins that it spends. -/
  spent : ∀ o c t, record? Coin s o = some c → c.spentBy = some t → t.txid ≠ txid

namespace TransactionEvent

/-- The event is of the transaction, or spends one of its outputs. -/
def Touches (e : TransactionEvent) (txid : Txid) : Prop :=
  e.txid = txid ∨ ∃ i ∈ e.inputs, i.previous.txid = txid

instance (e : TransactionEvent) (txid : Txid) : Decidable (e.Touches txid) :=
  inferInstanceAs (Decidable (_ ∨ _))

variable {e : TransactionEvent} {o : Outpoint} {found : Option Coin} {c : Coin}

theorem ne_of_mem_made (h : ¬e.Touches o.txid) : ∀ u ∈ e.made, u.outpoint ≠ o := by
  rintro u hu rfl
  exact h (.inl (txid_of_mem_made hu).symm)

theorem ne_of_mem_spent (h : ¬e.Touches o.txid) : ∀ u ∈ e.spent, u.outpoint ≠ o := by
  rintro u hu rfl
  obtain ⟨i, hi, rfl⟩ := List.mem_map.1 hu
  exact h (.inr ⟨i, hi, rfl⟩)

theorem make_eq_of_ne (h : ∀ u ∈ e.made, u.outpoint ≠ o) (found : Option Coin) :
    e.make o found = found := by
  rcases e.make_cases (o := o) found with ⟨heq, -⟩ | ⟨-, c, -, -, hmade, hc⟩
  · exact heq
  · exact absurd hc (h _ hmade)

theorem spend_eq_of_ne (h : ∀ u ∈ e.spent, u.outpoint ≠ o) (found : Option Coin) :
    e.spend o found = found := by
  rcases e.spend_cases (o := o) found with ⟨heq, -⟩ | ⟨s, c, hspends, -⟩
  · exact heq
  · obtain ⟨u, hu, huo⟩ := exists_spends_iff.1 ⟨s, hspends⟩
    exact absurd huo (h u hu)

/-- An event that does not touch the transaction of a coin can only release the coin. -/
theorem onCoin_of_not_touches (h : ¬e.Touches o.txid) (found : Option Coin) :
    e.onCoin o found = e.release o found := by
  rw [onCoin, make_eq_of_ne (ne_of_mem_made h), spend_eq_of_ne (ne_of_mem_spent h)]

/-- What spends a coin after an event is the transaction of the event, or spent it before and is
not replaced by the event. -/
theorem spentBy_of_onCoin {t : SpentBy} (h : e.onCoin o found = some c)
    (ht : c.spentBy = some t) :
    t.txid = e.txid ∨
      ∃ c₀, found = some c₀ ∧ c₀.spentBy = some t ∧ e.effectiveReplaced ≠ some t.txid := by
  rw [onCoin] at h
  rcases e.spend_cases (o := o) (e.make o (e.release o found)) with
    ⟨heq, -⟩ | ⟨s, c', hspends, heq, hs, -⟩
  · rw [heq] at h
    rcases e.make_cases (o := o) (e.release o found) with ⟨hmake, -⟩ | ⟨-, c', hmake, hnone, -, -⟩
    · rw [hmake, release] at h
      cases hr : e.effectiveReplaced with
      | none =>
          rw [hr] at h
          exact .inr ⟨c, h, ht, by simp⟩
      | some r =>
          rw [hr] at h
          simp only [Operation.onCoin] at h
          split at h
          · cases h
          · obtain ⟨c₀, hc₀, rfl⟩ := Option.map_eq_some_iff.1 h
            obtain ⟨hspent, hne⟩ := Coin.spentBy_released.1 ht
            exact .inr ⟨c₀, hc₀, hspent, by simpa using hne.symm⟩
    · obtain rfl : c' = c := Option.some.inj (hmake.symm.trans h)
      rw [hnone] at ht
      cases ht
  · obtain rfl : c' = c := Option.some.inj (heq.symm.trans h)
    obtain rfl : s = t := Option.some.inj (hs.symm.trans ht)
    exact .inl hspends.1

/-- A coin stays unless its transaction is replaced. -/
theorem isSome_onCoin (ho : e.effectiveReplaced ≠ some o.txid) (hfound : found.isSome = true) :
    (e.onCoin o found).isSome = true := by
  obtain ⟨c, rfl⟩ := Option.isSome_iff_exists.1 hfound
  obtain ⟨c', hrelease, -⟩ := release_some ho c
  rw [onCoin, hrelease]
  rcases e.make_cases (o := o) (some c') with ⟨hmake, -⟩ | ⟨hnone, -⟩
  · rw [hmake]
    rcases e.spend_cases (o := o) (some c') with ⟨heq, -⟩ | ⟨s, d, -, heq, -⟩
    · rw [heq]
      rfl
    · rw [heq]
      rfl
  · cases hnone

/-- There is a coin for an output after the event that makes it. -/
theorem isSome_onCoin_of_made {u : Utxo} (hu : u ∈ e.made) (found : Option Coin) :
    (e.onCoin u.outpoint found).isSome = true := by
  have hmade : (e.make u.outpoint (e.release u.outpoint found)).isSome = true := by
    rcases e.make_cases (o := u.outpoint) (e.release u.outpoint found) with
      ⟨heq, hnone⟩ | ⟨-, c, heq, -⟩
    · rw [heq]
      cases hrelease : e.release u.outpoint found with
      | some c => rfl
      | none => exact absurd rfl (hnone hrelease u hu)
    · rw [heq]
      rfl
  rw [onCoin]
  rcases e.spend_cases (o := u.outpoint) (e.make u.outpoint (e.release u.outpoint found)) with
    ⟨heq, -⟩ | ⟨s, c, -, heq, -⟩
  · rw [heq]
    exact hmade
  · rw [heq]
    rfl

end TransactionEvent

/-! ### Steps -/

section

variable {s s' : Store} {w : Wallet} {source : TrackedSource} {e : TransactionEvent} {txid : Txid}

/-- After an event that does not touch it, a transaction is gone if it was gone before or the event
replaces it. -/
theorem Gone.of_observation (hs : WellFormed s) (h : commit s (observation w source e) = .ok s')
    (htouch : ¬e.Touches txid) (hgone : e.effectiveReplaced = some txid ∨ Gone s txid) :
    Gone s' txid := by
  have hne : e.txid ≠ txid := fun heq => htouch (.inl heq)
  constructor
  · rw [record?_transaction_observation hs h, TransactionEvent.onTransaction, if_neg hne]
    split
    · rfl
    · rename_i hkept
      exact (hgone.resolve_left hkept).transaction
  · rintro k rfl
    rw [record?_transactionScript_observation hs h, TransactionEvent.onTransactionScript,
      TransactionEvent.mention, if_neg hne, Option.or_none]
    split
    · rfl
    · rename_i hkept
      exact (hgone.resolve_left hkept).transactionScript k rfl
  · rintro o rfl
    rw [record?_coin_observation hs h, TransactionEvent.onCoin_of_not_touches htouch]
    rcases hgone with hreplaced | hgone
    · rw [TransactionEvent.release, hreplaced]
      exact if_pos rfl
    · rw [hgone.funded o rfl, e.release_none]
  · intro o c t hc ht
    rw [record?_coin_observation hs h] at hc
    rcases TransactionEvent.spentBy_of_onCoin hc ht with hsame | ⟨c₀, hc₀, ht₀, hkept⟩
    · rw [hsame]
      exact hne
    · rcases hgone with hreplaced | hgone
      · rintro rfl
        exact hkept hreplaced
      · exact hgone.spent o c₀ t hc₀ ht₀

end

/-! ### Histories -/

/-- Nothing touches the transaction from an event on that replaces it. -/
structure Settled (events : List TransactionEvent) (txid : Txid) : Prop where
  after : events.Pairwise fun a b => a.effectiveReplaced = some txid → ¬b.Touches txid
  atOnce : ∀ e ∈ events, e.effectiveReplaced = some txid → ¬e.Touches txid

theorem Settled.not_touches_last {events heard : List TransactionEvent} {e : TransactionEvent}
    {txid : Txid} (h : Settled events txid) (hheard : heard ++ [e] <+: events)
    (hreplaced : Replaced (heard ++ [e]) txid) : ¬e.Touches txid := by
  have hafter := (List.pairwise_append.1 (h.after.sublist hheard.sublist)).2.2
  rcases replaced_append.1 hreplaced with ⟨a, ha, hr⟩ | hr
  · exact hafter a ha e (by simp) hr
  · exact h.atOnce e (hheard.subset (by simp)) hr

section

variable {l : Ledger} {reports : List Report}

/-- A transaction that was replaced, and not touched from then on, is gone. -/
theorem gone_of_reports (hs : WellFormed l.store) {txid : Txid}
    (h : Settled (heard l.store reports) txid) (hreplaced : Replaced (heard l.store reports) txid) :
    Gone (l.serveAll (reports.map Report.request)).store txid := by
  refine heard_induction hs (P := fun events s => Replaced events txid → Gone s txid) ?_ ?_ hreplaced
  · rintro ⟨e, he, -⟩
    cases he
  · intro events s s' w source e hheard hwf ih hcommit hreplaced
    exact .of_observation hwf hcommit (h.not_touches_last hheard hreplaced)
      ((replaced_append.1 hreplaced).symm.imp_right ih)

/-- The transactions that were heard of are recorded, unless they were replaced. -/
theorem isSome_transaction_of_reports (hs : WellFormed l.store) :
    ∀ e ∈ heard l.store reports, ¬Replaced (heard l.store reports) e.txid →
      (record? TransactionRecord (l.serveAll (reports.map Report.request)).store e.txid).isSome =
        true := by
  refine heard_induction hs (P := fun events s => ∀ e ∈ events,
    ¬Replaced (heard l.store reports) e.txid →
      (record? TransactionRecord s e.txid).isSome = true) ?_ ?_
  · intro e he
    cases he
  · intro events s s' w source e hheard hwf ih hcommit a ha hlive
    have he : e ∈ heard l.store reports := hheard.subset (by simp)
    rw [record?_transaction_observation hwf hcommit, TransactionEvent.onTransaction]
    split
    · rfl
    · rename_i hne
      rcases List.mem_append.1 ha with ha | ha
      · rw [if_neg fun hr => hlive ⟨e, he, hr⟩]
        exact ih a ha hlive
      · obtain rfl : a = e := by simpa using ha
        exact absurd rfl hne

/-- The coins that were made are there, unless their transactions were replaced. -/
theorem isSome_coin_of_reports (hs : WellFormed l.store) :
    ∀ e ∈ heard l.store reports, ¬Replaced (heard l.store reports) e.txid → ∀ u ∈ e.made,
      (record? Coin (l.serveAll (reports.map Report.request)).store u.outpoint).isSome = true := by
  refine heard_induction hs (P := fun events s => ∀ e ∈ events,
    ¬Replaced (heard l.store reports) e.txid → ∀ u ∈ e.made,
      (record? Coin s u.outpoint).isSome = true) ?_ ?_
  · intro e he
    cases he
  · intro events s s' w source e hheard hwf ih hcommit a ha hlive u hu
    have he : e ∈ heard l.store reports := hheard.subset (by simp)
    rw [record?_coin_observation hwf hcommit]
    rcases List.mem_append.1 ha with ha | ha
    · refine TransactionEvent.isSome_onCoin ?_ (ih a ha hlive u hu)
      rw [TransactionEvent.txid_of_mem_made hu]
      exact fun hr => hlive ⟨e, he, hr⟩
    · obtain rfl : a = e := by simpa using ha
      exact TransactionEvent.isSome_onCoin_of_made hu _

end

/-! ### Coins that are offered -/

theorem Sound.mem_of_unspentCoins {s : Store} (hs : Sound Coin s) {walletId : String}
    {unspent : List Coin} (h : unspentCoins s walletId = .ok unspent) {c : Coin}
    (hc : c ∈ unspent) : record? Coin s c.outpoint = some c ∧ c.spentBy = none := by
  obtain ⟨scripts, hscripts, h⟩ := bind_ok h
  rw [hs.allCoins] at h
  rw [← Except.ok.inj h] at hc
  obtain ⟨hmem, hkeep⟩ := List.mem_filter.1 hc
  refine ⟨hs.mem_coins.1 hmem, ?_⟩
  simp only [Coin.isSpent, Bool.and_eq_true, Bool.not_eq_true', Option.isSome_eq_false_iff,
    Option.isNone_iff_eq_none] at hkeep
  exact hkeep.1

theorem Sound.mem_of_spendableGroups {s : Store} (hs : Sound Coin s) {walletId : String}
    {groups : List CoinGroup} (h : spendableGroups s walletId = .ok groups) {c : Coin}
    (hc : c ∈ groupCoins groups) : record? Coin s c.outpoint = some c ∧ c.spentBy = none := by
  obtain ⟨scripts, hscripts, h⟩ := bind_ok h
  rw [hs.allCoins] at h
  rw [← Except.ok.inj h, groupCoins] at hc
  simp only [List.flatMap_map, List.mem_flatMap, List.mem_map, List.mem_filter,
    List.mem_filterMap] at hc
  obtain ⟨path, -, _, ⟨⟨c', ⟨hmem, hunspent⟩, howned⟩, -⟩, rfl⟩ := hc
  obtain ⟨path', -, rfl⟩ := Option.map_eq_some_iff.1 howned
  refine ⟨hs.mem_coins.1 hmem, ?_⟩
  simpa [Coin.isSpent] using hunspent

theorem exists_spendableGroups_eq_ok {s : Store} (hs : WellFormed s) (walletId : String) :
    ∃ groups, spendableGroups s walletId = .ok groups := by
  obtain ⟨groups, hgroups, -⟩ := exists_groupsOf hs walletId
  exact ⟨groups, hgroups⟩

/-- **No coin of a replaced transaction is offered.**  After reports the store has no coin that a
transaction made which was replaced and is settled.  So the unspent coins and the spendable coins of
a wallet, which can always be listed, are not coins of such transactions.  A replacement reaches no
further: a transaction that was heard of and not replaced is recorded, and each output that it made
has its coin. -/
theorem offered_of_reports {l : Ledger} (hs : WellFormed l.store) (reports : List Report) :
    ∃ s, (l.serveAll (reports.map Report.request)).store = s ∧
      (∀ txid, Replaced (heard l.store reports) txid → Settled (heard l.store reports) txid →
        coinsFundedBy s txid = .ok []) ∧
      (∀ walletId, ∃ unspent groups, unspentCoins s walletId = .ok unspent ∧
        spendableGroups s walletId = .ok groups ∧ ∀ c, c ∈ unspent ∨ c ∈ groupCoins groups →
          Replaced (heard l.store reports) c.outpoint.txid →
            ¬Settled (heard l.store reports) c.outpoint.txid) ∧
      ∀ e ∈ heard l.store reports, ¬Replaced (heard l.store reports) e.txid →
        (∃ t, getEntity TransactionRecord s e.txid = .ok (some t)) ∧
        ∀ u ∈ e.made, ∃ c, getEntity Coin s u.outpoint = .ok (some c) := by
  have hs' := hs.serveAll_requests reports
  refine ⟨_, rfl, ?_, ?_, ?_⟩
  · intro txid hreplaced hsettled
    have hgone := gone_of_reports hs hsettled hreplaced
    have hfunded : coinsFundedBy (l.serveAll (reports.map Report.request)).store txid = .ok _ :=
      hs'.sound.scanEntities rfl
    rw [hfunded]
    refine congrArg Except.ok (List.eq_nil_iff_forall_not_mem.2 fun c hc => ?_)
    obtain ⟨hc, htxid⟩ := hs'.sound.mem_coinsFundedBy.1 hc
    rw [hgone.funded c.outpoint htxid] at hc
    cases hc
  · intro walletId
    have hscripts : walletScripts (l.serveAll (reports.map Report.request)).store walletId = .ok _ :=
      hs'.sound.scanEntities rfl
    obtain ⟨unspent, hunspent, -⟩ := exists_unspentCoins_eq_ok hs'.sound hscripts
    obtain ⟨groups, hgroups⟩ := exists_spendableGroups_eq_ok hs' walletId
    refine ⟨unspent, groups, hunspent, hgroups, ?_⟩
    intro c hc hreplaced hsettled
    have hstored : record? Coin (l.serveAll (reports.map Report.request)).store c.outpoint =
        some c := by
      rcases hc with hc | hc
      · exact (hs'.sound.mem_of_unspentCoins hunspent hc).1
      · exact (hs'.sound.mem_of_spendableGroups hgroups hc).1
    rw [(gone_of_reports hs hsettled hreplaced).funded c.outpoint rfl] at hstored
    cases hstored
  · intro e he hlive
    constructor
    · obtain ⟨t, ht⟩ := Option.isSome_iff_exists.1 (isSome_transaction_of_reports hs e he hlive)
      exact ⟨t, by rw [hs'.sound.getEntity, ht]⟩
    · intro u hu
      obtain ⟨c, hc⟩ := Option.isSome_iff_exists.1 (isSome_coin_of_reports hs e he hlive u hu)
      exact ⟨c, by rw [hs'.sound.getEntity, hc]⟩

/-- A payment is replaced by another one. -/
theorem offered_of_replacedPayment :
    ∃ reports s, reports = [aliasReport 1 1000 none none, aliasReport 2 900 none (some 1)] ∧
      (aliasLedger.serveAll (reports.map Report.request)).store = s ∧
      coinsFundedBy s (repeatedTxid 1) = .ok [] ∧
      (∃ t, getEntity TransactionRecord s (repeatedTxid 2) = .ok (some t)) ∧
      ∃ c, getEntity Coin s ⟨repeatedTxid 2, 0⟩ = .ok (some c) := by
  obtain ⟨s, hs, hfunded, -, hkept⟩ := offered_of_reports reachable_aliasLedger.wellFormed
    [aliasReport 1 1000 none none, aliasReport 2 900 none (some 1)]
  rw [heard_aliasLedger (by simp)] at hfunded hkept
  obtain ⟨hrecord, hmade⟩ := hkept (aliasReport 2 900 none (some 1)).event (by simp) (by decide)
  refine ⟨_, s, rfl, hs, hfunded _ (by decide) ⟨by decide, by decide⟩, hrecord, ?_⟩
  exact hmade (madeCoin (repeatedTxid 2) ⟨0, aliasScript, 900, some "0"⟩).utxo (by decide)

/-! ### Causal order -/

/-- Each event is heard once, and every transaction is heard of before the transactions that spend
its outputs or replace it. -/
structure Causal (events : List TransactionEvent) : Prop where
  once : events.Nodup
  spends : events.Pairwise fun a b => ∀ i ∈ a.inputs, i.previous.txid ≠ b.txid
  replaces : events.Pairwise fun a b => a.effectiveReplaced ≠ some b.txid

/-- In causal order a transaction is settled if nothing spends an output of it from an event on that
replaces it. -/
theorem Causal.settled_iff {events : List TransactionEvent} (h : Causal events) {txid : Txid} :
    Settled events txid ↔
      (events.Pairwise fun a b => a.effectiveReplaced = some txid →
        ∀ i ∈ b.inputs, i.previous.txid ≠ txid) ∧
      ∀ e ∈ events, e.effectiveReplaced = some txid → ∀ i ∈ e.inputs, i.previous.txid ≠ txid := by
  constructor
  · intro hsettled
    exact ⟨hsettled.after.imp fun htouch hr i hi heq => htouch hr (.inr ⟨i, hi, heq⟩),
      fun e he hr i hi heq => hsettled.atOnce e he hr (.inr ⟨i, hi, heq⟩)⟩
  · rintro ⟨hafter, hatOnce⟩
    refine ⟨(hafter.and h.replaces).imp fun {a b} hab hr => ?_, fun e he hr => ?_⟩
    · rintro (rfl | ⟨i, hi, heq⟩)
      · exact hab.2 hr
      · exact hab.1 hr i hi heq
    · rintro (rfl | ⟨i, hi, heq⟩)
      · exact e.effectiveReplaced_ne hr
      · exact hatOnce e he hr i hi heq

/-! ### Coins below a replaced transaction -/

/-- The coin is offered to be spent: it is listed as unspent, and its key is known. -/
def Offered (s : Store) (c : Coin) : Prop :=
  ∃ walletId unspent groups, unspentCoins s walletId = .ok unspent ∧ c ∈ unspent ∧
    spendableGroups s walletId = .ok groups ∧ c ∈ groupCoins groups

/-- A coin of a wallet with a known path is offered as long as nothing spends it. -/
theorem offered_of_walletScript {s : Store} (hs : WellFormed s) {c : Coin}
    (hc : record? Coin s c.outpoint = some c) (hunspent : c.spentBy = none) {walletId path : String}
    (hscript : record? WalletScript s ⟨walletId, c.script⟩ = some ⟨walletId, c.script, some path⟩) :
    Offered s c := by
  have hscripts : walletScripts s walletId = .ok (listedScripts s walletId) :=
    hs.sound.scanEntities rfl
  have hmem : (⟨walletId, c.script, some path⟩ : WalletScript) ∈ listedScripts s walletId := by
    rw [listedScripts, hs.sound.mem_recordsFrom rfl]
    exact ⟨hscript, c.script.bytes, rfl⟩
  obtain ⟨unspent, hlisted, hmemUnspent⟩ := exists_unspentCoins_eq_ok hs.sound hscripts
  obtain ⟨groups, hgroups, hof⟩ := exists_groupsOf hs walletId
  obtain ⟨path', hpath'⟩ := exists_pathOf?_eq_some hmem rfl rfl
  obtain ⟨g, hg, -, hcg⟩ := (hof.mem path' c).2 ⟨hc, hunspent, hpath'⟩
  refine ⟨walletId, unspent, groups, hlisted, ?_, hgroups, List.mem_flatMap.2 ⟨g, hg, hcg⟩⟩
  rw [hmemUnspent]
  exact ⟨hs.sound.mem_coins.2 hc, List.mem_map.2 ⟨_, hmem, rfl⟩, by simp [Coin.isSpent, hunspent]⟩

/-- A report of a single script of a wallet merges it with what is known, and nothing else. -/
theorem onAll_batch_of_reportedScripts {s : Store} {r : Report} {w : Wallet} {known : WalletScript}
    (hw : r.wallet? s = some w) (hsource : r.source.isDeterministic = true)
    (hknown : reportedScripts w r.source r.event = [known]) (k : WalletScriptKey)
    (found : Option WalletScript) :
    Pointwise.onAll k (r.batch s) found =
      if rowKey WalletScript (Entity.key known) = rowKey WalletScript k then some (known.fill found)
      else found := by
  have hmerge : (Operation.mergeWalletScript known).onWalletScript k found =
      if rowKey WalletScript (Entity.key known) = rowKey WalletScript k then some (known.fill found)
      else found := rfl
  rw [Report.batch, hw]
  simp only
  rw [onAll_walletScript_observation, hknown, if_pos hsource, List.map_singleton,
    Pointwise.onAll_cons, Pointwise.onAll_nil]
  exact hmerge

/-- What the reports of the examples make of the script of the wallet. -/
theorem exists_record?_walletScript_aliasLedger {r : Report} {reports : List Report}
    (h : ∀ r' ∈ r :: reports, IsAliasReport r') :
    ∃ walletId path, record? WalletScript
      (aliasLedger.serveAll ((r :: reports).map Report.request)).store ⟨walletId, aliasScript⟩ =
        some ⟨walletId, aliasScript, some path⟩ := by
  obtain ⟨id, -, hw⟩ := exists_wallet_aliasLedger
  let known : WalletScript := ⟨id, aliasScript, some ((aliasWallet id).pathFor "0")⟩
  have hbatch : ∀ r' ∈ r :: reports, ∀ found : Option WalletScript,
      Pointwise.onAll (Entity.key known) (r'.batch aliasLedger.store) found =
        some (known.fill found) := by
    intro r' hr' found
    obtain ⟨b, value, spends, replaces, rfl⟩ := h r' hr'
    refine (onAll_batch_of_reportedScripts (w := aliasWallet id) ?_ rfl rfl _ found).trans
      (if_pos rfl)
    rw [Report.wallet?, show (aliasReport b value spends replaces).wallet = "alias" from rfl, hw]
  have hrest : ∀ served ⊆ reports, Pointwise.onAll (Entity.key known)
      (served.flatMap (Report.batch aliasLedger.store)) (some known) = some known := by
    intro served
    induction served with
    | nil => exact fun _ => rfl
    | cons r' served ih =>
        intro hserved
        have hmem : r' ∈ r :: reports := List.mem_cons_of_mem _ (hserved List.mem_cons_self)
        rw [List.flatMap_cons, Pointwise.onAll_append, hbatch r' hmem]
        exact ih fun r'' hr'' => hserved (List.mem_cons_of_mem _ hr'')
  refine ⟨id, (aliasWallet id).pathFor "0", ?_⟩
  rw [record?_serveAll reachable_aliasLedger.wellFormed, record?_aliasLedger (by decide),
    List.flatMap_cons, Pointwise.onAll_append]
  have hfirst := hbatch r List.mem_cons_self none
  exact (congrArg _ hfirst).trans (hrest reports (List.Subset.refl _))

/-- In the examples a coin that nothing spends is offered. -/
theorem offered_aliasLedger {r : Report} {reports : List Report} {c : Coin}
    (h : ∀ r' ∈ r :: reports, IsAliasReport r')
    (hc : ((r :: reports).map Report.event).foldl (fun found e => e.onCoin c.outpoint found) none =
      some c) (hscript : c.script = aliasScript) (hunspent : c.spentBy = none) :
    Offered (aliasLedger.serveAll ((r :: reports).map Report.request)).store c := by
  have hwf := reachable_aliasLedger.wellFormed
  have hstored : record? Coin (aliasLedger.serveAll ((r :: reports).map Report.request)).store
      c.outpoint = some c := by
    rw [record?_coin_serveAll hwf, record?_aliasLedger (by decide), heard_aliasLedger h, hc]
  obtain ⟨walletId, path, hwalletScript⟩ := exists_record?_walletScript_aliasLedger h
  rw [← hscript] at hwalletScript
  exact offered_of_walletScript (hwf.serveAll_requests _) hstored hunspent hwalletScript

/-- Two histories in causal order.  In the first a transaction is replaced, and a coin is offered of
a transaction that spends an output of it.  In the second a transaction is replaced and an output
of it is spent afterwards; when the spending transaction is replaced too, the coin is offered. -/
theorem offered_below_replaced :
    (∃ reports : List Report, Causal (heard aliasLedger.store reports) ∧
      Replaced (heard aliasLedger.store reports) (repeatedTxid 1) ∧
      (∃ e ∈ heard aliasLedger.store reports, e.txid = repeatedTxid 2 ∧
        ∃ i ∈ e.inputs, i.previous.txid = repeatedTxid 1) ∧
      Offered (aliasLedger.serveAll (reports.map Report.request)).store
        ⟨⟨repeatedTxid 2, 0⟩, aliasScript, 900, none⟩) ∧
    ∃ reports : List Report, Causal (heard aliasLedger.store reports) ∧
      Replaced (heard aliasLedger.store reports) (repeatedTxid 1) ∧
      Offered (aliasLedger.serveAll (reports.map Report.request)).store
        ⟨⟨repeatedTxid 1, 0⟩, aliasScript, 1000, none⟩ := by
  constructor
  · refine ⟨[aliasReport 1 1000 none none, aliasReport 2 900 (some 1) none,
      aliasReport 3 800 none (some 1)], ?_, ?_, ?_, offered_aliasLedger (by simp) (by decide) rfl rfl⟩
    all_goals rw [heard_aliasLedger (by simp)]
    · exact ⟨by decide, by decide, by decide⟩
    · exact ⟨(aliasReport 3 800 none (some 1)).event, by simp, by decide⟩
    · exact ⟨(aliasReport 2 900 (some 1) none).event, by simp, rfl, by decide⟩
  · refine ⟨[aliasReport 1 1000 none none, aliasReport 2 900 none (some 1),
      aliasReport 3 800 (some 1) none, aliasReport 4 700 none (some 3)], ?_, ?_,
      offered_aliasLedger (by simp) (by decide) rfl rfl⟩
    all_goals rw [heard_aliasLedger (by simp)]
    · exact ⟨by decide, by decide, by decide⟩
    · exact ⟨(aliasReport 2 900 none (some 1)).event, by simp, by decide⟩

end CoinLedger
