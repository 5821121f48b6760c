import Mathlib.Data.List.Induction
import CoinLedger.Ledger.Wallets
import CoinLedger.Proofs.Ledger.CoinTable

/-! # The coins after a history of transactions

A history is a list of events in the order in which they were observed.  `Replaced` says that some
event of it replaces a transaction; what such a transaction made and spent must be undone.
`Consistent` lists what a history has to obey for that: nothing is heard of a transaction once it is
replaced, an output is always reported with the same script and value, nothing spends an output of
a replaced transaction, and the spends that last come after those that do not, and agree.

`TransactionEvent.onCoin` is what one event makes of one coin, and `foldl_onCoin_observation` says
that this is what recording the event does.  `Follows` says what the events heard so far have made of a
coin whose transaction is not replaced; `Follows.step` carries it over one event.  The result is
`coins_of_observations`: the table holds the outputs that the history leaves, and says of each
which input spends it. -/

namespace CoinLedger

open Ledger

namespace TransactionEvent

/-- The outputs that an event reports to be made. -/
def made (e : TransactionEvent) : List Utxo := e.outputs.map fun p => (madeCoin e.txid p).utxo

/-- The outputs that an event reports to be spent. -/
def spent (e : TransactionEvent) : List Utxo := e.inputs.map fun i => (spentCoin e.txid i).utxo

/-- The outputs that an event reports. -/
def mentions (e : TransactionEvent) : List Utxo := e.made ++ e.spent

/-- The event reports that the input spends the output. -/
def Spends (e : TransactionEvent) (o : Outpoint) (s : SpentBy) : Prop :=
  s.txid = e.txid ∧ ∃ i ∈ e.inputs, i.previous = o ∧ i.inputIndex = s.inputIndex

instance (e : TransactionEvent) (o : Outpoint) (s : SpentBy) : Decidable (e.Spends o s) :=
  inferInstanceAs (Decidable (_ ∧ _))

/-- What an event leaves of a coin before it reports what it makes and spends. -/
def release (e : TransactionEvent) (o : Outpoint) (found : Option Coin) : Option Coin :=
  match e.effectiveReplaced with
  | some r => (Operation.retractTransaction r).onCoin o found
  | none => found

/-- The coin after the outputs of an event. -/
def make (e : TransactionEvent) (o : Outpoint) (found : Option Coin) : Option Coin :=
  e.outputs.foldl (fun found p => (Operation.insertCoin (madeCoin e.txid p)).onCoin o found) found

/-- The coin after the inputs of an event. -/
def spend (e : TransactionEvent) (o : Outpoint) (found : Option Coin) : Option Coin :=
  e.inputs.foldl (fun found i => (Operation.mergeCoinSpend (spentCoin e.txid i)).onCoin o found)
    found

/-- What an observed transaction makes of the coin with this outpoint. -/
def onCoin (e : TransactionEvent) (o : Outpoint) (found : Option Coin) : Option Coin :=
  e.spend o (e.make o (e.release o found))

theorem effectiveReplaced_ne (e : TransactionEvent) : e.effectiveReplaced ≠ some e.txid := by
  intro h
  have hne := (Option.filter_eq_some_iff.1 h).2
  simp at hne

end TransactionEvent

/-! ### Recording an event -/

theorem foldl_onCoin_eq {o : Outpoint} {ops : List Operation}
    (h : ∀ op ∈ ops, EntityKind.coin ∉ op.writes) (found : Option Coin) :
    ops.foldl (fun found op => op.onCoin o found) found = found := by
  induction ops with
  | nil => rfl
  | cons op ops ih =>
      rw [List.foldl_cons, Operation.onCoin_of_notMem_writes (h op List.mem_cons_self)]
      exact ih fun op' hop => h op' (List.mem_cons_of_mem _ hop)

/-- What an event writes apart from its transaction and the coins. -/
def bookkeeping (w : Wallet) (source : TrackedSource) (e : TransactionEvent) : Batch :=
  e.scripts.map (fun s => .insertScript ⟨s⟩) ++
    (reportedScripts w source e).map
      (if source.isDeterministic then .mergeWalletScript else .insertWalletScript) ++
    e.inputs.map (fun i => .insertTransactionScript ⟨e.txid, i.script, true⟩) ++
    e.outputs.map fun p => .insertTransactionScript ⟨e.txid, p.script, false⟩

theorem writes_of_mem_bookkeeping {w : Wallet} {source : TrackedSource} {e : TransactionEvent}
    {op : Operation} (hop : op ∈ bookkeeping w source e) :
    op.writes ⊆ [.script, .walletScript, .transactionScript] := by
  simp only [bookkeeping, List.mem_append, List.mem_map] at hop
  rcases hop with ((⟨_, _, rfl⟩ | ⟨_, _, rfl⟩) | ⟨_, _, rfl⟩) | ⟨_, _, rfl⟩
  · simp [Operation.writes]
  · cases source.isDeterministic <;> simp [Operation.writes]
  · simp [Operation.writes]
  · simp [Operation.writes]

theorem coin_notMem_writes_bookkeeping {w : Wallet} {source : TrackedSource} {e : TransactionEvent}
    {op : Operation} (hop : op ∈ bookkeeping w source e) : EntityKind.coin ∉ op.writes :=
  fun hcoin => absurd (writes_of_mem_bookkeeping hop hcoin) (by decide)

theorem observation_eq (w : Wallet) (source : TrackedSource) (e : TransactionEvent) :
    observation w source e = .upsertTransaction ⟨e.txid, e.block⟩ ::
      (e.effectiveReplaced.toList.map .retractTransaction ++ bookkeeping w source e ++
        e.outputs.map (fun p => .insertCoin (madeCoin e.txid p)) ++
        e.inputs.map fun i => .mergeCoinSpend (spentCoin e.txid i)) := by
  simp only [observation, bookkeeping, List.append_assoc]

/-- Recording an event does to a coin what the event makes of it. -/
theorem foldl_onCoin_observation (w : Wallet) (source : TrackedSource) (e : TransactionEvent)
    (o : Outpoint) (found : Option Coin) :
    (observation w source e).foldl (fun found op => op.onCoin o found) found = e.onCoin o found := by
  have hrelease : (e.effectiveReplaced.toList.map Operation.retractTransaction).foldl
      (fun found op => op.onCoin o found) found = e.release o found := by
    unfold TransactionEvent.release
    cases e.effectiveReplaced <;> rfl
  have hupsert : (Operation.upsertTransaction ⟨e.txid, e.block⟩).onCoin o found = found := rfl
  rw [observation_eq, List.foldl_cons, hupsert, List.foldl_append, List.foldl_append,
    List.foldl_append, hrelease, foldl_onCoin_eq fun op => coin_notMem_writes_bookkeeping,
    List.foldl_map, List.foldl_map]
  rfl

/-- A call that reports an event: the name of the wallet, and what was being tracked. -/
structure Report where
  wallet : String
  source : TrackedSource
  event : TransactionEvent

/-- Records reports one after the other. -/
def observeAll (reports : List Report) : Action Unit :=
  reports.forM fun r => observe r.wallet r.source r.event

theorem run_observe_ok {l l' : Ledger} {name : String} {source : TrackedSource}
    {e : TransactionEvent} (h : l.run (observe name source e) = (.ok (), l')) :
    ∃ w, findWallet l.store name = .ok (some w) ∧
      commit l.store (observation w source e) = .ok l'.store := by
  obtain ⟨found, l₁, hread, hwrite⟩ := run_bind_ok h
  obtain ⟨hfound, rfl⟩ : findWallet l.store name = .ok found ∧ l = l₁ := by
    rw [run_read] at hread
    exact Prod.mk.inj hread
  cases found with
  | none => cases hwrite
  | some w =>
      obtain ⟨s, hcommit, rfl⟩ := run_write_ok hwrite
      exact ⟨w, hfound, hcommit⟩

/-- A run of reports is a single batch, which does to each coin what the events make of it. -/
theorem run_observeAll_ok {reports : List Report} :
    ∀ {l l' : Ledger}, l.run (observeAll reports) = (.ok (), l') →
      ∃ batch, commit l.store batch = .ok l'.store ∧ ∀ o found,
        batch.foldl (fun found op => op.onCoin o found) found =
          (reports.map Report.event).foldl (fun found e => e.onCoin o found) found := by
  induction reports with
  | nil =>
      intro l l' h
      obtain rfl : l = l' := (Prod.mk.inj h).2
      exact ⟨[], rfl, fun o found => rfl⟩
  | cons r reports ih =>
      intro l l' h
      have hcons : observeAll (r :: reports) =
          observe r.wallet r.source r.event >>= fun _ => observeAll reports := rfl
      rw [hcons] at h
      obtain ⟨_, l₁, hr, hrest⟩ := run_bind_ok h
      obtain ⟨w, -, hcommit⟩ := run_observe_ok hr
      obtain ⟨batch, hbatch, hfold⟩ := ih hrest
      refine ⟨observation w r.source r.event ++ batch, ?_, ?_⟩
      · rw [commit_append, hcommit]
        exact hbatch
      · intro o found
        rw [List.foldl_append, foldl_onCoin_observation, hfold]
        rfl

/-! ### Runs that do not fail -/

theorem needsWallet_of_mem_observation {w : Wallet} {source : TrackedSource}
    {e : TransactionEvent} {op : Operation} (hop : op ∈ observation w source e) :
    op.needsWallet = false := by
  simp only [observation, List.mem_cons, List.mem_append, List.mem_map] at hop
  rcases hop with rfl | (((((⟨_, _, rfl⟩ | ⟨_, _, rfl⟩) | ⟨_, _, rfl⟩) | ⟨_, _, rfl⟩) |
    ⟨_, _, rfl⟩) | ⟨_, _, rfl⟩) | ⟨_, _, rfl⟩
  · rfl
  · rfl
  · rfl
  · cases source.isDeterministic <;> rfl
  · rfl
  · rfl
  · rfl
  · rfl

theorem writes_of_mem_observation {w : Wallet} {source : TrackedSource} {e : TransactionEvent}
    {op : Operation} (hop : op ∈ observation w source e) :
    op.writes ⊆ [.script, .walletScript, .transaction, .transactionScript, .coin, .channel] := by
  rw [observation_eq] at hop
  simp only [List.mem_cons, List.mem_append, List.mem_map] at hop
  rcases hop with rfl | ((⟨_, _, rfl⟩ | hop) | ⟨_, _, rfl⟩) | ⟨_, _, rfl⟩
  · simp [Operation.writes]
  · simp [Operation.writes]
  · exact List.Subset.trans (writes_of_mem_bookkeeping hop) (by simp)
  · simp [Operation.writes]
  · simp [Operation.writes]

theorem notMem_writes_observation {w : Wallet} {source : TrackedSource} {e : TransactionEvent}
    {kind : EntityKind} (hkind : kind ∈ [EntityKind.wallet, .payment, .blob]) :
    kind ∉ (observation w source e).flatMap Operation.writes := by
  intro hmem
  obtain ⟨op, hop, hwrites⟩ := List.mem_flatMap.1 hmem
  have hwritten := writes_of_mem_observation hop hwrites
  revert hkind hwritten
  cases kind <;> decide

theorem wallet_notMem_writes_observation {w : Wallet} {source : TrackedSource}
    {e : TransactionEvent} :
    EntityKind.wallet ∉ (observation w source e).flatMap Operation.writes :=
  notMem_writes_observation (by decide)

/-- On a well-formed store a transaction is recorded if the wallet is found. -/
theorem exists_run_observe_of_findWallet {l : Ledger} (hs : WellFormed l.store) {name : String}
    {w : Wallet} (hw : findWallet l.store name = .ok (some w)) (source : TrackedSource)
    (e : TransactionEvent) :
    ∃ s', commit l.store (observation w source e) = .ok s' ∧
      l.run (observe name source e) = (.ok (), { l with store := s' }) := by
  have hneeds : ∀ op ∈ observation w source e, op.needsWallet = false := fun op hop =>
    needsWallet_of_mem_observation hop
  obtain ⟨s', hs'⟩ := exists_commit_eq_ok hs hneeds
  refine ⟨s', hs', ?_⟩
  rw [observe, run_bind, run_read, hw]
  simp only [run_write, hs']

/-- On a well-formed store a transaction is recorded for any wallet that there is. -/
theorem exists_run_observe_eq_ok {l : Ledger} (hs : WellFormed l.store) {walletId : String}
    (hwallet : (record? Wallet l.store walletId).isSome = true) (source : TrackedSource)
    (e : TransactionEvent) :
    ∃ l', l.run (observe walletId source e) = (.ok (), l') ∧ WellFormed l'.store ∧
      SameRows .wallet l.store l'.store := by
  obtain ⟨w, hw⟩ := Option.isSome_iff_exists.1 hwallet
  have hfound : findWallet l.store walletId = .ok (some w) := by
    rw [findWallet, hs.sound.getEntity, hw]
    rfl
  obtain ⟨s', hs', hrun⟩ := exists_run_observe_of_findWallet hs hfound source e
  exact ⟨_, hrun, hs.commit hs', (writes_commit hs').sameRows wallet_notMem_writes_observation⟩

theorem exists_run_observeAll_eq_ok {reports : List Report} :
    ∀ {l : Ledger}, WellFormed l.store →
      (∀ r ∈ reports, (record? Wallet l.store r.wallet).isSome = true) →
      ∃ l', l.run (observeAll reports) = (.ok (), l') := by
  induction reports with
  | nil => exact fun {l} _ _ => ⟨l, rfl⟩
  | cons r reports ih =>
      intro l hs hwallets
      obtain ⟨l₁, hr, hs₁, hrows⟩ :=
        exists_run_observe_eq_ok hs (hwallets r List.mem_cons_self) r.source r.event
      obtain ⟨l', hrest⟩ := ih hs₁ fun r' hr' => by
        rw [hrows.record?_eq (α := Wallet)]
        exact hwallets r' (List.mem_cons_of_mem _ hr')
      have hcons : observeAll (r :: reports) =
          observe r.wallet r.source r.event >>= fun _ => observeAll reports := rfl
      exact ⟨l', by rw [hcons, run_bind, hr]; exact hrest⟩

/-! ### One event and one coin -/

namespace TransactionEvent

variable {e : TransactionEvent} {o : Outpoint}

theorem exists_spends_iff : (∃ s, e.Spends o s) ↔ ∃ u ∈ e.spent, u.outpoint = o := by
  constructor
  · rintro ⟨s, -, i, hi, hprevious, -⟩
    exact ⟨_, List.mem_map_of_mem hi, hprevious⟩
  · rintro ⟨u, hu, hprevious⟩
    obtain ⟨i, hi, rfl⟩ := List.mem_map.1 hu
    exact ⟨⟨e.txid, i.inputIndex⟩, rfl, i, hi, hprevious, rfl⟩

theorem txid_of_mem_made {u : Utxo} (hu : u ∈ e.made) : u.outpoint.txid = e.txid := by
  obtain ⟨p, -, rfl⟩ := List.mem_map.1 hu
  rfl

/-- A known coin stays; one that is not known becomes the output that is made first. -/
theorem foldl_insertCoin_cases (txid : Txid) {o : Outpoint} :
    ∀ (ps : List ObservedOutput) (found : Option Coin),
      (ps.foldl (fun found p => (Operation.insertCoin (madeCoin txid p)).onCoin o found) found =
          found ∧ (found = none → ∀ p ∈ ps, (madeCoin txid p).outpoint ≠ o)) ∨
        found = none ∧ ∃ p ∈ ps, (madeCoin txid p).outpoint = o ∧
          ps.foldl (fun found p => (Operation.insertCoin (madeCoin txid p)).onCoin o found)
            found = some (madeCoin txid p) := by
  intro ps
  induction ps with
  | nil =>
      intro found
      exact .inl ⟨rfl, fun _ => List.forall_mem_nil _⟩
  | cons p ps ih =>
      intro found
      rw [List.foldl_cons, Operation.onCoin]
      by_cases hp : (madeCoin txid p).outpoint = o
      · rw [if_pos hp]
        cases found with
        | none =>
            rcases ih (some (madeCoin txid p)) with ⟨heq, -⟩ | ⟨h, -⟩
            · exact .inr ⟨rfl, p, List.mem_cons_self, hp, heq⟩
            · cases h
        | some c =>
            rcases ih (some c) with ⟨heq, -⟩ | ⟨h, -⟩
            · refine .inl ⟨heq, ?_⟩
              intro h
              cases h
            · cases h
      · rw [if_neg hp]
        rcases ih found with ⟨heq, hnone⟩ | ⟨hfound, q, hq, hqo, heq⟩
        · exact .inl ⟨heq, fun h => List.forall_mem_cons.2 ⟨hp, hnone h⟩⟩
        · exact .inr ⟨hfound, q, List.mem_cons_of_mem _ hq, hqo, heq⟩

/-- A known coin stays; one that is not known becomes one of the outputs that are made. -/
theorem make_cases (found : Option Coin) :
    (e.make o found = found ∧ (found = none → ∀ u ∈ e.made, u.outpoint ≠ o)) ∨
      found = none ∧ ∃ c, e.make o found = some c ∧ c.spentBy = none ∧ c.utxo ∈ e.made ∧
        c.outpoint = o := by
  rcases foldl_insertCoin_cases e.txid e.outputs found with
    ⟨heq, hnone⟩ | ⟨hfound, p, hp, hpo, heq⟩
  · refine .inl ⟨heq, ?_⟩
    intro h u hu
    obtain ⟨p, hp, rfl⟩ := List.mem_map.1 hu
    exact hnone h p hp
  · exact .inr ⟨hfound, _, heq, rfl, List.mem_map_of_mem hp, hpo⟩

/-- A coin that no input spends stays; one that inputs spend gets the last of them. -/
theorem foldl_mergeCoinSpend_cases (txid : Txid) {o : Outpoint} :
    ∀ (is : List ObservedInput) (found : Option Coin),
      (is.foldl (fun found i => (Operation.mergeCoinSpend (spentCoin txid i)).onCoin o found)
          found = found ∧ ∀ i ∈ is, i.previous ≠ o) ∨
        ∃ i ∈ is, i.previous = o ∧ ∃ c,
          is.foldl (fun found i => (Operation.mergeCoinSpend (spentCoin txid i)).onCoin o found)
            found = some c ∧ c.spentBy = some ⟨txid, i.inputIndex⟩ ∧
          ((∃ j ∈ is, c.utxo = (spentCoin txid j).utxo) ∨
            ∃ c₀, found = some c₀ ∧ c.utxo = c₀.utxo) := by
  intro is
  induction is with
  | nil =>
      intro found
      exact .inl ⟨rfl, List.forall_mem_nil _⟩
  | cons i is ih =>
      intro found
      rw [List.foldl_cons, Operation.onCoin]
      by_cases hi : i.previous = o
      · have hspent : (spentCoin txid i).outpoint = o := hi
        rw [if_pos hspent]
        -- the coin after this input, and where its script and value come from
        generalize hc₁ : ({ found.getD (spentCoin txid i) with
          spentBy := (spentCoin txid i).spentBy } : Coin) = c₁
        have hspentBy : c₁.spentBy = some ⟨txid, i.inputIndex⟩ := by rw [← hc₁]; rfl
        have hstart : (∃ j ∈ i :: is, c₁.utxo = (spentCoin txid j).utxo) ∨
            ∃ c₀, found = some c₀ ∧ c₁.utxo = c₀.utxo := by
          rw [← hc₁]
          cases found with
          | none => exact .inl ⟨i, List.mem_cons_self, rfl⟩
          | some c₀ => exact .inr ⟨c₀, rfl, rfl⟩
        rcases ih (some c₁) with ⟨heq, -⟩ | ⟨j, hj, hjo, c, heq, hcs, hutxo⟩
        · exact .inr ⟨i, List.mem_cons_self, hi, c₁, heq, hspentBy, hstart⟩
        · refine .inr ⟨j, List.mem_cons_of_mem _ hj, hjo, c, heq, hcs, ?_⟩
          rcases hutxo with ⟨k, hk, hku⟩ | ⟨c₀, hc₀, hcu⟩
          · exact .inl ⟨k, List.mem_cons_of_mem _ hk, hku⟩
          · obtain rfl : c₁ = c₀ := Option.some.inj hc₀
            rw [hcu]
            exact hstart
      · have hspent : ¬(spentCoin txid i).outpoint = o := hi
        rw [if_neg hspent]
        rcases ih found with ⟨heq, hnone⟩ | ⟨j, hj, hjo, c, heq, hcs, hutxo⟩
        · exact .inl ⟨heq, List.forall_mem_cons.2 ⟨hi, hnone⟩⟩
        · refine .inr ⟨j, List.mem_cons_of_mem _ hj, hjo, c, heq, hcs, ?_⟩
          rcases hutxo with ⟨k, hk, hku⟩ | hkept
          · exact .inl ⟨k, List.mem_cons_of_mem _ hk, hku⟩
          · exact .inr hkept

/-- A coin that is not spent stays; one that is spent gets the last input that spends it. -/
theorem spend_cases (found : Option Coin) :
    (e.spend o found = found ∧ ∀ u ∈ e.spent, u.outpoint ≠ o) ∨
      ∃ s c, e.Spends o s ∧ e.spend o found = some c ∧ c.spentBy = some s ∧
        (c.utxo ∈ e.spent ∨ ∃ c₀, found = some c₀ ∧ c.utxo = c₀.utxo) := by
  rcases foldl_mergeCoinSpend_cases e.txid e.inputs found with
    ⟨heq, hnone⟩ | ⟨i, hi, hio, c, heq, hcs, hutxo⟩
  · refine .inl ⟨heq, ?_⟩
    intro u hu
    obtain ⟨i, hi, rfl⟩ := List.mem_map.1 hu
    exact hnone i hi
  · refine .inr ⟨⟨e.txid, i.inputIndex⟩, c, ⟨rfl, i, hi, hio, rfl⟩, heq, hcs, ?_⟩
    rcases hutxo with ⟨j, hj, hju⟩ | hkept
    · rw [hju]
      exact .inl (List.mem_map_of_mem hj)
    · exact .inr hkept

end TransactionEvent

/-! ### Histories -/

/-- Some event replaces the transaction. -/
def Replaced (events : List TransactionEvent) (txid : Txid) : Prop :=
  ∃ e ∈ events, e.effectiveReplaced = some txid

instance (events : List TransactionEvent) (txid : Txid) : Decidable (Replaced events txid) :=
  inferInstanceAs (Decidable (∃ e ∈ events, _))

/-- What a history has to obey. -/
structure Consistent (events : List TransactionEvent) : Prop where
  /-- Nothing is heard of a transaction after it was replaced. -/
  silent : events.Pairwise fun a b => a.effectiveReplaced ≠ some b.txid
  /-- An output is always reported with the same script and value. -/
  agreed : ∀ e ∈ events, ∀ e' ∈ events, ∀ u ∈ e.mentions, ∀ u' ∈ e'.mentions,
    u.outpoint = u'.outpoint → u = u'
  /-- Nothing spends an output of a transaction that is replaced. -/
  anchored : ∀ e ∈ events, ∀ u ∈ e.spent, ¬Replaced events u.outpoint.txid
  /-- Transactions that are not replaced spend an output by one input only. -/
  unique : ∀ e ∈ events, ∀ e' ∈ events, ¬Replaced events e.txid → ¬Replaced events e'.txid →
    ∀ i ∈ e.inputs, ∀ i' ∈ e'.inputs, i.previous = i'.previous →
      e.txid = e'.txid ∧ i.inputIndex = i'.inputIndex
  /-- A transaction that is replaced does not spend an output after one that is not. -/
  ordered : events.Pairwise fun a b => ∀ i ∈ a.inputs, ∀ j ∈ b.inputs, i.previous = j.previous →
    Replaced events b.txid → Replaced events a.txid

theorem Consistent.spends_unique {events : List TransactionEvent} (h : Consistent events)
    {e e' : TransactionEvent} (he : e ∈ events) (he' : e' ∈ events)
    (hlive : ¬Replaced events e.txid) (hlive' : ¬Replaced events e'.txid) {o : Outpoint}
    {s s' : SpentBy} (hs : e.Spends o s) (hs' : e'.Spends o s') : s = s' := by
  obtain ⟨txid, index⟩ := s
  obtain ⟨txid', index'⟩ := s'
  obtain ⟨rfl, i, hi, hio, rfl⟩ := hs
  obtain ⟨rfl, i', hi', hio', rfl⟩ := hs'
  obtain ⟨htxid, hindex⟩ :=
    h.unique e he e' he' hlive hlive' i hi i' hi' (hio.trans hio'.symm)
  rw [htxid, hindex]

/-- What the events heard so far make of the coin with an outpoint whose transaction is not
replaced in the whole history. -/
structure Follows (events heard : List TransactionEvent) (o : Outpoint)
    (found : Option Coin) : Prop where
  /-- There is a coin if the outpoint was reported. -/
  listed : found.isSome = true ↔ ∃ e ∈ heard, ∃ u ∈ e.mentions, u.outpoint = o
  /-- The coin is as it was reported. -/
  reported : ∀ c, found = some c → ∃ e ∈ heard, c.utxo ∈ e.mentions
  /-- What spends the coin was reported to spend it, and was not replaced so far. -/
  standing : ∀ c s, found = some c → c.spentBy = some s →
    (∃ e ∈ heard, e.Spends o s) ∧ ¬Replaced heard s.txid
  /-- Spends that are never replaced last. -/
  lasting : ∀ e ∈ heard, ¬Replaced events e.txid → ∀ s, e.Spends o s →
    ∃ c, found = some c ∧ c.spentBy = some s

theorem Follows.nil (events : List TransactionEvent) (o : Outpoint) :
    Follows events [] o none := by
  constructor
  · simp
  · rintro c ⟨⟩
  · rintro c s ⟨⟩
  · rintro e he
    cases he

/-- An event releases a coin of a transaction that it does not replace from the one it replaces. -/
theorem TransactionEvent.release_some {e : TransactionEvent} {o : Outpoint}
    (ho : e.effectiveReplaced ≠ some o.txid) (c : Coin) :
    ∃ c', e.release o (some c) = some c' ∧ c'.utxo = c.utxo ∧
      ∀ s, c'.spentBy = some s ↔ c.spentBy = some s ∧ e.effectiveReplaced ≠ some s.txid := by
  unfold release
  cases hr : e.effectiveReplaced with
  | none => exact ⟨c, rfl, rfl, by simp⟩
  | some r =>
      have hne : o.txid ≠ r := fun heq => ho (heq ▸ hr)
      refine ⟨c.released r, by simp [Operation.onCoin, hne], c.utxo_released r, fun s => ?_⟩
      have hsymm : s.txid ≠ r ↔ some r ≠ some s.txid := by simp [eq_comm]
      rw [Coin.spentBy_released, hsymm]

theorem TransactionEvent.release_none (e : TransactionEvent) (o : Outpoint) :
    e.release o none = none := by
  unfold release
  cases e.effectiveReplaced with
  | none => rfl
  | some r => simp [Operation.onCoin]

/-- What is left of a coin, and what is made, before an event spends anything. -/
structure Carried (e : TransactionEvent) (o : Outpoint) (found kept : Option Coin) : Prop where
  listed : kept.isSome = true ↔ found.isSome = true ∨ ∃ u ∈ e.made, u.outpoint = o
  reported : ∀ c, kept = some c → c.utxo ∈ e.made ∨ ∃ c₀, found = some c₀ ∧ c.utxo = c₀.utxo
  standing : ∀ c s, kept = some c → c.spentBy = some s →
    (∃ c₀, found = some c₀ ∧ c₀.spentBy = some s) ∧ e.effectiveReplaced ≠ some s.txid
  lasting : ∀ c₀ s, found = some c₀ → c₀.spentBy = some s → e.effectiveReplaced ≠ some s.txid →
    ∃ c, kept = some c ∧ c.spentBy = some s

theorem TransactionEvent.carried {e : TransactionEvent} {o : Outpoint}
    (ho : e.effectiveReplaced ≠ some o.txid) (found : Option Coin) :
    Carried e o found (e.make o (e.release o found)) := by
  cases found with
  | none =>
      rw [e.release_none]
      rcases e.make_cases (o := o) none with ⟨heq, hnone⟩ | ⟨-, c, heq, hspent, hmade, hc⟩
      · rw [heq]
        constructor
        · simpa using hnone rfl
        · rintro c ⟨⟩
        · rintro c s ⟨⟩
        · rintro c s ⟨⟩
      · rw [heq]
        constructor
        · simpa using ⟨c.utxo, hmade, hc⟩
        · rintro _ ⟨⟩
          exact .inl hmade
        · rintro _ s ⟨⟩ hs
          rw [hspent] at hs
          cases hs
        · rintro c s ⟨⟩
  | some c₀ =>
      obtain ⟨c, hrelease, hutxo, hspent⟩ := TransactionEvent.release_some ho c₀
      rw [hrelease]
      rcases e.make_cases (o := o) (some c) with ⟨heq, -⟩ | ⟨h, -⟩
      · rw [heq]
        constructor
        · simp
        · rintro _ ⟨⟩
          exact .inr ⟨c₀, rfl, hutxo⟩
        · rintro _ s ⟨⟩ hs
          obtain ⟨hs₀, hne⟩ := (hspent s).1 hs
          exact ⟨⟨c₀, rfl, hs₀⟩, hne⟩
        · rintro _ s ⟨⟩ hs hne
          exact ⟨c, rfl, (hspent s).2 ⟨hs, hne⟩⟩
      · cases h

theorem replaced_append {heard : List TransactionEvent} {e : TransactionEvent} {txid : Txid} :
    Replaced (heard ++ [e]) txid ↔ Replaced heard txid ∨ e.effectiveReplaced = some txid := by
  simp [Replaced, or_and_right, exists_or]

section

variable {events heard : List TransactionEvent} {e : TransactionEvent} {o : Outpoint}
  {found kept : Option Coin}

/-- A transaction that is still heard of was not replaced before. -/
theorem Consistent.not_replaced_last (h : Consistent events) (hheard : heard ++ [e] <+: events) :
    ¬Replaced (heard ++ [e]) e.txid := by
  intro hreplaced
  rcases replaced_append.1 hreplaced with ⟨a, ha, hr⟩ | hr
  · have hsilent := (List.pairwise_append.1 (h.silent.sublist hheard.sublist)).2.2
    exact hsilent a ha e (by simp) hr
  · exact e.effectiveReplaced_ne hr

/-- A spend that lasts is not followed by one that does not. -/
theorem Consistent.replaced_of_last (h : Consistent events) (hheard : heard ++ [e] <+: events)
    {s s' : SpentBy} (hs : e.Spends o s) (he : Replaced events e.txid) {a : TransactionEvent}
    (ha : a ∈ heard ++ [e]) (hs' : a.Spends o s') : Replaced events a.txid := by
  rcases List.mem_append.1 ha with ha | ha
  · obtain ⟨-, i, hi, hio, -⟩ := hs'
    obtain ⟨-, j, hj, hjo, -⟩ := hs
    have hordered := (List.pairwise_append.1 (h.ordered.sublist hheard.sublist)).2.2
    exact hordered a ha e (by simp) i hi j hj (hio.trans hjo.symm) he
  · obtain rfl : a = e := by simpa using ha
    exact he

/-- Whether there is a coin before an event spends anything. -/
theorem Follows.isSome_carried (hfound : Follows events heard o found)
    (hkept : Carried e o found kept) :
    (∃ a ∈ heard ++ [e], ∃ u ∈ a.mentions, u.outpoint = o) ↔
      kept.isSome = true ∨ ∃ u ∈ e.spent, u.outpoint = o := by
  rw [hkept.listed, hfound.listed]
  simp [TransactionEvent.mentions, or_and_right, exists_or, or_assoc]

theorem Follows.reported_carried (hfound : Follows events heard o found)
    (hkept : Carried e o found kept) {c : Coin} (hc : kept = some c) :
    ∃ a ∈ heard ++ [e], c.utxo ∈ a.mentions := by
  rcases hkept.reported c hc with hmade | ⟨c₀, hc₀, hutxo⟩
  · exact ⟨e, by simp, List.mem_append_left _ hmade⟩
  · obtain ⟨a, ha, hmem⟩ := hfound.reported c₀ hc₀
    exact ⟨a, List.mem_append_left _ ha, hutxo ▸ hmem⟩

/-- An event is heard that does not spend the coin. -/
theorem Follows.append_of_not_spent (hfound : Follows events heard o found)
    (hkept : Carried e o found kept) (he : e ∈ events) (hnone : ∀ u ∈ e.spent, u.outpoint ≠ o) :
    Follows events (heard ++ [e]) o kept := by
  constructor
  · rw [hfound.isSome_carried hkept]
    constructor
    · exact .inl
    · rintro (hkept | ⟨u, hu, huo⟩)
      · exact hkept
      · exact absurd huo (hnone u hu)
  · exact fun c hc => hfound.reported_carried hkept hc
  · intro c s hc hs
    obtain ⟨⟨c₀, hc₀, hs₀⟩, hne⟩ := hkept.standing c s hc hs
    obtain ⟨⟨a, ha, hspends⟩, hstands⟩ := hfound.standing c₀ s hc₀ hs₀
    refine ⟨⟨a, List.mem_append_left _ ha, hspends⟩, ?_⟩
    intro hr
    exact (replaced_append.1 hr).elim hstands hne
  · intro a ha hlive s hspends
    rcases List.mem_append.1 ha with ha | ha
    · obtain ⟨c₀, hc₀, hs₀⟩ := hfound.lasting a ha hlive s hspends
      refine hkept.lasting c₀ s hc₀ hs₀ ?_
      intro hr
      apply hlive
      rw [← hspends.1]
      exact ⟨e, he, hr⟩
    · obtain rfl : a = e := by simpa using ha
      obtain ⟨u, hu, huo⟩ := TransactionEvent.exists_spends_iff.1 ⟨s, hspends⟩
      exact absurd huo (hnone u hu)

/-- An event is heard that spends the coin. -/
theorem Follows.append_of_spent (h : Consistent events) (hheard : heard ++ [e] <+: events)
    (hfound : Follows events heard o found) (hkept : Carried e o found kept) {s : SpentBy} {c : Coin}
    (hspends : e.Spends o s) (hcs : c.spentBy = some s)
    (hutxo : c.utxo ∈ e.spent ∨ ∃ c₀, kept = some c₀ ∧ c.utxo = c₀.utxo) :
    Follows events (heard ++ [e]) o (some c) := by
  have hsub : ∀ a ∈ heard ++ [e], a ∈ events := hheard.subset
  have he : e ∈ events := hsub e (by simp)
  constructor
  · rw [hfound.isSome_carried hkept]
    exact ⟨fun _ => .inr (TransactionEvent.exists_spends_iff.1 ⟨s, hspends⟩), fun _ => rfl⟩
  · rintro _ ⟨⟩
    rcases hutxo with hmem | ⟨c₀, hc₀, hcu⟩
    · exact ⟨e, by simp, List.mem_append_right _ hmem⟩
    · rw [hcu]
      exact hfound.reported_carried hkept hc₀
  · rintro _ s' ⟨⟩ hs'
    obtain rfl : s = s' := Option.some.inj (hcs.symm.trans hs')
    exact ⟨⟨e, by simp, hspends⟩, hspends.1 ▸ h.not_replaced_last hheard⟩
  · intro a ha hlive s' hspends'
    have helive : ¬Replaced events e.txid := by
      intro hr
      exact hlive (h.replaced_of_last hheard hspends hr ha hspends')
    have hs : s = s' := h.spends_unique he (hsub a ha) helive hlive hspends hspends'
    exact ⟨c, rfl, hs ▸ hcs⟩

/-- One more event is heard. -/
theorem Follows.step (h : Consistent events) (hheard : heard ++ [e] <+: events)
    (ho : ¬Replaced events o.txid) (hfound : Follows events heard o found) :
    Follows events (heard ++ [e]) o (e.onCoin o found) := by
  have he : e ∈ events := hheard.subset (by simp)
  -- the event does not replace the transaction of the coin
  have hkept := TransactionEvent.carried (fun hr => ho ⟨e, he, hr⟩) found
  unfold TransactionEvent.onCoin
  generalize e.make o (e.release o found) = kept at hkept
  rcases e.spend_cases (o := o) kept with ⟨heq, hnone⟩ | ⟨s, c, hspends, heq, hcs, hutxo⟩
  · rw [heq]
    exact hfound.append_of_not_spent hkept he hnone
  · rw [heq]
    exact Follows.append_of_spent h hheard hfound hkept hspends hcs hutxo

end

/-- What a history makes of a coin whose transaction is not replaced. -/
theorem follows_history {events : List TransactionEvent} (h : Consistent events) {o : Outpoint}
    (ho : ¬Replaced events o.txid) {heard : List TransactionEvent} (hheard : heard <+: events) :
    Follows events heard o (heard.foldl (fun found e => e.onCoin o found) none) := by
  induction heard using List.reverseRecOn with
  | nil => exact Follows.nil events o
  | append_singleton heard e ih =>
      rw [List.foldl_append]
      exact Follows.step h hheard ho (ih ((List.prefix_append heard [e]).trans hheard))

/-- A coin is gone once its transaction is replaced. -/
theorem gone_of_replaced {events : List TransactionEvent} (h : Consistent events) {o : Outpoint}
    (ho : Replaced events o.txid) {heard : List TransactionEvent} (hheard : heard <+: events)
    (hreplaced : Replaced heard o.txid) :
    heard.foldl (fun found e => e.onCoin o found) none = none := by
  induction heard using List.reverseRecOn with
  | nil =>
      obtain ⟨e, he, -⟩ := hreplaced
      cases he
  | append_singleton heard e ih =>
      have he : e ∈ events := hheard.subset (by simp)
      rw [List.foldl_append, List.foldl_cons, List.foldl_nil]
      have hrelease : e.release o (heard.foldl (fun found e => e.onCoin o found) none) = none := by
        by_cases hr : e.effectiveReplaced = some o.txid
        · simp [TransactionEvent.release, hr, Operation.onCoin]
        · have hbefore := (replaced_append.1 hreplaced).resolve_right hr
          rw [ih ((List.prefix_append heard [e]).trans hheard) hbefore, e.release_none]
      -- an event of the replaced transaction itself would have come before
      have hmade : ∀ u ∈ e.made, u.outpoint ≠ o := by
        rintro u hu rfl
        have htxid : u.outpoint.txid = e.txid := TransactionEvent.txid_of_mem_made hu
        rw [htxid] at hreplaced
        exact h.not_replaced_last hheard hreplaced
      have hspent : ∀ u ∈ e.spent, u.outpoint ≠ o := by
        rintro u hu rfl
        exact h.anchored e he u hu ho
      have hmake : e.make o none = none := by
        rcases e.make_cases (o := o) none with ⟨heq, -⟩ | ⟨-, c, -, -, hmem, hc⟩
        · exact heq
        · exact absurd hc (hmade _ hmem)
      rw [TransactionEvent.onCoin, hrelease, hmake]
      rcases e.spend_cases (o := o) none with ⟨heq, -⟩ | ⟨s, c, hspends, -⟩
      · exact heq
      · obtain ⟨u, hu, huo⟩ := TransactionEvent.exists_spends_iff.1 ⟨s, hspends⟩
        exact absurd huo (hspent u hu)

/-! ### The table after a history -/

theorem scan_eq_nil_of_mapM_readRow {α κ : Type} [Entity α κ] {rows : List (Bytes × Bytes)}
    (h : rows.mapM (fun row => readRow α row.2) = .ok []) : rows = [] := by
  cases rows with
  | nil => rfl
  | cons row rows =>
      obtain ⟨a, as, -, -, hcons⟩ := mapM_ok h
      cases hcons

/-- A store without coins has no rows of coins. -/
theorem get?_coin_of_allCoins_eq_nil {s : Store} (h : allCoins s = .ok []) {key : Bytes}
    (hkey : key.head? = some EntityKind.coin.byte) : s.get? key = none := by
  have hscan : s.scan (RowRange.kind .coin).start = [] := scan_eq_nil_of_mapM_readRow h
  cases hget : s.get? key with
  | none => rfl
  | some value =>
      have hstarts : (RowRange.kind .coin).start <+: key := by
        cases key with
        | nil => cases hkey
        | cons b bs =>
            obtain rfl : b = EntityKind.coin.byte := Option.some.inj hkey
            exact ⟨bs, rfl⟩
      have hmem : (key, value) ∈ s.scan (RowRange.kind .coin).start :=
        ByteMap.mem_scan.2 ⟨hget, hstarts⟩
      rw [hscan] at hmem
      cases hmem

/-- The coins that a history leaves, by their outpoints. -/
theorem record?_of_observations {l l' : Ledger} {reports : List Report}
    (hnone : allCoins l.store = .ok []) (hrun : l.run (observeAll reports) = (.ok (), l')) :
    Sound Coin l'.store ∧ ∀ o, record? Coin l'.store o =
      (reports.map Report.event).foldl (fun found e => e.onCoin o found) none := by
  have hsound : Sound Coin l.store := by
    intro key value hvalue hkey
    rw [get?_coin_of_allCoins_eq_nil hnone hkey] at hvalue
    cases hvalue
  have hempty : ∀ o, record? Coin l.store o = none := by
    intro o
    rw [record?, get?_coin_of_allCoins_eq_nil hnone (head?_rowKey o)]
    rfl
  obtain ⟨batch, hcommit, hfold⟩ := run_observeAll_ok hrun
  obtain ⟨hs', hrecord⟩ := record?_commit hsound hcommit
  refine ⟨hs', ?_⟩
  intro o
  rw [hrecord, hfold, hempty]

/-- The outpoints of which there are coins after a history. -/
theorem isSome_history_iff {events : List TransactionEvent} (h : Consistent events) (o : Outpoint) :
    (events.foldl (fun found e => e.onCoin o found) none).isSome = true ↔
      (∃ e ∈ events, ¬Replaced events e.txid ∧ ∃ u ∈ e.made, u.outpoint = o) ∨
        ∃ e ∈ events, ∃ u ∈ e.spent, u.outpoint = o := by
  by_cases ho : Replaced events o.txid
  · rw [gone_of_replaced h ho (List.prefix_refl events) ho]
    constructor
    · rintro ⟨⟩
    · rintro (⟨e, he, hlive, u, hu, rfl⟩ | ⟨e, he, u, hu, rfl⟩)
      · rw [TransactionEvent.txid_of_mem_made hu] at ho
        exact absurd ho hlive
      · exact absurd ho (h.anchored e he u hu)
  · rw [(follows_history h ho (List.prefix_refl events)).listed]
    constructor
    · rintro ⟨e, he, u, hu, rfl⟩
      rcases List.mem_append.1 hu with hmade | hspent
      · rw [TransactionEvent.txid_of_mem_made hmade] at ho
        exact .inl ⟨e, he, ho, u, hmade, rfl⟩
      · exact .inr ⟨e, he, u, hspent, rfl⟩
    · rintro (⟨e, he, -, u, hu, huo⟩ | ⟨e, he, u, hu, huo⟩)
      · exact ⟨e, he, u, List.mem_append_left _ hu, huo⟩
      · exact ⟨e, he, u, List.mem_append_right _ hu, huo⟩

/-- A coin after a history has the script and value that were reported, and is spent by the input
that spends it in a transaction that is not replaced. -/
theorem coin_of_history {events : List TransactionEvent} (h : Consistent events) {c : Coin}
    (hc : events.foldl (fun found e => e.onCoin c.outpoint found) none = some c) :
    (∀ e ∈ events, ∀ u ∈ e.mentions, u.outpoint = c.outpoint → u = c.utxo) ∧
      ∀ s, c.spentBy = some s ↔
        ∃ e ∈ events, ¬Replaced events e.txid ∧ e.Spends c.outpoint s := by
  have ho : ¬Replaced events c.outpoint.txid := by
    intro ho
    rw [gone_of_replaced h ho (List.prefix_refl events) ho] at hc
    cases hc
  have hfollows := follows_history h ho (List.prefix_refl events)
  refine ⟨?_, fun s => ⟨?_, ?_⟩⟩
  · intro e he u hu huo
    obtain ⟨e', he', hmem⟩ := hfollows.reported c hc
    exact h.agreed e he e' he' u hu c.utxo hmem huo
  · intro hs
    obtain ⟨⟨e, he, hspends⟩, hstands⟩ := hfollows.standing c s hc hs
    exact ⟨e, he, hspends.1 ▸ hstands, hspends⟩
  · rintro ⟨e, he, hlive, hspends⟩
    obtain ⟨c', hc', hs⟩ := hfollows.lasting e he hlive s hspends
    rw [hc] at hc'
    rw [Option.some.inj hc']
    exact hs

/-- A coin after a history is spent if a transaction that is not replaced spends it. -/
theorem isSpent_iff_of_history {events : List TransactionEvent} (h : Consistent events) {c : Coin}
    (hc : events.foldl (fun found e => e.onCoin c.outpoint found) none = some c) :
    c.isSpent = true ↔
      ∃ e ∈ events, ¬Replaced events e.txid ∧ ∃ s, e.Spends c.outpoint s := by
  have hspent := (coin_of_history h hc).2
  rw [Coin.isSpent, Option.isSome_iff_exists]
  constructor
  · rintro ⟨s, hs⟩
    obtain ⟨e, he, hlive, hspends⟩ := (hspent s).1 hs
    exact ⟨e, he, hlive, s, hspends⟩
  · rintro ⟨e, he, hlive, s, hspends⟩
    exact ⟨s, (hspent s).2 ⟨e, he, hlive, hspends⟩⟩

/-- The unspent coins of a wallet are those with one of its scripts that nothing spends. -/
theorem exists_unspentCoins_eq_ok {s : Store} (hs : Sound Coin s) {walletId : String}
    {scripts : List WalletScript} (hscripts : walletScripts s walletId = .ok scripts) :
    ∃ unspent, unspentCoins s walletId = .ok unspent ∧
      ∀ c, c ∈ unspent ↔ c ∈ recordsFrom Coin s (RowRange.kind .coin).start ∧
        c.script ∈ scripts.map WalletScript.script ∧ ¬c.isSpent = true := by
  refine ⟨(recordsFrom Coin s (RowRange.kind .coin).start).filter fun c =>
    !c.isSpent && (scripts.map (·.script)).contains c.script, ?_, ?_⟩
  · rw [unspentCoins, hscripts, hs.allCoins]
    rfl
  · intro c
    rw [List.mem_filter, Bool.and_eq_true, Bool.not_eq_true', List.contains_iff_mem,
      Bool.not_eq_true]
    exact and_congr_right fun _ => and_comm

theorem walletScripts_of_observations {l l' : Ledger} {reports : List Report} {walletId : String}
    (hscripts : Sound WalletScript l.store) (hrun : l.run (observeAll reports) = (.ok (), l')) :
    ∃ scripts, walletScripts l'.store walletId = .ok scripts := by
  obtain ⟨batch, hcommit, -⟩ := run_observeAll_ok hrun
  have hsound : Sound WalletScript l'.store := (writes_commit hcommit).sound hscripts
  exact ⟨_, hsound.scanEntities rfl⟩

/-- **The coin table is the set of outputs that a history leaves, replacements included.**  After a
consistent history is observed on a ledger without coins, there is one coin for each outpoint that
a transaction that was not replaced made, or that was reported to be spent, and for no other.  It
has the script and value that all reports gave it, and it is spent by just the input that spends it
in a transaction that was not replaced.  The unspent coins of a wallet are then the coins of its
scripts that no such input spends. -/
theorem coins_of_observations {l l' : Ledger} {reports : List Report}
    (hnone : allCoins l.store = .ok []) (hrun : l.run (observeAll reports) = (.ok (), l'))
    (h : Consistent (reports.map Report.event)) :
    ∃ coins, allCoins l'.store = .ok coins ∧ (coins.map Coin.outpoint).Nodup ∧
      (∀ o, (∃ c ∈ coins, c.outpoint = o) ↔
        (∃ e ∈ reports.map Report.event, ¬Replaced (reports.map Report.event) e.txid ∧
          ∃ u ∈ e.made, u.outpoint = o) ∨
        ∃ e ∈ reports.map Report.event, ∃ u ∈ e.spent, u.outpoint = o) ∧
      (∀ c ∈ coins, ∀ e ∈ reports.map Report.event, ∀ u ∈ e.mentions,
        u.outpoint = c.outpoint → u = c.utxo) ∧
      (∀ c ∈ coins, ∀ s, c.spentBy = some s ↔
        ∃ e ∈ reports.map Report.event, ¬Replaced (reports.map Report.event) e.txid ∧
          e.Spends c.outpoint s) ∧
      (∀ walletId scripts, walletScripts l'.store walletId = .ok scripts →
        ∃ unspent, unspentCoins l'.store walletId = .ok unspent ∧
          ∀ c, c ∈ unspent ↔ c ∈ coins ∧ c.script ∈ scripts.map WalletScript.script ∧
            ¬∃ e ∈ reports.map Report.event, ¬Replaced (reports.map Report.event) e.txid ∧
              ∃ s, e.Spends c.outpoint s) ∧
      (Sound WalletScript l.store →
        ∀ walletId, ∃ scripts, walletScripts l'.store walletId = .ok scripts) := by
  obtain ⟨hs', hrecord⟩ := record?_of_observations hnone hrun
  generalize hevents : reports.map Report.event = events at h hrecord
  have hmem : ∀ c, c ∈ recordsFrom Coin l'.store (RowRange.kind .coin).start ↔
      events.foldl (fun found e => e.onCoin c.outpoint found) none = some c := by
    intro c
    rw [hs'.mem_coins, hrecord]
  refine ⟨_, hs'.allCoins, hs'.nodup_keys rfl, ?_, ?_, ?_, ?_, ?_⟩
  · intro o
    rw [← isSome_history_iff h o]
    constructor
    · rintro ⟨c, hc, rfl⟩
      rw [(hmem c).1 hc]
      rfl
    · intro hsome
      obtain ⟨c, hc⟩ := Option.isSome_iff_exists.1 hsome
      have hco : c.outpoint = o := hs'.key_eq ((hrecord o).trans hc)
      exact ⟨c, (hmem c).2 (hco ▸ hc), hco⟩
  · intro c hc
    exact (coin_of_history h ((hmem c).1 hc)).1
  · intro c hc
    exact (coin_of_history h ((hmem c).1 hc)).2
  · intro walletId scripts hscripts
    obtain ⟨unspent, hunspent, hmemUnspent⟩ := exists_unspentCoins_eq_ok hs' hscripts
    refine ⟨unspent, hunspent, ?_⟩
    intro c
    rw [hmemUnspent]
    apply and_congr_right
    intro hc
    rw [isSpent_iff_of_history h ((hmem c).1 hc)]
  · exact fun hscripts walletId => walletScripts_of_observations hscripts hrun

/-- A hash of equal bytes. -/
def repeatedTxid (b : UInt8) : Txid := ⟨List.replicate 32 b, rfl⟩

/-- A transaction makes an output, another one spends it, and a third one replaces that. -/
def replacementReports : List Report :=
  let input : ObservedInput := ⟨0, ⟨repeatedTxid 1, 0⟩, ⟨[81]⟩, 1000, none⟩
  let output (value : UInt64) : ObservedOutput := ⟨0, ⟨[81]⟩, value, none⟩
  [⟨"w", .external "", repeatedTxid 1, none, none, [], [output 1000]⟩,
    ⟨"w", .external "", repeatedTxid 2, none, none, [input], [output 900]⟩,
    ⟨"w", .external "", repeatedTxid 3, none, some (repeatedTxid 2), [input], [output 800]⟩]

/-- A ledger with one wallet. -/
def oneWalletLedger : Ledger :=
  .ofStore (putEntity ByteMap.empty (⟨"w", "", "", "", 0, .zero, []⟩ : Wallet)) .regtest none

theorem wellFormed_oneWalletLedger : WellFormed oneWalletLedger.store :=
  wellFormed_empty.putEntity _

theorem isSome_wallet_oneWalletLedger :
    (record? Wallet oneWalletLedger.store "w").isSome = true := by
  rw [oneWalletLedger, ofStore, record?_putEntity]
  rfl

/-- The replaced transaction leaves no coin, and what it spent is spent by the one that replaced
it. -/
theorem coins_of_replacement :
    ∃ l' coins, oneWalletLedger.run (observeAll replacementReports) = (.ok (), l') ∧
      allCoins l'.store = .ok coins ∧
      (∃ c ∈ coins, c.outpoint = ⟨repeatedTxid 3, 0⟩) ∧
      (¬∃ c ∈ coins, c.outpoint = ⟨repeatedTxid 2, 0⟩) ∧
      ∀ c ∈ coins, c.outpoint = ⟨repeatedTxid 1, 0⟩ →
        c.spentBy = some ⟨repeatedTxid 3, 0⟩ := by
  have hwallets : ∀ r ∈ replacementReports,
      (record? Wallet oneWalletLedger.store r.wallet).isSome = true := by
    simpa [replacementReports] using isSome_wallet_oneWalletLedger
  obtain ⟨l', hrun⟩ := exists_run_observeAll_eq_ok wellFormed_oneWalletLedger hwallets
  have hnone : allCoins oneWalletLedger.store = .ok [] := rfl
  have hconsistent : Consistent (replacementReports.map Report.event) := by
    constructor <;> decide
  obtain ⟨coins, hcoins, -, hlisted, -, hspent, -⟩ :=
    coins_of_observations hnone hrun hconsistent
  refine ⟨l', coins, hrun, hcoins, ?_, ?_, ?_⟩
  · rw [hlisted]
    decide
  · rw [hlisted]
    decide
  · intro c hc ho
    rw [hspent c hc, ho]
    decide

end CoinLedger
