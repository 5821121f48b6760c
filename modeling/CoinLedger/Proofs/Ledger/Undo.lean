import CoinLedger.Proofs.Ledger.Replay

/-! # An event that is undone

A transaction that is recorded and then replaced might as well never have been recorded
(`observe_replaced`): after the event that replaces it the coins, the transactions and the scripts of
transactions are what this event alone would have made of them.  The inputs of the replaced
transaction must have spent coins that were known and not spent, since a retraction sets back a spend
to none, and removes no coin that only a spend made known.

Each table is undone in a way of its own.  The record and the scripts of the transaction are removed;
a coin that it made is removed, too; a coin that it spent is released
(`TransactionEvent.onCoin_undone`).  Channels are the exception.  Those that the transaction funds
are closed if its outputs are listed, which they need not have been without it. -/

namespace CoinLedger

open Ledger

namespace TransactionEvent

variable {e f : TransactionEvent}

/-! ### Single records -/

theorem onTransaction_undone (hnew : e.effectiveReplaced = none)
    (hreplaced : f.effectiveReplaced = some e.txid) (txid : Txid)
    (found : Option TransactionRecord) :
    f.onTransaction txid (e.onTransaction txid found) = f.onTransaction txid found := by
  unfold onTransaction
  rw [hnew, hreplaced]
  by_cases htxid : e.txid = txid <;> simp [htxid]

theorem onTransactionScript_undone (hnew : e.effectiveReplaced = none)
    (hreplaced : f.effectiveReplaced = some e.txid) (k : TransactionScriptKey)
    (found : Option TransactionScript) :
    f.onTransactionScript k (e.onTransactionScript k found) = f.onTransactionScript k found := by
  unfold onTransactionScript
  rw [hnew, hreplaced]
  by_cases htxid : e.txid = k.txid
  · simp [htxid]
  · simp [htxid, mention]

/-- The event only spends known coins that nothing spends yet. -/
def SpendsUnspent (e : TransactionEvent) (s : Store) : Prop :=
  ∀ i ∈ e.inputs, ∃ c, record? Coin s i.previous = some c ∧ c.spentBy = none

theorem onCoin_of_new (hnew : e.effectiveReplaced = none) (o : Outpoint) (found : Option Coin) :
    e.onCoin o found = e.spend o (e.make o found) := by
  rw [onCoin, release, hnew]

/-- A coin that nothing spent before the event is released as it was. -/
theorem released_spend {c : Coin} (hnone : c.spentBy = none) (o : Outpoint) :
    (e.spend o (some c)).map (Coin.released e.txid) = some c := by
  have hspender : (e.spender? o).filter (fun t => t.txid ≠ e.txid) = none := by
    cases ht : e.spender? o with
    | none => rfl
    | some t => simp [Option.filter, txid_of_spender? ht]
  rw [(e.spend_eq o (some c)).1 c rfl, Option.map_some, Coin.released_eq]
  simp only [hnone, Option.or_none, hspender]
  rw [← hnone]

/-- What an event made is removed, and what it spent is released, by an event that replaces it. -/
theorem onCoin_undone {s : Store} (hnew : e.effectiveReplaced = none)
    (hreplaced : f.effectiveReplaced = some e.txid) (hunspent : e.SpendsUnspent s) (o : Outpoint) :
    f.onCoin o (e.onCoin o (record? Coin s o)) = f.onCoin o (record? Coin s o) := by
  suffices hrelease : f.release o (e.onCoin o (record? Coin s o)) =
      f.release o (record? Coin s o) by
    rw [onCoin, hrelease, onCoin]
  unfold release
  rw [hreplaced]
  simp only [Operation.onCoin]
  by_cases ho : o.txid = e.txid
  · rw [if_pos ho, if_pos ho]
  · have hmake : ∀ u ∈ e.made, u.outpoint ≠ o := fun u hu huo =>
      ho (huo ▸ txid_of_mem_made hu)
    rw [if_neg ho, if_neg ho, onCoin_of_new hnew, make_eq_of_ne hmake]
    by_cases hspends : ∃ i ∈ e.inputs, i.previous = o
    · obtain ⟨i, hi, rfl⟩ := hspends
      obtain ⟨c, hc, hnone⟩ := hunspent i hi
      have hkept : c.released e.txid = c := Coin.released_eq_self fun t ht => by
        rw [hnone] at ht
        cases ht
      rw [hc, released_spend hnone, Option.map_some, hkept]
    · rw [spend_eq_of_ne]
      rintro u hu huo
      obtain ⟨i, hi, rfl⟩ := List.mem_map.1 hu
      exact hspends ⟨i, hi, huo⟩

/-- The coins of an event that only spends known coins are those that it makes. -/
theorem isSome_onCoin_iff {s : Store} (hnew : e.effectiveReplaced = none)
    (hunspent : e.SpendsUnspent s) (o : Outpoint) :
    (e.onCoin o (record? Coin s o)).isSome = true ↔
      (record? Coin s o).isSome = true ∨ ∃ p ∈ e.outputs, o = ⟨e.txid, p.index⟩ := by
  constructor
  · intro hsome
    by_contra hnot
    obtain ⟨hnone, hmade⟩ := not_or.1 hnot
    have hfound : record? Coin s o = none := by simpa using hnone
    have hmake : ∀ u ∈ e.made, u.outpoint ≠ o := by
      rintro u hu rfl
      obtain ⟨p, hp, rfl⟩ := List.mem_map.1 hu
      exact hmade ⟨p, hp, rfl⟩
    have hspend : ∀ u ∈ e.spent, u.outpoint ≠ o := by
      rintro u hu rfl
      obtain ⟨i, hi, rfl⟩ := List.mem_map.1 hu
      obtain ⟨c, hc, -⟩ := hunspent i hi
      exact absurd (hc.symm.trans hfound) (by simp)
    rw [onCoin_of_new hnew, make_eq_of_ne hmake, spend_eq_of_ne hspend, hfound] at hsome
    cases hsome
  · rintro (hfound | ⟨p, hp, rfl⟩)
    · exact isSome_onCoin (by simp [hnew]) hfound
    · exact isSome_onCoin_of_made (List.mem_map_of_mem hp) _

end TransactionEvent

/-! ### The result -/

/-- **A transaction that is recorded and then replaced leaves no trace but closed channels.**  Let an
event that replaces nothing spend only known coins that nothing spends, and let another event replace
its transaction.  If both are recorded one after the other, the coins, the transactions and the
scripts of transactions are the same, row by row, as after the second event alone.  So are the
channels, but for those that are funded by the outputs that the first event lists: these are gone. -/
theorem observe_replaced {l l₁ l₂ : Ledger} (hs : WellFormed l.store) {name name' : String}
    {source source' : TrackedSource} {e f : TransactionEvent}
    (he : l.run (observe name source e) = (.ok (), l₁))
    (hf : l.run (observe name' source' f) = (.ok (), l₂))
    (hnew : e.effectiveReplaced = none) (hreplaced : f.effectiveReplaced = some e.txid)
    (hunspent : e.SpendsUnspent l.store) :
    ∃ l', l₁.run (observe name' source' f) = (.ok (), l') ∧
      SameRows .coin l₂.store l'.store ∧ SameRows .transaction l₂.store l'.store ∧
      SameRows .transactionScript l₂.store l'.store ∧
      ∀ k, record? Channel l'.store k =
        if ∃ p ∈ e.outputs, k.funding = ⟨e.txid, p.index⟩ then none
        else record? Channel l₂.store k := by
  obtain ⟨w, -, hcommit₁⟩ := run_observe_ok he
  obtain ⟨w', hw', hcommit₂⟩ := run_observe_ok hf
  have hs₁ : WellFormed l₁.store := hs.commit hcommit₁
  have hs₂ : WellFormed l₂.store := hs.commit hcommit₂
  have hfound : findWallet l₁.store name' = .ok (some w') := by
    rw [findWallet_eq_of_sameRows ((writes_commit hcommit₁).sameRows wallet_notMem_writes_observation),
      hw']
  obtain ⟨s', hcommit, hrun⟩ := exists_run_observe_of_findWallet hs₁ hfound source' f
  have hs' : WellFormed s' := hs₁.commit hcommit
  refine ⟨_, hrun, hs₂.sound.sameRows (α := Coin) hs'.sound fun o => ?_,
    hs₂.sound.sameRows (α := TransactionRecord) hs'.sound fun t => ?_,
    hs₂.sound.sameRows (α := TransactionScript) hs'.sound fun k => ?_, fun k => ?_⟩
  · rw [record?_coin_observation hs₁ hcommit, record?_coin_observation hs hcommit₁,
      record?_coin_observation hs hcommit₂, TransactionEvent.onCoin_undone hnew hreplaced hunspent]
  · rw [record?_transaction_observation hs₁ hcommit, record?_transaction_observation hs hcommit₁,
      record?_transaction_observation hs hcommit₂, TransactionEvent.onTransaction_undone hnew hreplaced]
  · rw [record?_transactionScript_observation hs₁ hcommit,
      record?_transactionScript_observation hs hcommit₁,
      record?_transactionScript_observation hs hcommit₂,
      TransactionEvent.onTransactionScript_undone hnew hreplaced]
  · have htxid : (∃ p ∈ e.outputs, k.funding = ⟨e.txid, p.index⟩) → e.txid = k.funding.txid := by
      rintro ⟨p, -, hp⟩
      rw [hp]
    simp only [record?_channel_observation hs₁ hcommit, record?_channel_observation hs hcommit₁,
      record?_channel_observation hs hcommit₂, record?_coin_observation hs hcommit₁, hnew, hreplaced,
      Option.some.injEq, TransactionEvent.isSome_onCoin_iff hnew hunspent]
    -- a funding coin is stored when the second event comes if it was known or is listed
    by_cases hlisted : ∃ p ∈ e.outputs, k.funding = ⟨e.txid, p.index⟩
    · rw [if_pos ⟨htxid hlisted, .inr hlisted⟩, if_pos hlisted]
    · simp [hlisted]

/-- A payment, which is the only report so far. -/
def singlePayment : List Report := [aliasReport 1 1000 none none]

/-- The payment is spent by a transaction, which is replaced by another one that spends it. -/
theorem observe_replaced_respent :
    ∃ l₁ l₂ l' : Ledger, Reachable (aliasLedger.serveAll (singlePayment.map Report.request)) ∧
      (aliasLedger.serveAll (singlePayment.map Report.request)).run
        (observe "alias" (.scheme "scheme") (aliasReport 2 900 (some 1) none).event) =
          (.ok (), l₁) ∧
      (aliasLedger.serveAll (singlePayment.map Report.request)).run
        (observe "alias" (.scheme "scheme") (aliasReport 3 800 (some 1) (some 2)).event) =
          (.ok (), l₂) ∧
      l₁.run (observe "alias" (.scheme "scheme") (aliasReport 3 800 (some 1) (some 2)).event) =
        (.ok (), l') ∧
      SameRows .coin l₂.store l'.store := by
  have hwf := reachable_aliasLedger.wellFormed
  have hwf' := hwf.serveAll_requests singlePayment
  obtain ⟨w, hw⟩ := exists_findWallet_aliasLedger singlePayment
  obtain ⟨s₁, -, he⟩ := exists_run_observe_of_findWallet hwf' hw (.scheme "scheme")
    (aliasReport 2 900 (some 1) none).event
  obtain ⟨s₂, -, hf⟩ := exists_run_observe_of_findWallet hwf' hw (.scheme "scheme")
    (aliasReport 3 800 (some 1) (some 2)).event
  have hpaid : record? Coin (aliasLedger.serveAll (singlePayment.map Report.request)).store
      ⟨repeatedTxid 1, 0⟩ = some ⟨⟨repeatedTxid 1, 0⟩, aliasScript, 1000, none⟩ := by
    rw [record?_coin_serveAll hwf, heard_aliasLedger (by simp [singlePayment]),
      record?_aliasLedger (by decide)]
    decide
  have hunspent : (aliasReport 2 900 (some 1) none).event.SpendsUnspent
      (aliasLedger.serveAll (singlePayment.map Report.request)).store := by
    intro i hi
    obtain rfl := List.mem_singleton.1 hi
    exact ⟨_, hpaid, rfl⟩
  obtain ⟨l', hrun, hcoins, -⟩ := observe_replaced hwf' he hf (by decide) (by decide) hunspent
  exact ⟨_, _, l', reachable_aliasLedger.serveAll _, he, hf, hrun, hcoins⟩

end CoinLedger
