import CoinLedger.Proofs.Ledger.Legible
import CoinLedger.Proofs.Ledger.Reports

/-! # The block that holds a transaction

An event tells the block that holds its transaction, or that none does, and this replaces what was
known (`TransactionEvent.onTransaction`).  So the last event decides that is of the transaction or
replaces it (`lastWord?`), whatever was reported before (`foldl_onTransaction`), and with it whether
the transaction is pending (`confirmation_of_reports`).

A confirmation is therefore only as good as the order of the reports.  The report of a transaction
that no block holds makes it pending again if it comes late, behind the report of the block
(`pending_of_lateReport`). -/

namespace CoinLedger

open Ledger

/-! ### The last word -/

/-- The last of these events that is of the transaction or replaces it. -/
def lastWord? (txid : Txid) (events : List TransactionEvent) : Option TransactionEvent :=
  events.reverse.find? fun e => e.txid = txid ∨ e.effectiveReplaced = some txid

theorem lastWord?_append_singleton (txid : Txid) (events : List TransactionEvent)
    (e : TransactionEvent) :
    lastWord? txid (events ++ [e]) =
      if e.txid = txid ∨ e.effectiveReplaced = some txid then some e else lastWord? txid events := by
  rw [lastWord?, List.reverse_append, List.reverse_singleton, List.singleton_append,
    List.find?_cons]
  by_cases he : e.txid = txid ∨ e.effectiveReplaced = some txid
  · simp [he]
  · simp [he, lastWord?]

theorem lastWord?_of_txid (events : List TransactionEvent) (e : TransactionEvent) :
    lastWord? e.txid (events ++ [e]) = some e := by
  rw [lastWord?_append_singleton, if_pos (.inl rfl)]

/-- The last event that is of a transaction or replaces it decides about the record, and without one
the record stays. -/
theorem foldl_onTransaction (txid : Txid) (events : List TransactionEvent)
    (found : Option TransactionRecord) :
    events.foldl (fun found e => e.onTransaction txid found) found =
      match lastWord? txid events with
      | some e => if e.txid = txid then some ⟨txid, e.block⟩ else none
      | none => found := by
  induction events using List.reverseRecOn with
  | nil => rfl
  | append_singleton events e ih =>
      rw [List.foldl_append, List.foldl_cons, List.foldl_nil, ih, lastWord?_append_singleton,
        TransactionEvent.onTransaction]
      by_cases htxid : e.txid = txid
      · simp [htxid]
      · by_cases hreplaced : e.effectiveReplaced = some txid
        · simp [htxid, hreplaced]
        · simp [htxid, hreplaced]

/-- Reports leave the record of a transaction as the last word tells it. -/
theorem record?_transaction_serveAll {l : Ledger} (hs : WellFormed l.store) (reports : List Report)
    (txid : Txid) :
    record? TransactionRecord (l.serveAll (reports.map Report.request)).store txid =
      match lastWord? txid (heard l.store reports) with
      | some e => if e.txid = txid then some ⟨txid, e.block⟩ else none
      | none => record? TransactionRecord l.store txid := by
  rw [record?_serveAll hs, onAll_flatMap_batch fun w source e =>
    onAll_transaction_observation w source e txid, foldl_onTransaction]

/-! ### Pending transactions -/

/-- The pending transactions are those whose records tell no block. -/
theorem mem_pendingTransactions {s : Store} (hs : Sound TransactionRecord s)
    {pending : List TransactionRecord} (h : pendingTransactions s = .ok pending) (txid : Txid) :
    txid ∈ pending.map TransactionRecord.txid ↔
      record? TransactionRecord s txid = some ⟨txid, none⟩ := by
  have hall : allTransactions s =
      .ok (recordsFrom TransactionRecord s (RowRange.kind .transaction).start) :=
    hs.scanEntities rfl
  unfold pendingTransactions at h
  rw [hall] at h
  obtain rfl := Except.ok.inj h
  rw [List.mem_map]
  constructor
  · rintro ⟨⟨t, block⟩, ht, rfl⟩
    obtain ⟨hmem, hpending⟩ := List.mem_filter.1 ht
    have hblock : block = none := by simpa [TransactionRecord.isConfirmed] using hpending
    subst hblock
    exact ((hs.mem_recordsFrom rfl).1 hmem).1
  · intro hrecord
    refine ⟨⟨txid, none⟩, List.mem_filter.2 ⟨(hs.mem_recordsFrom rfl).2 ⟨hrecord, ?_⟩, rfl⟩, rfl⟩
    exact rowKey_startsWith_kind (α := TransactionRecord) txid

/-! ### The result -/

/-- **The last report tells the block that holds a transaction.**  After any reports, and for each
transaction, look for the last event among those heard that is of the transaction or replaces it.  If
it is of the transaction, the record tells the block of this event, and the transaction is pending
just when the event tells none.  If it replaces the transaction, there is no record, and the
transaction is not pending.  If there is no such event, the record is as it was. -/
theorem confirmation_of_reports {l : Ledger} (hs : WellFormed l.store) (reports : List Report)
    (txid : Txid) :
    ∃ s' pending, l.serveAll (reports.map Report.request) = { l with store := s' } ∧
      pendingTransactions s' = .ok pending ∧
      (∀ e, lastWord? txid (heard l.store reports) = some e → e.txid = txid →
        record? TransactionRecord s' txid = some ⟨txid, e.block⟩ ∧
          (txid ∈ pending.map TransactionRecord.txid ↔ e.block = none)) ∧
      (∀ e, lastWord? txid (heard l.store reports) = some e → e.txid ≠ txid →
        record? TransactionRecord s' txid = none ∧
          txid ∉ pending.map TransactionRecord.txid) ∧
      (lastWord? txid (heard l.store reports) = none →
        record? TransactionRecord s' txid = record? TransactionRecord l.store txid ∧
          (txid ∈ pending.map TransactionRecord.txid ↔
            record? TransactionRecord l.store txid = some ⟨txid, none⟩)) := by
  obtain ⟨s', hcommit, hserve⟩ := serveAll_requests reports hs
  have hs' : Sound TransactionRecord s' := (hs.commit hcommit).sound
  obtain ⟨pending, hpending⟩ := exists_pendingTransactions_eq_ok hs'
  have hrecord := record?_transaction_serveAll hs reports txid
  have hlisted := mem_pendingTransactions hs' hpending txid
  rw [hserve] at hrecord
  refine ⟨s', pending, hserve, hpending, fun e he htxid => ?_, fun e he htxid => ?_, fun he => ?_⟩
  · have hof : record? TransactionRecord s' txid = some ⟨txid, e.block⟩ := by
      simpa only [he, htxid, if_true] using hrecord
    exact ⟨hof, by rw [hlisted, hof]; simp⟩
  · have hgone : record? TransactionRecord s' txid = none := by
      simpa only [he, htxid, if_false] using hrecord
    exact ⟨hgone, by rw [hlisted, hgone]; simp⟩
  · have hsame : record? TransactionRecord s' txid = record? TransactionRecord l.store txid := by
      simpa only [he] using hrecord
    exact ⟨hsame, by rw [hlisted, hsame]⟩

/-! ### A payment and its block -/

/-- The report that this block holds the transaction. -/
def Report.inBlock (r : Report) (block : BlockHash) : Report :=
  { r with event := { r.event with block := some block } }

/-- A payment to the wallet that no block holds. -/
def waitingReport : Report := aliasReport 1 1000 none none

/-- The same payment in a block. -/
def blockReport : Report := waitingReport.inBlock .zero

/-- These reports are heard in any order. -/
theorem heard_waitingReport {reports : List Report}
    (h : ∀ r ∈ reports, r = waitingReport ∨ r = blockReport) :
    heard aliasLedger.store reports = reports.map Report.event := by
  obtain ⟨id, -, hw⟩ := exists_wallet_aliasLedger
  have hnamed : ∀ r ∈ reports, r.wallet = "alias" := by
    intro r hr
    rcases h r hr with rfl | rfl <;> rfl
  rw [heard, List.filter_eq_self.2 fun r hr => by rw [Report.wallet?, hnamed r hr, hw]; rfl]

/-- The payment is confirmed if the report of the block is the last one. -/
theorem confirmation_of_reports_inBlock :
    ∃ s' pending, aliasLedger.serveAll ([waitingReport, blockReport].map Report.request) =
        { aliasLedger with store := s' } ∧
      pendingTransactions s' = .ok pending ∧
      record? TransactionRecord s' (repeatedTxid 1) = some ⟨repeatedTxid 1, some .zero⟩ ∧
      repeatedTxid 1 ∉ pending.map TransactionRecord.txid := by
  obtain ⟨s', pending, hserve, hpending, hlast, -, -⟩ := confirmation_of_reports
    reachable_aliasLedger.wellFormed [waitingReport, blockReport] (repeatedTxid 1)
  rw [heard_waitingReport (by simp)] at hlast
  obtain ⟨hrecord, hlisted⟩ := hlast blockReport.event
    (lastWord?_of_txid [waitingReport.event] blockReport.event) rfl
  exact ⟨s', pending, hserve, hpending, hrecord, fun hmem => by cases hlisted.1 hmem⟩

/-- The payment is pending again if the report that no block holds it comes behind the report of the
block, for the first time or once more. -/
theorem pending_of_lateReport :
    Reachable aliasLedger ∧ waitingReport.event.replaced = none ∧
      waitingReport.event.block = none ∧
      blockReport.event = { waitingReport.event with block := some .zero } ∧
      ∀ before ∈ [[blockReport], [waitingReport, blockReport]],
        let s' := (aliasLedger.serveAll ((before ++ [waitingReport]).map Report.request)).store
        record? TransactionRecord s' (repeatedTxid 1) = some ⟨repeatedTxid 1, none⟩ ∧
          ∃ pending, pendingTransactions s' = .ok pending ∧
            repeatedTxid 1 ∈ pending.map TransactionRecord.txid := by
  refine ⟨reachable_aliasLedger, rfl, rfl, rfl, fun before hbefore => ?_⟩
  have hall : ∀ r ∈ before ++ [waitingReport], r = waitingReport ∨ r = blockReport := by
    simp only [List.mem_cons, List.not_mem_nil, or_false] at hbefore
    rcases hbefore with rfl | rfl <;> simp
  have hs := reachable_aliasLedger.wellFormed
  have hs' := hs.serveAll_requests (before ++ [waitingReport])
  have hlast : lastWord? (repeatedTxid 1) (heard aliasLedger.store (before ++ [waitingReport])) =
      some waitingReport.event := by
    rw [heard_waitingReport hall, List.map_append]
    exact lastWord?_of_txid (before.map Report.event) waitingReport.event
  have hrecord : record? TransactionRecord _ (repeatedTxid 1) = some ⟨repeatedTxid 1, none⟩ :=
    (record?_transaction_serveAll hs (before ++ [waitingReport]) (repeatedTxid 1)).trans
      (by rw [hlast]; rfl)
  obtain ⟨pending, hpending⟩ := exists_pendingTransactions_eq_ok hs'.sound
  exact ⟨hrecord, pending, hpending, (mem_pendingTransactions hs'.sound hpending _).2 hrecord⟩

end CoinLedger
