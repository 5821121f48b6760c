import CoinLedger.Proofs.Ledger.Confirmation
import CoinLedger.Proofs.Store.Scans

/-! # What a new block confirms

When a block is found, the service that watches the chain is asked about each pending transaction, in
the order of their keys.  If it answers all the questions, the transactions for which it names a block
are recorded with that block (`confirmations_eq_ok`); at the first question that fails nothing is
recorded at all (`confirmations_eq_error`).

`TransactionRecord.refreshed` is a record after the refresh, whether it was pending or not, and
`Refreshes` says of a store that it is another one with all of its transactions refreshed.  The
result is `newBlock_refreshes`. -/

namespace CoinLedger

open Ledger

/-! ### Answers of the service -/

namespace ChainTable

/-- The service has an answer to the question for the transaction. -/
def Answers (table : ChainTable) (txid : Txid) : Prop :=
  ∃ status, table.status txid = .ok status

/-- The block that holds the transaction, if the service names one. -/
def block? (table : ChainTable) (txid : Txid) : Option BlockHash :=
  match table.status txid with
  | .ok (some block) => block
  | _ => none

end ChainTable

variable {table : ChainTable} {s s' : Store}

/-- The record with the block that holds the transaction, if it tells none. -/
def TransactionRecord.refreshed (table : ChainTable) (t : TransactionRecord) : TransactionRecord :=
  { t with block := t.block.or (table.block? t.txid) }

/-- What is to be written about a pending transaction. -/
def confirmation? (table : ChainTable) (t : TransactionRecord) : Option Operation :=
  (table.block? t.txid).map fun block => .setBlock t.txid (some block)

theorem confirmations_cons {t : TransactionRecord} {ts : List TransactionRecord}
    (h : table.Answers t.txid) :
    confirmations table (t :: ts) =
      (confirmations table ts).map fun rest => (confirmation? table t).toList ++ rest := by
  obtain ⟨status, hstatus⟩ := h
  rw [confirmations, hstatus, ok_bind, confirmation?, ChainTable.block?, hstatus]
  cases confirmations table ts with
  | error e => rfl
  | ok rest => rcases status with _ | _ | _ <;> rfl

/-- If all questions are answered, the transactions are recorded for which a block is named. -/
theorem confirmations_eq_ok {ts : List TransactionRecord} (h : ∀ t ∈ ts, table.Answers t.txid) :
    confirmations table ts = .ok (ts.filterMap (confirmation? table)) := by
  induction ts with
  | nil => rfl
  | cons t ts ih =>
      obtain ⟨ht, hts⟩ := List.forall_mem_cons.1 h
      rw [confirmations_cons ht, ih hts, List.filterMap_cons]
      cases confirmation? table t <;> rfl

/-- The error of the first question that fails is the error of all of them. -/
theorem confirmations_eq_error {before after : List TransactionRecord} {t : TransactionRecord}
    {e : Error} (hbefore : ∀ t ∈ before, table.Answers t.txid) (h : table.status t.txid = .error e) :
    confirmations table (before ++ t :: after) = .error e := by
  induction before with
  | nil =>
      rw [List.nil_append, confirmations, h]
      rfl
  | cons t' before ih =>
      obtain ⟨ht', hrest⟩ := List.forall_mem_cons.1 hbefore
      rw [List.cons_append, confirmations_cons ht', ih hrest]
      rfl

/-- Either all questions are answered, or there is a first one that fails. -/
theorem answers_or_exists_first (table : ChainTable) (ts : List TransactionRecord) :
    (∀ t ∈ ts, table.Answers t.txid) ∨
      ∃ before t after e, ts = before ++ t :: after ∧
        (∀ t' ∈ before, table.Answers t'.txid) ∧ table.status t.txid = .error e := by
  induction ts with
  | nil => exact .inl (by simp)
  | cons t ts ih =>
      cases hstatus : table.status t.txid with
      | error e => exact .inr ⟨[], t, ts, e, rfl, by simp, hstatus⟩
      | ok status =>
          have ht : table.Answers t.txid := ⟨status, hstatus⟩
          rcases ih with hall | ⟨before, t', after, e, rfl, hbefore, he⟩
          · exact .inl (List.forall_mem_cons.2 ⟨ht, hall⟩)
          · exact .inr ⟨t :: before, t', after, e, rfl, List.forall_mem_cons.2 ⟨ht, hbefore⟩, he⟩

/-! ### The table of transactions -/

theorem onAll_confirmation? (txid : Txid) (t : TransactionRecord)
    (found : Option TransactionRecord) :
    Pointwise.onAll txid (confirmation? table t).toList found =
      if t.txid = txid then
        found.map fun known => { known with block := (table.block? txid).or known.block }
      else found := by
  unfold confirmation?
  by_cases htxid : t.txid = txid
  · subst htxid
    cases table.block? t.txid with
    | none => simp
    | some block => simp [Pointwise.on, Operation.onTransaction]
  · cases table.block? t.txid with
    | none => simp [htxid]
    | some block => simp [htxid, Pointwise.on, Operation.onTransaction]

/-- The confirmations of a list set the block of each of its transactions for which one is named. -/
theorem onAll_confirmations (txid : Txid) (ts : List TransactionRecord)
    (found : Option TransactionRecord) :
    Pointwise.onAll txid (ts.filterMap (confirmation? table)) found =
      if txid ∈ ts.map TransactionRecord.txid then
        found.map fun known => { known with block := (table.block? txid).or known.block }
      else found := by
  induction ts generalizing found with
  | nil => rfl
  | cons t ts ih =>
      have hcons : (t :: ts).filterMap (confirmation? table) =
          (confirmation? table t).toList ++ ts.filterMap (confirmation? table) := by
        rw [List.filterMap_cons]
        cases confirmation? table t <;> rfl
      rw [hcons, Pointwise.onAll_append, onAll_confirmation?, ih]
      by_cases htxid : t.txid = txid
      · -- to set a block once more changes nothing
        subst htxid
        cases table.block? t.txid <;> cases found <;> simp
      · simp [htxid, Ne.symm htxid]

/-- The pending transactions are listed in the order of their keys. -/
theorem lists_pendingTransactions (hs : Sound TransactionRecord s) :
    Lists s (pendingTransactions s) fun t => t.block = none := by
  have hall : allTransactions s =
      .ok (recordsFrom TransactionRecord s (RowRange.kind .transaction).start) :=
    hs.scanEntities rfl
  refine ⟨_, by rw [pendingTransactions, hall]; rfl, fun t => ?_,
    (hs.recordsFrom_sorted rfl).sublist List.filter_sublist⟩
  have hstart : (RowRange.kind .transaction).start <+: rowKey TransactionRecord (Entity.key t) :=
    rowKey_startsWith_kind (α := TransactionRecord) t.txid
  rw [List.mem_filter, hs.mem_recordsFrom rfl, hs.hasRow_iff, and_iff_left hstart]
  simp [TransactionRecord.isConfirmed]

/-- Every record is refreshed when the confirmations of the pending ones are written. -/
theorem record?_confirmed (hs : WellFormed s) {pending : List TransactionRecord}
    (hpending : pendingTransactions s = .ok pending)
    (h : commit s (pending.filterMap (confirmation? table)) = .ok s') (txid : Txid) :
    record? TransactionRecord s' txid =
      (record? TransactionRecord s txid).map (·.refreshed table) := by
  rw [Pointwise.record?_commit hs.sound h, onAll_confirmations]
  have hlisted := mem_pendingTransactions hs.sound hpending txid
  cases hfound : record? TransactionRecord s txid with
  | none => simp
  | some t =>
      obtain rfl : t.txid = txid := hs.sound.key_eq hfound
      obtain ⟨txid, block⟩ := t
      rw [hfound] at hlisted
      cases block with
      | none =>
          rw [if_pos (hlisted.2 rfl)]
          simp [TransactionRecord.refreshed]
      | some block =>
          rw [if_neg (by rw [hlisted]; simp)]
          rfl

/-! ### Refreshed stores -/

/-- The second store is the first one with its transactions refreshed, and this many of them were
confirmed. -/
structure Refreshes (table : ChainTable) (s s' : Store) (n : Nat) : Prop where
  /-- The transactions are those that were stored before, and the pending ones have the blocks that
  the service names. -/
  records : ∀ t', HasRow s' t' ↔ ∃ t : TransactionRecord, HasRow s t ∧ t.refreshed table = t'
  /-- The number is that of the pending transactions for which a block is named. -/
  count : ∃ confirmed : List TransactionRecord, confirmed.length = n ∧ confirmed.Nodup ∧
    ∀ t, t ∈ confirmed ↔ HasRow s t ∧ t.block = none ∧ (table.block? t.txid).isSome = true
  /-- All other rows are as they were. -/
  others : ∀ key, (∀ t : TransactionRecord, HasRow s t → t.block = none →
    (table.block? t.txid).isSome = true → rowKey TransactionRecord t.txid ≠ key) →
      s'.get? key = s.get? key

theorem TransactionRecord.refreshed_eq_self {t : TransactionRecord}
    (h : ¬(t.block = none ∧ (table.block? t.txid).isSome = true)) : t.refreshed table = t := by
  obtain ⟨txid, block⟩ := t
  cases block with
  | some block => rfl
  | none =>
      have hnone : table.block? txid = none := by simpa using h
      rw [refreshed, hnone]
      rfl

theorem refreshes_of_commit (hs : WellFormed s) {pending : List TransactionRecord}
    (hpending : pendingTransactions s = .ok pending)
    (h : commit s (pending.filterMap (confirmation? table)) = .ok s') :
    Refreshes table s s' (pending.filterMap (confirmation? table)).length where
  records t' := by
    have hs' : Sound TransactionRecord s' := (hs.commit h).sound
    rw [hs'.hasRow_iff, record?_confirmed hs hpending h, Option.map_eq_some_iff]
    constructor
    · rintro ⟨t, ht, rfl⟩
      exact ⟨t, hs.sound.hasRow_of_record? ht, rfl⟩
    · rintro ⟨t, ht, rfl⟩
      exact ⟨t, hs.sound.hasRow_iff.1 ht, rfl⟩
  count := by
    obtain ⟨listed, hlisted, hmem, hsorted⟩ := lists_pendingTransactions (s := s) hs.sound
    obtain rfl : listed = pending := Except.ok.inj (hlisted.symm.trans hpending)
    refine ⟨listed.filter fun t => (table.block? t.txid).isSome, ?_,
      (nodup_of_sorted hsorted).sublist List.filter_sublist, fun t => ?_⟩
    · rw [List.length_filterMap_eq_countP, List.countP_eq_length_filter]
      simp [confirmation?]
    · rw [List.mem_filter, hmem, and_assoc]
  others key hkey := by
    refine get?_commit (α := TransactionRecord) hs h (fun op hop => ?_) ?_
    · obtain ⟨t, -, hop⟩ := List.mem_filterMap.1 hop
      obtain ⟨block, -, rfl⟩ := Option.map_eq_some_iff.1 hop
      exact List.Subset.refl _
    · rintro txid rfl
      rw [record?_confirmed hs hpending h]
      cases hfound : record? TransactionRecord s txid with
      | none => rfl
      | some t =>
          have hrow : HasRow s t := hs.sound.hasRow_of_record? hfound
          have hsame : t.refreshed table = t := TransactionRecord.refreshed_eq_self fun hnew =>
            hkey t hrow hnew.1 hnew.2 (hs.sound.rowKey_eq hfound)
          rw [Option.map_some, hsame]

namespace Refreshes

variable {n : Nat}

/-- What is pending in a refreshed store was pending before, and no block is named for it. -/
theorem of_pending (h : Refreshes table s s' n) {t' : TransactionRecord} (ht' : HasRow s' t')
    (hpending : t'.block = none) : HasRow s t' ∧ table.block? t'.txid = none := by
  obtain ⟨t, ht, rfl⟩ := (h.records t').1 ht'
  obtain ⟨hblock, hnone⟩ := Option.or_eq_none_iff.1 hpending
  rw [TransactionRecord.refreshed_eq_self fun hnew => by simp [hnone] at hnew]
  exact ⟨ht, hnone⟩

/-- No row is made, and none is lost. -/
theorem isSome_get? (h : Refreshes table s s' n) (key : Bytes) :
    (s'.get? key).isSome = (s.get? key).isSome := by
  by_cases hkey : ∃ t : TransactionRecord, HasRow s t ∧ rowKey TransactionRecord t.txid = key
  · obtain ⟨t, ht, rfl⟩ := hkey
    have hrow : HasRow s' (t.refreshed table) := (h.records _).2 ⟨t, ht, rfl⟩
    have hbefore : s.get? (rowKey TransactionRecord t.txid) = some _ := ht
    have hafter : s'.get? (rowKey TransactionRecord t.txid) = some _ := hrow
    rw [hbefore, hafter, Option.isSome_some, Option.isSome_some]
  · rw [h.others key fun t ht _ _ hsame => hkey ⟨t, ht, hsame⟩]

/-- A record that tells a block stays as it is. -/
theorem hasRow_of_confirmed (h : Refreshes table s s' n) {t : TransactionRecord} (ht : HasRow s t)
    (hblock : t.block ≠ none) : HasRow s' t :=
  (h.records t).2 ⟨t, ht, TransactionRecord.refreshed_eq_self fun hnew => hblock hnew.1⟩

end Refreshes

/-! ### The run -/

namespace Ledger

variable {l : Ledger} {pending : List TransactionRecord}

theorem run_newBlock_eq_error (hchain : l.chain = some table)
    (hpending : pendingTransactions l.store = .ok pending) {e : Error}
    (h : confirmations table pending = .error e) : l.run newBlock = (.error e, l) := by
  simp only [newBlock, run_bind, run_get, hchain, run_read, hpending, run_check, h]

/-- If all questions are answered the store is refreshed. -/
theorem exists_run_newBlock_eq_ok (hs : WellFormed l.store) (hchain : l.chain = some table)
    (hpending : pendingTransactions l.store = .ok pending)
    (h : ∀ t ∈ pending, table.Answers t.txid) :
    ∃ s', commit l.store (pending.filterMap (confirmation? table)) = .ok s' ∧
      l.run newBlock =
        (.ok (pending.filterMap (confirmation? table)).length, { l with store := s' }) := by
  have hneeds : ∀ op ∈ pending.filterMap (confirmation? table), op.needsWallet = false := by
    intro op hop
    obtain ⟨t, -, hop⟩ := List.mem_filterMap.1 hop
    obtain ⟨block, -, rfl⟩ := Option.map_eq_some_iff.1 hop
    rfl
  obtain ⟨s', hcommit⟩ := exists_commit_eq_ok hs hneeds
  refine ⟨s', hcommit, ?_⟩
  simp only [newBlock, run_bind, run_get, hchain, run_read, hpending, run_check,
    confirmations_eq_ok h, run_write, hcommit, run_pure]

/-- To refresh a refreshed store changes nothing. -/
theorem run_newBlock_of_refreshes (hs : WellFormed l.store) (hchain : l.chain = some table)
    {s : Store} {n : Nat} (h : Refreshes table s l.store n)
    (hanswers : ∀ t : TransactionRecord, HasRow s t → t.block = none → table.Answers t.txid) :
    l.run newBlock = (.ok 0, l) := by
  obtain ⟨pending, hpending, hmem, -⟩ := lists_pendingTransactions (s := l.store) hs.sound
  have hquiet : ∀ t ∈ pending, HasRow s t ∧ t.block = none ∧ table.block? t.txid = none := by
    intro t ht
    obtain ⟨hrow, hblock⟩ := (hmem t).1 ht
    obtain ⟨hbefore, hnone⟩ := h.of_pending hrow hblock
    exact ⟨hbefore, hblock, hnone⟩
  have hbatch : pending.filterMap (confirmation? table) = [] := by
    refine List.filterMap_eq_nil_iff.2 fun t ht => ?_
    rw [confirmation?, (hquiet t ht).2.2, Option.map_none]
  obtain ⟨s', hcommit, hrun⟩ := exists_run_newBlock_eq_ok hs hchain hpending fun t ht =>
    hanswers t (hquiet t ht).1 (hquiet t ht).2.1
  rw [hbatch] at hcommit hrun
  obtain rfl : l.store = s' := Except.ok.inj hcommit
  exact hrun

/-- **A new block confirms what the chain confirms.**  A ledger whose chain is watched asks about its
pending transactions in the order of their keys.  If all questions are answered, exactly those for
which a block is named get this block, the result is their number, and no other row changes; to ask
once more then finds nothing to do.  If a question fails, the result is the error of the first one,
and nothing changes at all, whatever was answered before.  In any case no row is made or lost, and
the records that tell a block stay as they are. -/
theorem newBlock_refreshes (hs : WellFormed l.store) (hchain : l.chain = some table) :
    Lists l.store (pendingTransactions l.store) (fun t => t.block = none) ∧
      (∃ pending, pendingTransactions l.store = .ok pending ∧
        ((∀ t ∈ pending, table.Answers t.txid) ∧
            (∃ n s', l.run newBlock = (.ok n, { l with store := s' }) ∧
              Refreshes table l.store s' n ∧
              ({ l with store := s' } : Ledger).run newBlock = (.ok 0, { l with store := s' })) ∨
          ∃ before t after e, pending = before ++ t :: after ∧
            (∀ t' ∈ before, table.Answers t'.txid) ∧ table.status t.txid = .error e ∧
            l.run newBlock = (.error e, l))) ∧
      (∀ key, ((l.run newBlock).2.store.get? key).isSome = (l.store.get? key).isSome) ∧
      ∀ t : TransactionRecord, HasRow l.store t → t.block ≠ none →
        HasRow (l.run newBlock).2.store t := by
  refine ⟨lists_pendingTransactions hs.sound, ?_⟩
  obtain ⟨pending, hpending, hmem, -⟩ := lists_pendingTransactions (s := l.store) hs.sound
  rcases answers_or_exists_first table pending with hall | ⟨before, t, after, e, rfl, hbefore, he⟩
  · obtain ⟨s', hcommit, hrun⟩ := exists_run_newBlock_eq_ok hs hchain hpending hall
    have hrefreshes := refreshes_of_commit hs hpending hcommit
    have hagain := run_newBlock_of_refreshes (l := { l with store := s' }) (hs.commit hcommit) hchain
      hrefreshes fun t ht hblock => hall t ((hmem t).2 ⟨ht, hblock⟩)
    rw [hrun]
    exact ⟨⟨pending, hpending, .inl ⟨hall, _, s', rfl, hrefreshes, hagain⟩⟩,
      hrefreshes.isSome_get?, fun t ht hblock => hrefreshes.hasRow_of_confirmed ht hblock⟩
  · have hrun : l.run newBlock = (.error e, l) :=
      run_newBlock_eq_error hchain hpending (confirmations_eq_error hbefore he)
    rw [hrun]
    exact ⟨⟨_, hpending, .inr ⟨before, t, after, e, rfl, hbefore, he, rfl⟩⟩, fun _ => rfl,
      fun _ ht _ => ht⟩

/-! ### Three payments -/

/-- Three payments to a wallet that no block holds. -/
def threePayments : List Report :=
  [aliasReport 1 1000 none none, aliasReport 2 900 none none, aliasReport 3 800 none none]

/-- A service that knows the block of the first payment, and that no block holds the second one; it
has no answer about these transactions. -/
def oneBlockTable (failing : List Txid) : ChainTable where
  failTrack := ⟨[]⟩
  failStatus := failing
  statuses := [(repeatedTxid 1, some .zero), (repeatedTxid 2, none)]
  tracked := []

theorem hasRow_threePayments {b : UInt8} (hb : b ∈ [1, 2, 3]) :
    HasRow (aliasLedger.serveAll (threePayments.map Report.request)).store
      (⟨repeatedTxid b, none⟩ : TransactionRecord) := by
  have hreach := reachable_aliasLedger.serveAll (threePayments.map Report.request)
  have hlast : ∃ e, lastWord? (repeatedTxid b) (heard aliasLedger.store threePayments) = some e ∧
      e.txid = repeatedTxid b ∧ e.block = none := by
    rw [heard_aliasLedger (by simp [threePayments])]
    simp only [List.mem_cons, List.not_mem_nil, or_false] at hb
    rcases hb with rfl | rfl | rfl
    · exact ⟨(aliasReport 1 1000 none none).event, by decide, rfl, rfl⟩
    · exact ⟨(aliasReport 2 900 none none).event, by decide, rfl, rfl⟩
    · exact ⟨(aliasReport 3 800 none none).event, by decide, rfl, rfl⟩
  obtain ⟨e, he, htxid, hblock⟩ := hlast
  have hrecord := record?_transaction_serveAll reachable_aliasLedger.wellFormed threePayments
    (repeatedTxid b)
  simp only [he, htxid, if_true, hblock] at hrecord
  exact hreach.wellFormed.sound.hasRow_of_record? hrecord

/-- Any service may watch the chain for a ledger. -/
theorem exists_watched (hl : Reachable l) (table : ChainTable) :
    ∃ l', Reachable l' ∧ l'.chain = some table ∧ l'.store = l.store :=
  ⟨l.watchedBy (some table), .served hl (.setChain (some table)), rfl, rfl⟩

/-- A ledger that has heard of the payments, watched over by this service. -/
theorem exists_threePayments (table : ChainTable) :
    ∃ l, Reachable l ∧ l.chain = some table ∧
      ∀ b ∈ [1, 2, 3], HasRow l.store (⟨repeatedTxid b, none⟩ : TransactionRecord) := by
  obtain ⟨l, hreach, hchain, hstore⟩ :=
    exists_watched (reachable_aliasLedger.serveAll (threePayments.map Report.request)) table
  refine ⟨l, hreach, hchain, fun b hb => ?_⟩
  rw [hstore]
  exact hasRow_threePayments hb

theorem block?_oneBlockTable (txid : Txid) :
    (oneBlockTable []).block? txid = if txid = repeatedTxid 1 then some .zero else none := by
  have hstatus : (oneBlockTable []).status txid = .ok ((oneBlockTable []).statuses.lookup txid) := rfl
  rw [ChainTable.block?, hstatus, oneBlockTable, List.lookup_cons, List.lookup_cons, List.lookup_nil]
  by_cases hone : txid = repeatedTxid 1
  · simp [hone]
  · rw [if_neg hone, beq_false_of_ne hone]
    cases txid == repeatedTxid 2 <;> rfl

/-- One transaction is confirmed if the first payment was pending. -/
theorem count_oneBlockTable {n : Nat} (h : Refreshes (oneBlockTable []) s s' n)
    (hrow : HasRow s (⟨repeatedTxid 1, none⟩ : TransactionRecord)) : n = 1 := by
  obtain ⟨confirmed, rfl, hnodup, hmem⟩ := h.count
  have hone : confirmed.Perm [⟨repeatedTxid 1, none⟩] := by
    refine (List.perm_ext_iff_of_nodup hnodup (List.nodup_singleton _)).2 fun t => ?_
    rw [hmem, block?_oneBlockTable, List.mem_singleton]
    constructor
    · rintro ⟨-, hblock, hnamed⟩
      have htxid : t.txid = repeatedTxid 1 := by
        by_contra hne
        rw [if_neg hne] at hnamed
        cases hnamed
      obtain ⟨txid, block⟩ := t
      simp only at hblock htxid
      rw [hblock, htxid]
    · rintro rfl
      exact ⟨hrow, rfl, by rw [if_pos rfl]; rfl⟩
  rw [hone.length_eq, List.length_singleton]

/-- The payment that is in a block is confirmed, and the others are not.  If there is no answer about
the third one, none is. -/
theorem newBlock_refreshes_threePayments :
    (∃ l s', Reachable l ∧ l.chain = some (oneBlockTable []) ∧
      l.run newBlock = (.ok 1, { l with store := s' }) ∧
      HasRow s' (⟨repeatedTxid 1, some .zero⟩ : TransactionRecord) ∧
      HasRow s' (⟨repeatedTxid 2, none⟩ : TransactionRecord) ∧
      HasRow s' (⟨repeatedTxid 3, none⟩ : TransactionRecord)) ∧
    ∃ l e, Reachable l ∧ l.chain = some (oneBlockTable [repeatedTxid 3]) ∧
      HasRow l.store (⟨repeatedTxid 1, none⟩ : TransactionRecord) ∧
      l.run newBlock = (.error e, l) := by
  constructor
  · obtain ⟨l, hreach, hchain, hrows⟩ := exists_threePayments (oneBlockTable [])
    obtain ⟨-, ⟨pending, -, hcases⟩, -, -⟩ := newBlock_refreshes hreach.wellFormed hchain
    rcases hcases with ⟨-, n, s', hrun, hrefreshes, -⟩ | ⟨before, t, after, e, -, -, he, -⟩
    · have hrefreshed : ∀ b ∈ [1, 2, 3], HasRow s' (⟨repeatedTxid b,
          if repeatedTxid b = repeatedTxid 1 then some .zero else none⟩ : TransactionRecord) := by
        intro b hb
        refine (hrefreshes.records _).2 ⟨_, hrows b hb, ?_⟩
        rw [TransactionRecord.refreshed, block?_oneBlockTable, Option.none_or]
      obtain rfl : n = 1 := count_oneBlockTable hrefreshes (hrows 1 (by simp))
      exact ⟨l, s', hreach, hchain, hrun, hrefreshed 1 (by simp), hrefreshed 2 (by simp),
        hrefreshed 3 (by simp)⟩
    · cases he
  · obtain ⟨l, hreach, hchain, hrows⟩ := exists_threePayments (oneBlockTable [repeatedTxid 3])
    obtain ⟨⟨listed, hlisted, hmem, -⟩, ⟨pending, hpending, hcases⟩, -, -⟩ :=
      newBlock_refreshes hreach.wellFormed hchain
    obtain rfl : listed = pending := Except.ok.inj (hlisted.symm.trans hpending)
    rcases hcases with ⟨hanswers, -⟩ | ⟨before, t, after, e, -, -, -, hrun⟩
    · obtain ⟨status, hstatus⟩ := hanswers _ ((hmem _).2 ⟨hrows 3 (by simp), rfl⟩)
      simp [ChainTable.status, oneBlockTable, Refusals.ofTexts, Refusals.error?] at hstatus
    · exact ⟨l, e, hreach, hchain, hrows 1 (by simp), hrun⟩

end Ledger

end CoinLedger
