import CoinLedger.Proofs.Ledger.Requests
import CoinLedger.Proofs.Ledger.Tables

/-! # Reports of transactions

A report asks the ledger to record a transaction for a wallet (`Report.request`).  It is heard if
the wallet is found, and then writes one batch (`Report.batch`); otherwise it changes nothing.
Since reports leave wallets as they are, the store at the start tells which reports are heard
(`heard`), and serving reports commits their batches one after the other
(`serveAll_requests`).

What an event makes of the record of a transaction and of the scripts of a transaction is
`TransactionEvent.onTransaction` and `TransactionEvent.onTransactionScript`, next to
`TransactionEvent.onCoin` for coins.  A table after an event is what the event makes of it, record by
record (`record?_coin_observation` and its siblings), and a table after reports is what their batches
make of it (`record?_serveAll`). -/

namespace CoinLedger

open Ledger

/-! ### Reports and wallets -/

namespace Report

/-- What is asked of the ledger. -/
def request (r : Report) : Request := .observe r.wallet r.source r.event

/-- The wallet that the report is about. -/
def wallet? (s : Store) (r : Report) : Option Wallet :=
  match findWallet s r.wallet with
  | .ok found => found
  | .error _ => none

/-- What the report writes. -/
def batch (s : Store) (r : Report) : Batch :=
  match r.wallet? s with
  | some w => observation w r.source r.event
  | none => []

end Report

/-- The events of the reports whose wallets are found. -/
def heard (s : Store) (reports : List Report) : List TransactionEvent :=
  (reports.filter fun r => (r.wallet? s).isSome).map Report.event

theorem mem_heard {s : Store} {reports : List Report} {e : TransactionEvent} :
    e ∈ heard s reports ↔ ∃ r ∈ reports, (r.wallet? s).isSome = true ∧ r.event = e := by
  simp [heard, and_assoc]

/-- Tables with the same rows are read alike. -/
theorem SameRows.scan_eq {kind : EntityKind} {s s' : Store} (h : SameRows kind s s')
    {start : Bytes} (hstart : start.head? = some kind.byte) : s'.scan start = s.scan start := by
  refine ByteMap.rows_ext (s'.scan_sorted start) (s.scan_sorted start) fun (key, value) => ?_
  rw [ByteMap.mem_scan, ByteMap.mem_scan]
  refine and_congr_left fun hkey => ?_
  obtain ⟨rest, rfl⟩ := hkey
  rw [h _ (by rw [List.head?_append, hstart]; rfl)]

theorem findWallet_eq_of_sameRows {s s' : Store} (h : SameRows .wallet s s') (name : String) :
    findWallet s' name = findWallet s name := by
  have hrow : RowSource.row? s' (rowKey Wallet name) = RowSource.row? s (rowKey Wallet name) :=
    h _ (head?_rowKey name)
  have hrows : RowSource.rowsFrom s' (RowRange.kind .wallet).start =
      RowSource.rowsFrom s (RowRange.kind .wallet).start := h.scan_eq rfl
  unfold findWallet allWallets getEntity scanEntities
  rw [hrow, hrows]

namespace Report

variable {s s' : Store}

theorem wallet?_eq_of_sameRows (h : SameRows .wallet s s') (r : Report) :
    r.wallet? s' = r.wallet? s := by
  rw [wallet?, findWallet_eq_of_sameRows h, wallet?]

theorem batch_eq_of_sameRows (h : SameRows .wallet s s') (r : Report) :
    r.batch s' = r.batch s := by
  rw [batch, r.wallet?_eq_of_sameRows h, batch]

/-- The wallet that a report is about is stored. -/
theorem record?_of_wallet? (hs : Sound Wallet s) {r : Report} {w : Wallet}
    (h : r.wallet? s = some w) : record? Wallet s w.id = some w := by
  unfold wallet? at h
  split at h
  · rename_i hfound
    exact record?_of_findWallet hs (h ▸ hfound)
  · cases h

theorem needsWallet_of_mem_batch {r : Report} {op : Operation} (hop : op ∈ r.batch s) :
    op.needsWallet = false := by
  unfold batch at hop
  split at hop
  · exact needsWallet_of_mem_observation hop
  · cases hop

theorem sameRows_wallet_of_commit {r : Report} (h : commit s (r.batch s) = .ok s') :
    SameRows .wallet s s' := by
  refine (writes_commit h).sameRows ?_
  unfold batch
  split
  · exact wallet_notMem_writes_observation
  · simp

/-- A report commits its batch, and changes nothing else. -/
theorem serve_request {l : Ledger} (hs : WellFormed l.store) (r : Report) :
    ∃ s', commit l.store (r.batch l.store) = .ok s' ∧ l.serve r.request = { l with store := s' } := by
  have hfind : ∃ found, findWallet l.store r.wallet = .ok found := by
    unfold findWallet
    rw [hs.sound.getEntity]
    cases record? Wallet l.store r.wallet with
    | some w => exact ⟨_, rfl⟩
    | none =>
        have hall : allWallets l.store = .ok _ := hs.sound.scanEntities rfl
        rw [hall]
        exact ⟨_, rfl⟩
  obtain ⟨found, hfound⟩ := hfind
  obtain ⟨s', hs'⟩ := exists_commit_eq_ok hs fun _ hop => r.needsWallet_of_mem_batch hop
  refine ⟨s', hs', ?_⟩
  rw [serve, request, Request.action, observe, run_bind, run_read, hfound]
  cases found with
  | none =>
      have hnone : r.batch l.store = [] := by simp [batch, wallet?, hfound]
      rw [hnone] at hs'
      obtain rfl : l.store = s' := Except.ok.inj hs'
      rfl
  | some w =>
      have hsome : r.batch l.store = observation w r.source r.event := by
        simp [batch, wallet?, hfound]
      rw [hsome] at hs'
      simp only [run_write, hs']

end Report

/-- Reports commit their batches one after the other, and change nothing else. -/
theorem serveAll_requests (reports : List Report) :
    ∀ {l : Ledger}, WellFormed l.store →
      ∃ s', commit l.store (reports.flatMap (Report.batch l.store)) = .ok s' ∧
        l.serveAll (reports.map Report.request) = { l with store := s' } := by
  induction reports with
  | nil => exact fun {l} _ => ⟨l.store, rfl, rfl⟩
  | cons r reports ih =>
      intro l hs
      obtain ⟨s₁, hcommit, hserve⟩ := r.serve_request hs
      have hrows : SameRows .wallet l.store s₁ := Report.sameRows_wallet_of_commit hcommit
      have hs₁ : WellFormed s₁ := hs.commit hcommit
      obtain ⟨s', hrest, hserveAll⟩ := ih (l := { l with store := s₁ }) hs₁
      have hbatch : Report.batch s₁ = Report.batch l.store :=
        funext (Report.batch_eq_of_sameRows hrows)
      simp only [hbatch] at hrest
      refine ⟨s', ?_, ?_⟩
      · rw [List.flatMap_cons, commit_append, hcommit]
        exact hrest
      · rw [List.map_cons, serveAll_cons, hserve]
        exact hserveAll

theorem WellFormed.serveAll_requests {l : Ledger} (hs : WellFormed l.store)
    (reports : List Report) : WellFormed (l.serveAll (reports.map Report.request)).store := by
  obtain ⟨s', hcommit, hserve⟩ := CoinLedger.serveAll_requests reports hs
  rw [hserve]
  exact hs.commit hcommit

/-- Reports leave the wallets as they are. -/
theorem sameRows_wallet_serveAll {l : Ledger} (hs : WellFormed l.store) (reports : List Report) :
    SameRows .wallet l.store (l.serveAll (reports.map Report.request)).store := by
  refine sameRows_serveAll hs fun r hr => ?_
  obtain ⟨report, -, rfl⟩ := List.mem_map.1 hr
  simp [Report.request, Request.writes]

theorem heard_append (s : Store) (reports more : List Report) :
    heard s (reports ++ more) = heard s reports ++ heard s more := by
  simp [heard]

/-- What holds at the start, and is kept by the batch of one more report, holds after reports. -/
theorem serveAll_induction {l : Ledger} (hs : WellFormed l.store) {reports : List Report}
    {P : List Report → Store → Prop} (hnil : P [] l.store)
    (hstep : ∀ {served : List Report} {r : Report} {s s' : Store}, served ++ [r] <+: reports →
      WellFormed s → P served s → commit s (r.batch l.store) = .ok s' → P (served ++ [r]) s') :
    P reports (l.serveAll (reports.map Report.request)).store := by
  have hprefix : ∀ served, served <+: reports →
      P served (l.serveAll (served.map Report.request)).store := by
    intro served
    induction served using List.reverseRecOn with
    | nil => exact fun _ => hnil
    | append_singleton served r ih =>
        intro hserved
        have hbefore := ih ((List.prefix_append served [r]).trans hserved)
        have hs₁ := hs.serveAll_requests served
        obtain ⟨s', hcommit, hserve⟩ := r.serve_request hs₁
        rw [Report.batch_eq_of_sameRows (sameRows_wallet_serveAll hs served)] at hcommit
        rw [List.map_append, serveAll_append, List.map_singleton, serveAll_cons, serveAll_nil, hserve]
        exact hstep hserved hs₁ hbefore hcommit
  exact hprefix reports (List.prefix_refl reports)

/-- What holds at the start, and is kept when one more event is recorded, holds after reports. -/
theorem heard_induction {l : Ledger} (hs : WellFormed l.store) {reports : List Report}
    {P : List TransactionEvent → Store → Prop} (hnil : P [] l.store)
    (hstep : ∀ {events : List TransactionEvent} {s s' : Store} {w : Wallet}
      {source : TrackedSource} {e : TransactionEvent},
      events ++ [e] <+: heard l.store reports → WellFormed s → P events s →
        commit s (observation w source e) = .ok s' → P (events ++ [e]) s') :
    P (heard l.store reports) (l.serveAll (reports.map Report.request)).store := by
  refine serveAll_induction hs (P := fun served s => P (heard l.store served) s) hnil ?_
  rintro served r s s' ⟨rest, rfl⟩ hwf hbefore hcommit
  rw [heard_append]
  unfold Report.batch at hcommit
  cases hw : r.wallet? l.store with
  | none =>
      have hheard : heard l.store [r] = [] := by simp [heard, hw]
      rw [hw] at hcommit
      obtain rfl := Except.ok.inj hcommit
      rw [hheard, List.append_nil]
      exact hbefore
  | some w =>
      have hheard : heard l.store [r] = [r.event] := by simp [heard, hw]
      rw [hw] at hcommit
      rw [hheard]
      refine hstep ?_ hwf hbefore hcommit
      rw [heard_append, heard_append, hheard]
      exact List.prefix_append _ _

/-! ### What an event makes of a record -/

namespace TransactionEvent

/-- What an event makes of the record of this transaction. -/
def onTransaction (e : TransactionEvent) (txid : Txid) (found : Option TransactionRecord) :
    Option TransactionRecord :=
  if e.txid = txid then some ⟨e.txid, e.block⟩
  else if e.effectiveReplaced = some txid then none else found

/-- The script of a transaction with this key, as an event reports it: it is spent if an input has
it. -/
def mention (e : TransactionEvent) (k : TransactionScriptKey) : Option TransactionScript :=
  if e.txid = k.txid then
    if k.script ∈ e.inputs.map ObservedInput.script then some ⟨k.txid, k.script, true⟩
    else if k.script ∈ e.outputs.map ObservedOutput.script then some ⟨k.txid, k.script, false⟩
    else none
  else none

/-- What an event makes of the script of a transaction with this key. -/
def onTransactionScript (e : TransactionEvent) (k : TransactionScriptKey)
    (found : Option TransactionScript) : Option TransactionScript :=
  (if e.effectiveReplaced = some k.txid then none else found).or (e.mention k)

end TransactionEvent

section

variable (w : Wallet) (source : TrackedSource) (e : TransactionEvent)

open CoinLedger.Pointwise

theorem onAll_reportedScripts {α κ : Type} [Entity α κ] [Pointwise α]
    (hkind : Entity.kind α ≠ .walletScript) (key : κ) (found : Option α) :
    onAll key ((reportedScripts w source e).map (if source.isDeterministic then
      Operation.mergeWalletScript else Operation.insertWalletScript)) found = found := by
  refine onAll_map_of_notMem_writes key _ (fun s => ?_) found
  cases source.isDeterministic <;> simpa [Operation.writes] using hkind

theorem onAll_transaction_observation (txid : Txid) (found : Option TransactionRecord) :
    onAll txid (observation w source e) found = e.onTransaction txid found := by
  have hupsert : on txid (.upsertTransaction ⟨e.txid, e.block⟩) found =
      if e.txid = txid then some ⟨e.txid, e.block⟩ else found := rfl
  simp only [observation, onAll_cons, onAll_append]
  rw [onAll_map_of_notMem_writes txid e.inputs (by simp [Operation.writes, Entity.kind]),
    onAll_map_of_notMem_writes txid e.outputs (by simp [Operation.writes, Entity.kind]),
    onAll_map_of_notMem_writes txid e.outputs (by simp [Operation.writes, Entity.kind]),
    onAll_map_of_notMem_writes txid e.inputs (by simp [Operation.writes, Entity.kind]),
    onAll_reportedScripts w source e (by decide),
    onAll_map_of_notMem_writes txid e.scripts (by simp [Operation.writes, Entity.kind]),
    hupsert, TransactionEvent.onTransaction]
  cases hr : e.effectiveReplaced with
  | none => simp
  | some r =>
      have hretract : ∀ found : Option TransactionRecord, onAll txid [.retractTransaction r] found =
          if r = txid then none else found := fun _ => rfl
      have hne : r ≠ e.txid := fun heq => e.effectiveReplaced_ne (heq ▸ hr)
      rw [Option.toList_some, List.map_cons, List.map_nil, hretract]
      by_cases htxid : e.txid = txid
      · subst htxid
        simp [hne]
      · simp [htxid]

/-- Scripts of a transaction that are inserted one after the other. -/
theorem onAll_insertTransactionScript {β : Type} (txid : Txid) (script : β → Script) (spent : Bool)
    (k : TransactionScriptKey) (xs : List β) (found : Option TransactionScript) :
    onAll k (xs.map fun x => .insertTransactionScript ⟨txid, script x, spent⟩) found =
      found.or (if txid = k.txid ∧ k.script ∈ xs.map script then some ⟨k.txid, k.script, spent⟩
        else none) := by
  induction xs generalizing found with
  | nil => simp
  | cons x xs ih =>
      have hon : on k (.insertTransactionScript ⟨txid, script x, spent⟩) found =
          if (⟨txid, script x⟩ : TransactionScriptKey) = k then
            found.or (some ⟨txid, script x, spent⟩) else found := rfl
      rw [List.map_cons, onAll_cons, hon, ih]
      by_cases hk : (⟨txid, script x⟩ : TransactionScriptKey) = k
      · subst hk
        cases found <;> simp
      · have hne : ¬(txid = k.txid ∧ k.script = script x) := by
          rintro ⟨rfl, h⟩
          exact hk (by rw [← h])
        rw [if_neg hk]
        congr 1
        simp only [List.map_cons, List.mem_cons]
        by_cases htxid : txid = k.txid
        · simp only [htxid, true_and] at hne
          simp [hne]
        · simp [htxid]

theorem onAll_transactionScript_observation (k : TransactionScriptKey)
    (found : Option TransactionScript) :
    onAll k (observation w source e) found = e.onTransactionScript k found := by
  have hupsert : on k (.upsertTransaction ⟨e.txid, e.block⟩) found = found := rfl
  have hrelease : onAll k (e.effectiveReplaced.toList.map Operation.retractTransaction) found =
      if e.effectiveReplaced = some k.txid then none else found := by
    cases e.effectiveReplaced with
    | none => rfl
    | some r =>
        have hretract : onAll k [.retractTransaction r] found =
            if r = k.txid then none else found := rfl
        simp [hretract]
  simp only [observation, onAll_cons, onAll_append]
  rw [onAll_map_of_notMem_writes k e.inputs (by simp [Operation.writes, Entity.kind]),
    onAll_map_of_notMem_writes k e.outputs (by simp [Operation.writes, Entity.kind]),
    onAll_insertTransactionScript, onAll_insertTransactionScript,
    onAll_reportedScripts w source e (by decide),
    onAll_map_of_notMem_writes k e.scripts (by simp [Operation.writes, Entity.kind]),
    hupsert, hrelease, TransactionEvent.onTransactionScript, Option.or_assoc]
  congr 1
  unfold TransactionEvent.mention
  by_cases htxid : e.txid = k.txid
  · simp only [htxid, true_and, if_true]
    split <;> simp
  · simp [htxid]

theorem onAll_walletScript_observation (k : WalletScriptKey) (found : Option WalletScript) :
    onAll k (observation w source e) found =
      onAll k ((reportedScripts w source e).map (if source.isDeterministic then
        Operation.mergeWalletScript else Operation.insertWalletScript)) found := by
  have hupsert : on k (.upsertTransaction ⟨e.txid, e.block⟩) found = found := rfl
  simp only [observation, onAll_cons, onAll_append]
  rw [onAll_map_of_notMem_writes k e.inputs (by simp [Operation.writes, Entity.kind]),
    onAll_map_of_notMem_writes k e.outputs (by simp [Operation.writes, Entity.kind]),
    onAll_map_of_notMem_writes k e.outputs (by simp [Operation.writes, Entity.kind]),
    onAll_map_of_notMem_writes k e.inputs (by simp [Operation.writes, Entity.kind]), hupsert,
    onAll_map_of_notMem_writes k e.effectiveReplaced.toList (by simp [Operation.writes, Entity.kind]),
    onAll_map_of_notMem_writes k e.scripts (by simp [Operation.writes, Entity.kind])]

theorem onAll_coin_observation (o : Outpoint) (found : Option Coin) :
    onAll o (observation w source e) found = e.onCoin o found :=
  foldl_onCoin_observation w source e o found

end

section

variable {s s' : Store} {w : Wallet} {source : TrackedSource} {e : TransactionEvent}

theorem record?_transaction_observation (hs : WellFormed s)
    (h : commit s (observation w source e) = .ok s') (txid : Txid) :
    record? TransactionRecord s' txid = e.onTransaction txid (record? TransactionRecord s txid) := by
  rw [Pointwise.record?_commit hs.sound h, onAll_transaction_observation]

theorem record?_transactionScript_observation (hs : WellFormed s)
    (h : commit s (observation w source e) = .ok s') (k : TransactionScriptKey) :
    record? TransactionScript s' k = e.onTransactionScript k (record? TransactionScript s k) := by
  rw [Pointwise.record?_commit hs.sound h, onAll_transactionScript_observation]

theorem record?_coin_observation (hs : WellFormed s)
    (h : commit s (observation w source e) = .ok s') (o : Outpoint) :
    record? Coin s' o = e.onCoin o (record? Coin s o) := by
  rw [Pointwise.record?_commit hs.sound h, onAll_coin_observation]

end

/-! ### Tables after reports -/

section

variable {l : Ledger} {reports : List Report}

open CoinLedger.Pointwise

theorem onAll_flatMap_batch {α κ : Type} [Entity α κ] [Pointwise α] {key : κ}
    {f : TransactionEvent → Option α → Option α}
    (hf : ∀ w source e found, onAll key (observation w source e) found = f e found) (s : Store)
    (reports : List Report) (found : Option α) :
    onAll key (reports.flatMap (Report.batch s)) found =
      (heard s reports).foldl (fun found e => f e found) found := by
  induction reports generalizing found with
  | nil => rfl
  | cons r reports ih =>
      rw [List.flatMap_cons, onAll_append, ih, heard, heard, List.filter_cons]
      unfold Report.batch
      cases r.wallet? s with
      | none => rfl
      | some w => simp [hf]

/-- Reports make of each record what their batches make of it. -/
theorem record?_serveAll {α κ : Type} [Entity α κ] [Stored α] [Pointwise α]
    (hs : WellFormed l.store) (reports : List Report) (key : κ) :
    record? α (l.serveAll (reports.map Report.request)).store key =
      onAll key (reports.flatMap (Report.batch l.store)) (record? α l.store key) := by
  obtain ⟨s', hcommit, hserve⟩ := serveAll_requests reports hs
  rw [hserve, Pointwise.record?_commit hs.sound hcommit]

theorem record?_coin_serveAll (hs : WellFormed l.store) (reports : List Report) (o : Outpoint) :
    record? Coin (l.serveAll (reports.map Report.request)).store o =
      (heard l.store reports).foldl (fun found e => e.onCoin o found) (record? Coin l.store o) := by
  rw [record?_serveAll hs, onAll_flatMap_batch fun w source e =>
    onAll_coin_observation w source e o]

end

/-! ### A ledger with one wallet

The id of a wallet is a hash, and is not computed here: the wallet is called by its alias. -/

namespace Key

/-- The words in the first line of the list. -/
theorem exists_wordList_eq_append : ∃ rest, wordList =
    ["abandon", "ability", "able", "about", "above", "absent", "absorb", "abstract", "absurd",
      "abuse", "access", "accident"] ++ rest := by
  have hline : Text.words
      "abandon ability able about above absent absorb abstract absurd abuse access accident".toList =
        ["abandon", "ability", "able", "about", "above", "absent", "absorb", "abstract", "absurd",
          "abuse", "access", "accident"].map String.toList := by decide +kernel
  obtain ⟨lines, hlines⟩ : ∃ lines, wordLines =
      "abandon ability able about above absent absorb abstract absurd abuse access accident" ::
        lines := ⟨_, rfl⟩
  refine ⟨lines.flatMap fun line => (Text.words line.toList).map String.ofList, ?_⟩
  rw [wordList, hlines, List.flatMap_cons, hline]
  simp only [List.map_cons, List.map_nil, String.ofList_toList]

theorem wordNumber?_abandon : wordNumber? "abandon" = some 0 := by
  obtain ⟨rest, hrest⟩ := exists_wordList_eq_append
  rw [wordNumber?, hrest, List.findIdx?_append]
  rfl

theorem wordNumber?_about : wordNumber? "about" = some 3 := by
  obtain ⟨rest, hrest⟩ := exists_wordList_eq_append
  rw [wordNumber?, hrest, List.findIdx?_append]
  rfl

theorem numbersFrom_replicate {word : String} {n : Nat} (hword : wordNumber? word = some n)
    (count : Nat) {place : Nat} {rest : List String} {numbers : List Nat}
    (hrest : Mnemonic.numbersFrom (place + count) rest = .ok numbers) :
    Mnemonic.numbersFrom place (List.replicate count word ++ rest) =
      .ok (List.replicate count n ++ numbers) := by
  induction count generalizing place with
  | zero => exact hrest
  | succ count ih =>
      have htail : Mnemonic.numbersFrom (place + 1) (List.replicate count word ++ rest) =
          .ok (List.replicate count n ++ numbers) := ih (by rwa [Nat.add_right_comm])
      rw [List.replicate_succ, List.cons_append, Mnemonic.numbersFrom, hword]
      simp only [htail]
      rfl

/-- The mnemonic of 128 bits that are all zero. -/
def zeroMnemonic : String :=
  "abandon abandon abandon abandon abandon abandon abandon abandon abandon abandon abandon about"

theorem parse_zeroMnemonic :
    Mnemonic.parse zeroMnemonic = .ok ⟨[0, 0, 0, 0, 0, 0, 0, 0, 0, 0, 0, 3]⟩ := by
  have hwords : Text.words (Text.Compatibility.decompose zeroMnemonic.toList) =
      (List.replicate 11 "abandon" ++ ["about"]).map String.toList := by decide +kernel
  have hchecksum : Mnemonic.checksumHolds [0, 0, 0, 0, 0, 0, 0, 0, 0, 0, 0, 3] = true := by
    decide +kernel
  have hnumbers : Mnemonic.numbersFrom 0 (List.replicate 11 "abandon" ++ ["about"]) =
      .ok [0, 0, 0, 0, 0, 0, 0, 0, 0, 0, 0, 3] := by
    refine numbersFrom_replicate wordNumber?_abandon 11 ?_
    rw [Mnemonic.numbersFrom, wordNumber?_about]
    rfl
  unfold Mnemonic.parse
  simp only [hwords, List.map_map, List.length_map]
  rw [show String.ofList ∘ String.toList = id from funext fun _ => String.ofList_toList, List.map_id,
    hnumbers]
  simp [hchecksum, Mnemonic.wordCounts]

end Key

/-- A ledger in which one wallet was made. -/
def aliasLedger : Ledger :=
  (Ledger.ofStore .empty .regtest none).serve
    (.createWallet Key.zeroMnemonic "test" "m/84'/1'/0'/0/*" .zero ["alias"])

theorem reachable_aliasLedger : Reachable aliasLedger := .served (.opened .regtest none) _

/-- The wallet of this ledger, up to its id. -/
def aliasWallet (id : String) : Wallet :=
  ⟨id, "test", Key.zeroMnemonic, "m/84'/1'/0'/0/*", 0, .zero, ["alias"]⟩

theorem exists_store_aliasLedger :
    ∃ id, aliasLedger.store = putEntity ByteMap.empty (aliasWallet id) ∧
      aliasLedger.chain = none := by
  obtain ⟨master, hmaster⟩ : ∃ master, Key.masterKey Key.zeroMnemonic .regtest = .ok master := by
    rw [Key.masterKey, Key.parse_zeroMnemonic]
    exact ⟨_, rfl⟩
  have htemplate : Key.checkTemplate "m/84'/1'/0'/0/*" = .ok () := by decide
  have hcommit : ∀ w : Wallet, commit ByteMap.empty [.insertWallet w] =
      .ok (putEntity ByteMap.empty w) := by
    intro w
    rw [commit_singleton]
    rfl
  refine ⟨Key.walletId master, ?_⟩
  simp only [aliasLedger, serve, Request.action, createWallet, run_bind, run_check, htemplate,
    run_get, Ledger.ofStore, hmaster, run_write, hcommit]
  exact ⟨rfl, rfl⟩

theorem exists_wallet_aliasLedger :
    ∃ id, record? Wallet aliasLedger.store id = some (aliasWallet id) ∧
      findWallet aliasLedger.store "alias" = .ok (some (aliasWallet id)) := by
  obtain ⟨id, hstore, -⟩ := exists_store_aliasLedger
  have hs : Sound Wallet aliasLedger.store := reachable_aliasLedger.wellFormed.sound
  have honly : ∀ k, record? Wallet aliasLedger.store k =
      if id = k then some (aliasWallet id) else none := by
    intro k
    rw [hstore, record?_putEntity]
    rfl
  have hw : record? Wallet aliasLedger.store id = some (aliasWallet id) := by
    rw [honly, if_pos rfl]
  refine ⟨id, hw, ?_⟩
  unfold findWallet
  rw [hs.getEntity]
  cases hfound : record? Wallet aliasLedger.store "alias" with
  | some w =>
      rw [honly] at hfound
      split at hfound
      · rw [← Option.some.inj hfound]
        rfl
      · cases hfound
  | none =>
      have hall : allWallets aliasLedger.store = .ok _ := hs.scanEntities rfl
      have hmem : aliasWallet id ∈ recordsFrom Wallet aliasLedger.store (RowRange.kind .wallet).start :=
        (hs.mem_recordsFrom rfl).2 ⟨hw, rowKey_startsWith_kind (α := Wallet) id⟩
      have hsome : ((recordsFrom Wallet aliasLedger.store (RowRange.kind .wallet).start).find?
          fun w => w.isNamed "alias").isSome = true := by
        refine List.find?_isSome.2 ⟨_, hmem, ?_⟩
        simp [Wallet.isNamed, aliasWallet]
      obtain ⟨w, hw⟩ := Option.isSome_iff_exists.1 hsome
      have hstored := ((hs.mem_recordsFrom rfl).1 (List.mem_of_find?_eq_some hw)).1
      rw [honly] at hstored
      split at hstored
      · rw [hall, Option.some.inj hstored, ← hw]
        rfl
      · cases hstored

/-- The wallet is found after any reports. -/
theorem exists_findWallet_aliasLedger (reports : List Report) :
    ∃ w, findWallet (aliasLedger.serveAll (reports.map Report.request)).store "alias" =
      .ok (some w) := by
  obtain ⟨id, -, hw⟩ := exists_wallet_aliasLedger
  have hrows := sameRows_wallet_serveAll reachable_aliasLedger.wellFormed reports
  exact ⟨_, (findWallet_eq_of_sameRows hrows "alias").trans hw⟩

/-- There are only wallets in this ledger. -/
theorem record?_aliasLedger {α κ : Type} [Entity α κ] (hkind : Entity.kind α ≠ .wallet) (key : κ) :
    record? α aliasLedger.store key = none := by
  obtain ⟨id, hstore, -⟩ := exists_store_aliasLedger
  have hrows : SameRows (Entity.kind α) ByteMap.empty (putEntity ByteMap.empty (aliasWallet id)) :=
    .putEntity hkind.symm _ (aliasWallet id)
  rw [hstore, hrows.record?_eq]
  rfl

/-- The script that the wallet is paid to in the examples. -/
def aliasScript : Script := ⟨0 :: 20 :: List.replicate 20 17⟩

/-- A report of a transaction that pays the wallet once; it may spend a payment of 1000, and it may
replace a transaction. -/
def aliasReport (b : UInt8) (value : UInt64) (spends replaces : Option UInt8) : Report where
  wallet := "alias"
  source := .scheme "scheme"
  event :=
    { txid := repeatedTxid b, block := none, replaced := replaces.map repeatedTxid,
      inputs := spends.toList.map fun c => ⟨0, ⟨repeatedTxid c, 0⟩, aliasScript, 1000, none⟩,
      outputs := [⟨0, aliasScript, value, some "0"⟩] }

/-- The report is one of these. -/
def IsAliasReport (r : Report) : Prop :=
  ∃ b value spends replaces, r = aliasReport b value spends replaces

@[simp] theorem isAliasReport_aliasReport (b : UInt8) (value : UInt64)
    (spends replaces : Option UInt8) : IsAliasReport (aliasReport b value spends replaces) :=
  ⟨_, _, _, _, rfl⟩

theorem IsAliasReport.isSome_wallet? {r : Report} (h : IsAliasReport r) :
    (r.wallet? aliasLedger.store).isSome = true := by
  obtain ⟨b, value, spends, replaces, rfl⟩ := h
  obtain ⟨id, -, hw⟩ := exists_wallet_aliasLedger
  rw [Report.wallet?, show (aliasReport b value spends replaces).wallet = "alias" from rfl, hw]
  rfl

/-- All these reports are heard. -/
theorem heard_aliasLedger {reports : List Report} (h : ∀ r ∈ reports, IsAliasReport r) :
    heard aliasLedger.store reports = reports.map Report.event := by
  rw [heard, List.filter_eq_self.2 fun r hr => (h r hr).isSome_wallet?]

end CoinLedger
