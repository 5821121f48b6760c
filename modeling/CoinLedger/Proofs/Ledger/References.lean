import CoinLedger.Proofs.Ledger.Reports

/-! # References between tables

A coin names the transaction that spends it, a script of a transaction names the transaction, and
all three, with the scripts of wallets, name a script.  `Referential` says that what is named is
stored.

`Operation.citedScript` and `Operation.citedTransaction` are what an operation makes a record name
anew, and `Referential.apply` is the step: an operation keeps references whole if what it cites is
stored.  Scripts are never removed, and a transaction is removed only along with what names it, so
that the step carries over to batches that do not retract what they cite (`Referential.commit`).
The batch of an event is cut in two for this: its first part stores what the second part cites.
`references_of_reachable` is the result for all stores that requests lead to. -/

namespace CoinLedger

open Ledger

/-- Whatever a record names is stored. -/
structure Referential (s : Store) : Prop where
  /-- A transaction that spends a coin is recorded. -/
  spender : ∀ o c t, record? Coin s o = some c → c.spentBy = some t →
    (record? TransactionRecord s t.txid).isSome = true
  /-- A transaction with scripts is recorded. -/
  transaction : ∀ k t, record? TransactionScript s k = some t →
    (record? TransactionRecord s t.txid).isSome = true
  coinScript : ∀ o c, record? Coin s o = some c → (record? ScriptRecord s c.script).isSome = true
  walletScript : ∀ k w, record? WalletScript s k = some w →
    (record? ScriptRecord s w.script).isSome = true
  transactionScript : ∀ k t, record? TransactionScript s k = some t →
    (record? ScriptRecord s t.script).isSome = true

/-! ### What operations cite -/

namespace Operation

/-- The script that an operation makes a record name. -/
def citedScript : Operation → Option Script
  | insertWalletScript w | mergeWalletScript w => some w.script
  | insertTransactionScript t => some t.script
  | insertCoin c | mergeCoinSpend c => some c.script
  | _ => none

/-- The transaction that an operation makes a record name. -/
def citedTransaction : Operation → Option Txid
  | insertTransactionScript t => some t.txid
  | insertCoin c | mergeCoinSpend c => c.spentBy.map SpentBy.txid
  | _ => none

variable {op : Operation}

theorem isSome_onScript {script : Script} {found : Option ScriptRecord}
    (h : found.isSome = true) : (op.onScript script found).isSome = true := by
  cases op with
  | insertScript r =>
      rw [onScript]
      split
      · simp
      · exact h
  | _ => exact h

theorem isSome_onTransaction {txid : Txid} {found : Option TransactionRecord}
    (hop : op ≠ retractTransaction txid) (h : found.isSome = true) :
    (op.onTransaction txid found).isSome = true := by
  cases op with
  | upsertTransaction t =>
      rw [onTransaction]
      split
      · rfl
      · exact h
  | setBlock t block =>
      rw [onTransaction]
      split
      · simpa using h
      · exact h
  | retractTransaction t =>
      have hne : t ≠ txid := fun heq => hop (heq ▸ rfl)
      rw [onTransaction, if_neg hne]
      exact h
  | _ => exact h

/-- A coin has the script that it had, or one that the operation cites. -/
theorem script_of_onCoin {o : Outpoint} {found : Option Coin} {c : Coin}
    (h : op.onCoin o found = some c) :
    (∃ c₀, found = some c₀ ∧ c₀.script = c.script) ∨ op.citedScript = some c.script := by
  cases op with
  | retractTransaction txid =>
      rw [onCoin] at h
      split at h
      · cases h
      · obtain ⟨c₀, hc₀, rfl⟩ := Option.map_eq_some_iff.1 h
        refine .inl ⟨c₀, hc₀, ?_⟩
        have hutxo := Coin.utxo_released txid c₀
        exact (congrArg (fun u => u.txout.script) hutxo).symm
  | insertCoin c' =>
      rw [onCoin] at h
      split at h
      · cases found with
        | none => exact .inr (by rw [citedScript, ← Option.some.inj h])
        | some c₀ => exact .inl ⟨c₀, rfl, by rw [Option.some.inj h]⟩
      · exact .inl ⟨c, h, rfl⟩
  | mergeCoinSpend c' =>
      rw [onCoin] at h
      split at h
      · rw [← Option.some.inj h]
        cases found with
        | none => exact .inr rfl
        | some c₀ => exact .inl ⟨c₀, rfl, rfl⟩
      · exact .inl ⟨c, h, rfl⟩
  | _ => exact .inl ⟨c, h, rfl⟩

/-- A coin is spent by what spent it before, unless that is retracted, or by what the operation
cites. -/
theorem spentBy_of_onCoin {o : Outpoint} {found : Option Coin} {c : Coin} {t : SpentBy}
    (h : op.onCoin o found = some c) (ht : c.spentBy = some t) :
    (∃ c₀, found = some c₀ ∧ c₀.spentBy = some t ∧ op ≠ retractTransaction t.txid) ∨
      op.citedTransaction = some t.txid := by
  cases op with
  | retractTransaction txid =>
      rw [onCoin] at h
      split at h
      · cases h
      · obtain ⟨c₀, hc₀, rfl⟩ := Option.map_eq_some_iff.1 h
        obtain ⟨hspent, hne⟩ := Coin.spentBy_released.1 ht
        exact .inl ⟨c₀, hc₀, hspent, by simpa using hne.symm⟩
  | insertCoin c' =>
      rw [onCoin] at h
      split at h
      · cases found with
        | none =>
            obtain rfl := Option.some.inj h
            exact .inr (by rw [citedTransaction, ht]; rfl)
        | some c₀ =>
            obtain rfl := Option.some.inj h
            exact .inl ⟨c₀, rfl, ht, by simp⟩
      · exact .inl ⟨c, h, ht, by simp⟩
  | mergeCoinSpend c' =>
      rw [onCoin] at h
      split at h
      · obtain rfl := Option.some.inj h
        exact .inr (by rw [citedTransaction, ht]; rfl)
      · exact .inl ⟨c, h, ht, by simp⟩
  | _ => exact .inl ⟨c, h, ht, by simp⟩

theorem script_of_onWalletScript {k : WalletScriptKey} {found : Option WalletScript}
    {w : WalletScript} (h : op.onWalletScript k found = some w) :
    (∃ w₀, found = some w₀ ∧ w₀.script = w.script) ∨ op.citedScript = some w.script := by
  cases op with
  | insertWalletScript w' =>
      rw [onWalletScript] at h
      split at h
      · cases found with
        | none => exact .inr (by rw [citedScript, ← Option.some.inj h])
        | some w₀ => exact .inl ⟨w₀, rfl, by rw [Option.some.inj h]⟩
      · exact .inl ⟨w, h, rfl⟩
  | mergeWalletScript w' =>
      rw [onWalletScript] at h
      split at h
      · rw [← Option.some.inj h]
        cases found with
        | none => exact .inr rfl
        | some w₀ => exact .inl ⟨w₀, rfl, rfl⟩
      · exact .inl ⟨w, h, rfl⟩
  | _ => exact .inl ⟨w, h, rfl⟩

theorem cited_of_onTransactionScript {k : TransactionScriptKey} {found : Option TransactionScript}
    {t : TransactionScript} (h : op.onTransactionScript k found = some t) :
    (found = some t ∧ op ≠ retractTransaction k.txid) ∨
      (op.citedScript = some t.script ∧ op.citedTransaction = some t.txid) := by
  cases op with
  | insertTransactionScript t' =>
      rw [onTransactionScript] at h
      split at h
      · cases found with
        | none =>
            obtain rfl := Option.some.inj h
            exact .inr ⟨rfl, rfl⟩
        | some t₀ => exact .inl ⟨h, by simp⟩
      · exact .inl ⟨h, by simp⟩
  | retractTransaction txid =>
      rw [onTransactionScript] at h
      split at h
      · cases h
      · rename_i hne
        exact .inl ⟨h, by simpa using hne⟩
  | _ => exact .inl ⟨h, by simp⟩

end Operation

/-! ### The step -/

/-- What the operations of a batch cite is stored, and none of them retracts it. -/
structure Grounded (s : Store) (batch : Batch) : Prop where
  script : ∀ op ∈ batch, ∀ x, op.citedScript = some x → (record? ScriptRecord s x).isSome = true
  transaction : ∀ op ∈ batch, ∀ t, op.citedTransaction = some t →
    (record? TransactionRecord s t).isSome = true ∧ .retractTransaction t ∉ batch

section

variable {s s' : Store} {op : Operation}

theorem isSome_script_of_apply (hs : WellFormed s) (h : op.apply s = .ok s') {script : Script}
    (hscript : (record? ScriptRecord s script).isSome = true) :
    (record? ScriptRecord s' script).isSome = true := by
  rw [Pointwise.record?_apply hs.sound h]
  exact Operation.isSome_onScript hscript

theorem isSome_transaction_of_apply (hs : WellFormed s) (h : op.apply s = .ok s') {txid : Txid}
    (hop : op ≠ .retractTransaction txid)
    (htxid : (record? TransactionRecord s txid).isSome = true) :
    (record? TransactionRecord s' txid).isSome = true := by
  rw [Pointwise.record?_apply hs.sound h]
  exact Operation.isSome_onTransaction hop htxid

/-- An operation keeps references whole if what it cites is stored. -/
theorem Referential.apply (href : Referential s) (hs : WellFormed s)
    (hground : Grounded s [op]) (h : op.apply s = .ok s') : Referential s' := by
  have hscript : ∀ x, op.citedScript = some x → (record? ScriptRecord s' x).isSome = true :=
    fun x hx => isSome_script_of_apply hs h (hground.script op (by simp) x hx)
  have htransaction : ∀ t, op.citedTransaction = some t →
      (record? TransactionRecord s' t).isSome = true := by
    intro t ht
    obtain ⟨hstored, hop⟩ := hground.transaction op (by simp) t ht
    refine isSome_transaction_of_apply hs h ?_ hstored
    rintro rfl
    exact hop (by simp)
  constructor
  · intro o c t hc ht
    rw [Pointwise.record?_apply hs.sound h] at hc
    rcases Operation.spentBy_of_onCoin hc ht with ⟨c₀, hc₀, ht₀, hop⟩ | hcited
    · exact isSome_transaction_of_apply hs h hop (href.spender o c₀ t hc₀ ht₀)
    · exact htransaction _ hcited
  · intro k t ht
    have hkey : Entity.key t = k := (hs.commit (commit_singleton s op ▸ h)).sound.key_eq ht
    rw [Pointwise.record?_apply hs.sound h] at ht
    rcases Operation.cited_of_onTransactionScript ht with ⟨hfound, hop⟩ | ⟨-, hcited⟩
    · have htxid : t.txid = k.txid := congrArg TransactionScriptKey.txid hkey
      rw [← htxid] at hop
      exact isSome_transaction_of_apply hs h hop (href.transaction k t hfound)
    · exact htransaction _ hcited
  · intro o c hc
    rw [Pointwise.record?_apply hs.sound h] at hc
    rcases Operation.script_of_onCoin hc with ⟨c₀, hc₀, hsame⟩ | hcited
    · exact isSome_script_of_apply hs h (hsame ▸ href.coinScript o c₀ hc₀)
    · exact hscript _ hcited
  · intro k w hw
    rw [Pointwise.record?_apply hs.sound h] at hw
    rcases Operation.script_of_onWalletScript hw with ⟨w₀, hw₀, hsame⟩ | hcited
    · exact isSome_script_of_apply hs h (hsame ▸ href.walletScript k w₀ hw₀)
    · exact hscript _ hcited
  · intro k t ht
    rw [Pointwise.record?_apply hs.sound h] at ht
    rcases Operation.cited_of_onTransactionScript ht with ⟨hfound, -⟩ | ⟨hcited, -⟩
    · exact isSome_script_of_apply hs h (href.transactionScript k t hfound)
    · exact hscript _ hcited

/-- After an operation of a grounded batch the others are grounded. -/
theorem Grounded.tail {batch : Batch} (hground : Grounded s (op :: batch)) (hs : WellFormed s)
    (h : op.apply s = .ok s') : Grounded s' batch := by
  constructor
  · intro op' hop x hx
    exact isSome_script_of_apply hs h (hground.script op' (List.mem_cons_of_mem _ hop) x hx)
  · intro op' hop t ht
    obtain ⟨hstored, hkept⟩ := hground.transaction op' (List.mem_cons_of_mem _ hop) t ht
    obtain ⟨hne, hkept⟩ := not_or.1 (mt List.mem_cons.2 hkept)
    exact ⟨isSome_transaction_of_apply hs h (Ne.symm hne) hstored, hkept⟩

theorem Grounded.head {batch : Batch} (hground : Grounded s (op :: batch)) : Grounded s [op] := by
  constructor
  · intro op' hop x hx
    obtain rfl := List.mem_singleton.1 hop
    exact hground.script op' List.mem_cons_self x hx
  · intro op' hop t ht
    obtain rfl := List.mem_singleton.1 hop
    obtain ⟨hstored, hkept⟩ := hground.transaction op' List.mem_cons_self t ht
    refine ⟨hstored, ?_⟩
    intro hmem
    exact hkept (List.mem_cons.2 (.inl (List.mem_singleton.1 hmem)))

end

/-- A batch keeps references whole if what it cites is stored, and not retracted by it. -/
theorem Referential.commit {batch : Batch} :
    ∀ {s s' : Store}, Referential s → WellFormed s → Grounded s batch →
      commit s batch = .ok s' → Referential s' := by
  induction batch with
  | nil =>
      intro s s' href _ _ h
      obtain rfl : s = s' := Except.ok.inj h
      exact href
  | cons op batch ih =>
      intro s s' href hs hground h
      rw [commit_eq_foldlM] at h
      obtain ⟨t, hop, h⟩ := foldlM_ok h
      rw [← commit_eq_foldlM] at h
      have ht : WellFormed t := (Operation.writes_apply hop).wellFormed hs
      exact ih (href.apply hs hground.head hop) ht (hground.tail hs hop) h

/-! ### The batches of requests -/

/-- A batch whose operations cite nothing. -/
theorem Grounded.of_none {batch : Batch}
    (h : ∀ op ∈ batch, op.citedScript = none ∧ op.citedTransaction = none) (s : Store) :
    Grounded s batch := by
  constructor
  · intro op hop x hx
    rw [(h op hop).1] at hx
    cases hx
  · intro op hop t ht
    rw [(h op hop).2] at ht
    cases ht

/-- A batch is cut in two, and the second part is grounded in what the first one leaves. -/
theorem Referential.commit_append {s s' : Store} {batch more : Batch} (href : Referential s)
    (hs : WellFormed s) (hground : Grounded s batch)
    (hmore : ∀ {t}, WellFormed t → CoinLedger.commit s batch = .ok t → Grounded t more)
    (h : CoinLedger.commit s (batch ++ more) = .ok s') : Referential s' := by
  rw [CoinLedger.commit_append] at h
  obtain ⟨t, hbatch, h⟩ := bind_ok h
  have ht : WellFormed t := hs.commit hbatch
  exact (href.commit hs hground hbatch).commit ht (hmore ht hbatch) h

theorem isSome_onAll_script {script : Script} {batch : Batch} :
    ∀ {found : Option ScriptRecord}, found.isSome = true ∨ .insertScript ⟨script⟩ ∈ batch →
      (Pointwise.onAll script batch found).isSome = true := by
  induction batch with
  | nil =>
      rintro found (hfound | hmem)
      · exact hfound
      · cases hmem
  | cons op batch ih =>
      rintro found (hfound | hmem)
      · exact ih (.inl (Operation.isSome_onScript hfound))
      · rcases List.mem_cons.1 hmem with rfl | hmem
        · have hinsert : Pointwise.on script (.insertScript ⟨script⟩) found =
              found.or (some ⟨script⟩) := if_pos rfl
          exact ih (.inl (by simp [hinsert]))
        · exact ih (.inr hmem)

theorem isSome_onAll_transaction {txid : Txid} {batch : Batch}
    (hbatch : .retractTransaction txid ∉ batch) {found : Option TransactionRecord}
    (hfound : found.isSome = true) : (Pointwise.onAll txid batch found).isSome = true := by
  induction batch generalizing found with
  | nil => exact hfound
  | cons op batch ih =>
      obtain ⟨hop, hbatch⟩ := not_or.1 (mt List.mem_cons.2 hbatch)
      exact ih hbatch (Operation.isSome_onTransaction (Ne.symm hop) hfound)

/-- A script is stored after a batch that inserts it. -/
theorem isSome_script_of_commit {s s' : Store} {batch : Batch} (hs : WellFormed s)
    (h : commit s batch = .ok s') {script : Script} (hscript : .insertScript ⟨script⟩ ∈ batch) :
    (record? ScriptRecord s' script).isSome = true := by
  rw [Pointwise.record?_commit hs.sound h]
  exact isSome_onAll_script (.inr hscript)

/-- A transaction is recorded after a batch that starts with it and does not retract it. -/
theorem isSome_transaction_of_commit {s s' : Store} {t : TransactionRecord} {batch : Batch}
    (hs : WellFormed s) (h : commit s (.upsertTransaction t :: batch) = .ok s')
    (hbatch : .retractTransaction t.txid ∉ batch) :
    (record? TransactionRecord s' t.txid).isSome = true := by
  have hupsert : ∀ found : Option TransactionRecord,
      Pointwise.on t.txid (.upsertTransaction t) found = some t := fun _ => if_pos rfl
  rw [Pointwise.record?_commit hs.sound h, Pointwise.onAll_cons, hupsert]
  exact isSome_onAll_transaction hbatch rfl

theorem mem_scripts {e : TransactionEvent} {script : Script} :
    script ∈ e.scripts ↔ script ∈ e.allScripts := by
  have hfold : ∀ (xs acc : List Script),
      script ∈ xs.foldl (fun acc s => if acc.contains s then acc else acc ++ [s]) acc ↔
        script ∈ acc ∨ script ∈ xs := by
    intro xs
    induction xs with
    | nil => simp
    | cons x xs ih =>
        intro acc
        rw [List.foldl_cons, ih]
        split
        · rename_i hx
          have hmem : x ∈ acc := by simpa using hx
          constructor
          · rintro (h | h)
            · exact .inl h
            · exact .inr (List.mem_cons_of_mem _ h)
          · rintro (h | h)
            · exact .inl h
            · rcases List.mem_cons.1 h with rfl | h
              · exact .inl hmem
              · exact .inr h
        · simp [or_assoc]
  rw [TransactionEvent.scripts, hfold]
  simp

/-- What an event records first: its transaction and its scripts. -/
def introduced (e : TransactionEvent) : Batch :=
  .upsertTransaction ⟨e.txid, e.block⟩ ::
    (e.effectiveReplaced.toList.map .retractTransaction ++ e.scripts.map fun s => .insertScript ⟨s⟩)

/-- What an event records then, which names its transaction and its scripts. -/
def attributed (w : Wallet) (source : TrackedSource) (e : TransactionEvent) : Batch :=
  (reportedScripts w source e).map
      (if source.isDeterministic then .mergeWalletScript else .insertWalletScript) ++
    e.inputs.map (fun i => .insertTransactionScript ⟨e.txid, i.script, true⟩) ++
    e.outputs.map (fun o => .insertTransactionScript ⟨e.txid, o.script, false⟩) ++
    e.outputs.map (fun o => .insertCoin (madeCoin e.txid o)) ++
    e.inputs.map fun i => .mergeCoinSpend (spentCoin e.txid i)

theorem observation_eq_append (w : Wallet) (source : TrackedSource) (e : TransactionEvent) :
    observation w source e = introduced e ++ attributed w source e := by
  simp only [observation, introduced, attributed, List.cons_append, List.append_assoc]

theorem cited_of_mem_attributed {w : Wallet} {source : TrackedSource} {e : TransactionEvent}
    {op : Operation} (hop : op ∈ attributed w source e) :
    (∀ x, op.citedScript = some x → x ∈ e.allScripts) ∧
      (∀ t, op.citedTransaction = some t → t = e.txid) ∧ ∀ t, op ≠ .retractTransaction t := by
  have hinput : ∀ i ∈ e.inputs, i.script ∈ e.allScripts := fun i hi =>
    List.mem_append_left _ (List.mem_map_of_mem hi)
  have houtput : ∀ o ∈ e.outputs, o.script ∈ e.allScripts := fun o ho =>
    List.mem_append_right _ (List.mem_map_of_mem ho)
  have hreported : ∀ s ∈ reportedScripts w source e, s.script ∈ e.allScripts := by
    intro s hs
    rcases List.mem_append.1 hs with hs | hs
    · obtain ⟨o, ho, rfl⟩ := List.mem_map.1 hs
      exact houtput o ho
    · split at hs
      · cases hs
      · obtain ⟨i, hi, rfl⟩ := List.mem_map.1 hs
        exact hinput i hi
  simp only [attributed, List.mem_append, List.mem_map] at hop
  rcases hop with (((⟨s, hs, rfl⟩ | ⟨i, hi, rfl⟩) | ⟨o, ho, rfl⟩) | ⟨o, ho, rfl⟩) | ⟨i, hi, rfl⟩
  · have hscript := hreported s hs
    cases source.isDeterministic <;>
      simpa [Operation.citedScript, Operation.citedTransaction] using hscript
  · simpa [Operation.citedScript, Operation.citedTransaction] using hinput i hi
  · simpa [Operation.citedScript, Operation.citedTransaction] using houtput o ho
  · simpa [Operation.citedScript, Operation.citedTransaction, madeCoin] using houtput o ho
  · simpa [Operation.citedScript, Operation.citedTransaction, spentCoin] using hinput i hi

/-- What an event cites is stored once it is introduced. -/
theorem grounded_attributed {s t : Store} (hs : WellFormed s) {w : Wallet} {source : TrackedSource}
    {e : TransactionEvent} (h : commit s (introduced e) = .ok t) :
    Grounded t (attributed w source e) := by
  have hrecorded : (record? TransactionRecord t e.txid).isSome = true := by
    refine isSome_transaction_of_commit hs h ?_
    have hne := e.effectiveReplaced_ne
    simpa using hne
  constructor
  · intro op hop x hx
    have hmem : x ∈ e.scripts := mem_scripts.2 ((cited_of_mem_attributed hop).1 x hx)
    refine isSome_script_of_commit hs h ?_
    exact List.mem_cons_of_mem _ (List.mem_append_right _ (List.mem_map_of_mem hmem))
  · intro op hop x hx
    obtain rfl := (cited_of_mem_attributed hop).2.1 x hx
    refine ⟨hrecorded, ?_⟩
    intro hmem
    exact (cited_of_mem_attributed hmem).2.2 _ rfl

/-- Recording an event keeps references whole. -/
theorem Referential.observation {s s' : Store} (href : Referential s) (hs : WellFormed s)
    {w : Wallet} {source : TrackedSource} {e : TransactionEvent}
    (h : CoinLedger.commit s (Ledger.observation w source e) = .ok s') : Referential s' := by
  rw [observation_eq_append] at h
  refine href.commit_append hs (.of_none ?_ s) (fun _ => grounded_attributed hs) h
  intro op hop
  simp only [introduced, List.mem_cons, List.mem_append, List.mem_map] at hop
  rcases hop with rfl | ⟨_, _, rfl⟩ | ⟨_, _, rfl⟩ <;> exact ⟨rfl, rfl⟩

/-- A script that is inserted first may be cited afterwards. -/
theorem Referential.insertScript {s s' : Store} {script : Script} {batch more : Batch}
    (href : Referential s) (hs : WellFormed s) (hscript : .insertScript ⟨script⟩ ∈ batch)
    (hbatch : ∀ op ∈ batch, op.citedScript = none ∧ op.citedTransaction = none)
    (hmore : ∀ op ∈ more, (∀ x, op.citedScript = some x → x = script) ∧
      op.citedTransaction = none)
    (h : CoinLedger.commit s (batch ++ more) = .ok s') : Referential s' := by
  refine href.commit_append hs (.of_none hbatch s) ?_ h
  intro t _ ht
  constructor
  · intro op hop x hx
    obtain rfl := (hmore op hop).1 x hx
    exact isSome_script_of_commit hs ht hscript
  · intro op hop x hx
    rw [(hmore op hop).2] at hx
    cases hx

theorem Referential.collected {walletId : String} {outputs : List SpendableOutput} :
    ∀ {s s' : Store}, Referential s → WellFormed s →
      CoinLedger.commit s (outputs.flatMap (SpendableOutput.batch walletId)) = .ok s' →
        Referential s' := by
  induction outputs with
  | nil =>
      intro s s' href _ h
      obtain rfl : s = s' := Except.ok.inj h
      exact href
  | cons o outputs ih =>
      intro s s' href hs h
      rw [List.flatMap_cons, CoinLedger.commit_append] at h
      obtain ⟨t, ho, h⟩ := bind_ok h
      have ht : WellFormed t := hs.commit ho
      have hcut : o.batch walletId =
          [.insertScript ⟨o.txout.script⟩] ++ (o.batch walletId).tail := rfl
      rw [hcut] at ho
      refine ih (href.insertScript hs (List.mem_singleton.2 rfl) ?_ ?_ ho) ht h
      · simp [Operation.citedScript, Operation.citedTransaction]
      · simp [SpendableOutput.batch, Operation.citedScript, Operation.citedTransaction]

/-- What a request commits keeps references whole. -/
theorem Referential.submitted {l : Ledger} {batch : Batch} {s : Store}
    (href : Referential l.store) (hs : WellFormed l.store) (hbatch : Submitted l batch)
    (h : CoinLedger.commit l.store batch = .ok s) : Referential s := by
  cases hbatch with
  | wallet _ _ _ _ =>
      exact href.commit hs (.of_none (by simp [Operation.citedScript, Operation.citedTransaction]) _) h
  | aliases walletId aliases =>
      exact href.commit hs (.of_none (by simp [Operation.citedScript, Operation.citedTransaction]) _) h
  | @tracked walletId _ script =>
      have hcut : ([.insertScript ⟨script⟩, .insertWalletScript ⟨walletId, script, none⟩] : Batch) =
          [.insertScript ⟨script⟩] ++ [.insertWalletScript ⟨walletId, script, none⟩] := rfl
      rw [hcut] at h
      refine href.insertScript hs (List.mem_singleton.2 rfl) ?_ ?_ h
      · simp [Operation.citedScript, Operation.citedTransaction]
      · simp [Operation.citedScript, Operation.citedTransaction]
  | @derived walletId next _ =>
      have hcut : next.batch walletId =
          [.raiseIndex walletId next.index, .insertScript ⟨next.script⟩] ++
            [.insertWalletScript ⟨walletId, next.script, some next.path⟩] := rfl
      rw [hcut] at h
      refine href.insertScript hs (List.mem_cons_of_mem _ (List.mem_singleton.2 rfl)) ?_ ?_ h
      · simp [Operation.citedScript, Operation.citedTransaction]
      · simp [Operation.citedScript, Operation.citedTransaction]
  | observed _ source e => exact href.observation hs h
  | confirmed hblocks =>
      refine href.commit hs (.of_none ?_ _) h
      intro op hop
      obtain ⟨txid, block, rfl⟩ := hblocks op hop
      exact ⟨rfl, rfl⟩
  | collected walletId outputs => exact href.collected hs h
  | @kept op hkinds =>
      refine href.commit hs (.of_none ?_ _) h
      intro op' hop
      obtain rfl := List.mem_singleton.1 hop
      cases op' <;> simp [Operation.writes] at hkinds <;> exact ⟨rfl, rfl⟩

theorem referential_empty : Referential ByteMap.empty where
  spender o c t hc := by cases hc
  transaction k t ht := by cases ht
  coinScript o c hc := by cases hc
  walletScript k w hw := by cases hw
  transactionScript k t ht := by cases ht

/-- **References are whole.**  In every store that requests lead to, served or refused, in any order
and with any service that watches the chain, each row holds a record of the schema under the
record's own key; the transaction that spends a coin is recorded, the transaction of each
transaction script is recorded, and the scripts of all coins, of all scripts of wallets and of all
scripts of transactions are stored. -/
theorem references_of_reachable {l : Ledger} (h : Reachable l) :
    WellFormed l.store ∧ Referential l.store := by
  refine ⟨h.wellFormed, ?_⟩
  exact h.store_induction referential_empty fun hs href hbatch hcommit =>
    href.submitted hs hbatch hcommit

/-- A spend is replaced, and the coin names the transaction that replaced it. -/
theorem references_of_replacedSpend :
    ∃ l c, l = aliasLedger.serveAll ([aliasReport 1 1000 none none, aliasReport 2 900 (some 1) none,
        aliasReport 3 800 (some 1) (some 2)].map Report.request) ∧
      record? Coin l.store ⟨repeatedTxid 1, 0⟩ = some c ∧ c.spentBy = some ⟨repeatedTxid 3, 0⟩ ∧
      (record? TransactionRecord l.store (repeatedTxid 3)).isSome = true ∧
      (record? ScriptRecord l.store c.script).isSome = true := by
  generalize hl : aliasLedger.serveAll _ = l
  have href : Referential l.store := by
    rw [← hl]
    exact (references_of_reachable (reachable_aliasLedger.serveAll _)).2
  have hc : record? Coin l.store ⟨repeatedTxid 1, 0⟩ =
      some ⟨⟨repeatedTxid 1, 0⟩, aliasScript, 1000, some ⟨repeatedTxid 3, 0⟩⟩ := by
    rw [← hl, record?_coin_serveAll reachable_aliasLedger.wellFormed,
      record?_aliasLedger (by decide), heard_aliasLedger (by simp)]
    decide
  exact ⟨l, _, rfl, hc, rfl, href.spender _ _ _ hc rfl, href.coinScript _ _ hc⟩

end CoinLedger
