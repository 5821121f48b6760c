import CoinLedger.Proofs.Ledger.CoinTable

/-! # The tables under operations

In most tables an operation does something to each record by itself: what becomes of a record
depends on nothing but the operation and that record.  A kind of records with such a table is
`Pointwise`, and `Pointwise.on` says what becomes of the record with a key.  Then a batch acts on
each record by itself too (`Pointwise.record?_commit`).

The scripts, the scripts of the wallets, the transactions, the scripts of the transactions and the
coins are such kinds.  The rules are `Operation.onScript`, `Operation.onWalletScript`,
`Operation.onTransaction`, `Operation.onTransactionScript` and `Operation.onCoin`.  Of the scripts of
wallets the rule speaks of the bytes of keys, since two keys may be written as the same bytes. -/

namespace CoinLedger

/-! ### Tables that operations change record by record -/

/-- A kind of records on which operations act one by one. -/
class Pointwise (α : Type) {κ : outParam Type} [Entity α κ] where
  /-- What becomes of the record with this key. -/
  on : κ → Operation → Option α → Option α
  /-- Operations that write no records of the kind leave them as they are. -/
  on_of_notMem_writes {op : Operation} (hop : Entity.kind α ∉ op.writes) (key : κ)
    (found : Option α) : on key op found = found
  /-- The others do what is said. -/
  record?_of_mem_writes {s s' : Store} {op : Operation} (hs : Sound α s)
    (hop : Entity.kind α ∈ op.writes) (h : op.apply s = .ok s') (key : κ) :
    record? α s' key = on key op (record? α s key)

namespace Pointwise

variable {α κ : Type} [Entity α κ] [Pointwise α]

/-- What becomes of the record with this key in a batch. -/
def onAll (key : κ) (batch : Batch) (found : Option α) : Option α :=
  batch.foldl (fun found op => on key op found) found

@[simp] theorem onAll_nil (key : κ) (found : Option α) : onAll key [] found = found := rfl

@[simp] theorem onAll_cons (key : κ) (op : Operation) (batch : Batch) (found : Option α) :
    onAll key (op :: batch) found = onAll key batch (on key op found) := rfl

@[simp] theorem onAll_append (key : κ) (batch more : Batch) (found : Option α) :
    onAll key (batch ++ more) found = onAll key more (onAll key batch found) :=
  List.foldl_append

theorem onAll_eq_of_notMem_writes (key : κ) {batch : Batch}
    (h : ∀ op ∈ batch, Entity.kind α ∉ op.writes) (found : Option α) :
    onAll key batch found = found := by
  induction batch with
  | nil => rfl
  | cons op batch ih =>
      rw [onAll_cons, on_of_notMem_writes (h op List.mem_cons_self)]
      exact ih fun op' hop => h op' (List.mem_cons_of_mem _ hop)

theorem onAll_map_of_notMem_writes {β : Type} (key : κ) {f : β → Operation} (xs : List β)
    (h : ∀ x, Entity.kind α ∉ (f x).writes) (found : Option α) :
    onAll key (xs.map f) found = found := by
  refine onAll_eq_of_notMem_writes key ?_ found
  intro op hop
  obtain ⟨x, -, rfl⟩ := List.mem_map.1 hop
  exact h x

/-- A record that every operation keeps, up to a relation, is kept by a batch. -/
theorem exists_onAll_eq_some {R : α → α → Prop} (hrefl : ∀ a, R a a)
    (htrans : ∀ {a b c}, R a b → R b c → R a c) {key : κ}
    (hon : ∀ op a, ∃ b, on key op (some a) = some b ∧ R a b) (batch : Batch) (a : α) :
    ∃ b, onAll key batch (some a) = some b ∧ R a b := by
  induction batch generalizing a with
  | nil => exact ⟨a, rfl, hrefl a⟩
  | cons op batch ih =>
      obtain ⟨b, hb, hab⟩ := hon op a
      obtain ⟨c, hc, hbc⟩ := ih b
      exact ⟨c, by rw [onAll_cons, hb, hc], htrans hab hbc⟩

/-- The table obeys an operation record by record. -/
theorem record?_apply {s s' : Store} {op : Operation} (hs : Sound α s) (h : op.apply s = .ok s')
    (key : κ) : record? α s' key = on key op (record? α s key) := by
  by_cases hop : Entity.kind α ∈ op.writes
  · exact record?_of_mem_writes hs hop h key
  · have hrows : SameRows (Entity.kind α) s s' := (Operation.writes_apply h).sameRows hop
    rw [on_of_notMem_writes hop, hrows.record?_eq]

/-- The table obeys a batch record by record. -/
theorem record?_commit [Stored α] {batch : Batch} :
    ∀ {s s' : Store}, Sound α s → commit s batch = .ok s' → ∀ key : κ,
      record? α s' key = onAll key batch (record? α s key) := by
  induction batch with
  | nil =>
      intro s s' _ h key
      obtain rfl : s = s' := Except.ok.inj h
      rfl
  | cons op batch ih =>
      intro s s' hs h key
      rw [commit_eq_foldlM] at h
      obtain ⟨t, hop, h⟩ := foldlM_ok h
      rw [← commit_eq_foldlM] at h
      have ht : Sound α t := (Operation.writes_apply hop).sound hs
      rw [ih ht h, onAll_cons, record?_apply hs hop]

end Pointwise

/-! ### The rules of the tables -/

/-- A script of a wallet after this one is merged with it. -/
def WalletScript.fill (w : WalletScript) : Option WalletScript → WalletScript
  | some known => { known with derivationPath := known.derivationPath.or w.derivationPath }
  | none => w

/-- The second script is the first one, or the first one with a path where none was known. -/
def WalletScript.FillsIn (w w' : WalletScript) : Prop :=
  w' = w ∨ w.derivationPath = none ∧ ∃ path, w' = { w with derivationPath := some path }

namespace WalletScript.FillsIn

variable {w w' w'' : WalletScript}

theorem refl (w : WalletScript) : FillsIn w w := .inl rfl

theorem trans (h : FillsIn w w') (h' : FillsIn w' w'') : FillsIn w w'' := by
  rcases h with rfl | ⟨hnone, path, rfl⟩
  · exact h'
  · rcases h' with rfl | ⟨hpath, -⟩
    · exact .inr ⟨hnone, path, rfl⟩
    · cases hpath

/-- A known path stays. -/
theorem eq_of_path (h : FillsIn w w') {path : String} (hpath : w.derivationPath = some path) :
    w' = w := by
  rcases h with rfl | ⟨hnone, -⟩
  · rfl
  · cases hnone.symm.trans hpath

end WalletScript.FillsIn

namespace Operation

variable {op : Operation}

/-- What an operation makes of the record of this script. -/
def onScript (script : Script) : Operation → Option ScriptRecord → Option ScriptRecord
  | insertScript r, found => if r.script = script then found.or (some r) else found
  | _, found => found

theorem onScript_some {script : Script} (known : ScriptRecord) :
    op.onScript script (some known) = some known := by
  cases op with
  | insertScript r => simp [onScript]
  | _ => rfl

/-- What an operation makes of the scripts of wallets with the bytes of this key. -/
def onWalletScript (k : WalletScriptKey) : Operation → Option WalletScript → Option WalletScript
  | insertWalletScript w, found =>
      if rowKey WalletScript (Entity.key w) = rowKey WalletScript k then found.or (some w) else found
  | mergeWalletScript w, found =>
      if rowKey WalletScript (Entity.key w) = rowKey WalletScript k then some (w.fill found) else found
  | _, found => found

/-- The path that an operation fills in where none is known. -/
def suppliedPath (k : WalletScriptKey) : Operation → Option String
  | mergeWalletScript w =>
      if rowKey WalletScript (Entity.key w) = rowKey WalletScript k then w.derivationPath else none
  | _ => none

theorem onWalletScript_some {k : WalletScriptKey} (known : WalletScript) :
    op.onWalletScript k (some known) =
      some { known with derivationPath := known.derivationPath.or (op.suppliedPath k) } := by
  cases op with
  | insertWalletScript w => simp [onWalletScript, suppliedPath]
  | mergeWalletScript w =>
      rw [onWalletScript, suppliedPath]
      split <;> simp [WalletScript.fill]
  | _ => simp [onWalletScript, suppliedPath]

/-- Operations leave a script of a wallet where it is, and fill in its path at most. -/
theorem exists_onWalletScript_eq_some (k : WalletScriptKey) (op : Operation)
    (known : WalletScript) :
    ∃ filled, op.onWalletScript k (some known) = some filled ∧ known.FillsIn filled := by
  refine ⟨_, onWalletScript_some known, ?_⟩
  cases hpath : known.derivationPath with
  | some path =>
      rw [Option.some_or, ← hpath]
      exact .refl known
  | none =>
      rw [Option.none_or]
      cases op.suppliedPath k with
      | none =>
          rw [← hpath]
          exact .refl known
      | some path => exact .inr ⟨hpath, path, rfl⟩

/-- What an operation makes of the record of this transaction. -/
def onTransaction (txid : Txid) :
    Operation → Option TransactionRecord → Option TransactionRecord
  | upsertTransaction t, found => if t.txid = txid then some t else found
  | setBlock t block, found =>
      if t = txid then found.map fun t => { t with block := block } else found
  | retractTransaction t, found => if t = txid then none else found
  | _, found => found

/-- What an operation makes of the script of a transaction with this key. -/
def onTransactionScript (k : TransactionScriptKey) :
    Operation → Option TransactionScript → Option TransactionScript
  | insertTransactionScript t, found => if Entity.key t = k then found.or (some t) else found
  | retractTransaction t, found => if t = k.txid then none else found
  | _, found => found

/-! ### Insertions -/

section

variable {α κ : Type} [Entity α κ] [LawfulEntity α] {s s' : Store}

theorem record?_reviseEntity_inserted (hs : Sound α s) {a : α}
    (h : reviseEntity α s (Entity.key a) (.ok ∘ inserted a) = .ok s') (key : κ) :
    record? α s' key =
      if rowKey α (Entity.key a) = rowKey α key then (record? α s key).or (some a)
      else record? α s key := by
  have hkey : ∀ b, inserted a (record? α s (Entity.key a)) = some b →
      rowKey α (Entity.key b) = rowKey α (Entity.key a) := by
    intro b hb
    cases hfound : record? α s (Entity.key a) with
    | none =>
        rw [hfound] at hb
        rw [← Option.some.inj hb]
    | some known =>
        rw [hfound] at hb
        cases hb
  rw [hs.record?_reviseEntity hkey h]
  split
  · cases record? α s key <;> rfl
  · rfl

end

/-! ### The tables obey -/

variable {s s' : Store}

theorem filledPath_or (w : WalletScript) (found : Option WalletScript) :
    (filledPath w found).or found = some (w.fill found) := by
  rcases found with _ | ⟨walletId, script, _ | path⟩
  · rfl
  · rcases w with ⟨walletId', script', _ | path'⟩ <;> rfl
  · rfl

theorem record?_reviseEntity_filledPath (hs : Sound WalletScript s) {w : WalletScript}
    (h : reviseEntity WalletScript s (Entity.key w) (.ok ∘ filledPath w) = .ok s')
    (k : WalletScriptKey) :
    record? WalletScript s' k =
      (mergeWalletScript w).onWalletScript k (record? WalletScript s k) := by
  have hkey : ∀ a, filledPath w (record? WalletScript s (Entity.key w)) = some a →
      rowKey WalletScript (Entity.key a) = rowKey WalletScript (Entity.key w) := by
    intro a ha
    cases hfound : record? WalletScript s (Entity.key w) with
    | none =>
        rw [hfound] at ha
        rw [← Option.some.inj ha]
    | some known =>
        have hknown : rowKey WalletScript (Entity.key known) = _ := hs.rowKey_eq hfound
        rw [hfound, filledPath] at ha
        split at ha
        · rw [← Option.some.inj ha]
          exact hknown
        · cases ha
  rw [hs.record?_reviseEntity hkey h, onWalletScript, filledPath_or]

/-- A known record of the transaction with the block that is reported is the reported one. -/
theorem mergedBlock_or {t : TransactionRecord} {found : Option TransactionRecord}
    (hfound : ∀ known, found = some known → known.txid = t.txid) :
    (mergedBlock t found).or found = some t := by
  cases found with
  | none => rfl
  | some known =>
      have htxid : known.txid = t.txid := hfound known rfl
      cases known
      cases t
      simp only at htxid
      rw [mergedBlock]
      split
      · rw [htxid]
        rfl
      · rename_i hblock
        simp only [ne_eq, not_not] at hblock
        rw [htxid, hblock]
        rfl

theorem record?_reviseEntity_mergedBlock (hs : Sound TransactionRecord s) {t : TransactionRecord}
    (h : reviseEntity TransactionRecord s t.txid (.ok ∘ mergedBlock t) = .ok s') (txid : Txid) :
    record? TransactionRecord s' txid =
      (upsertTransaction t).onTransaction txid (record? TransactionRecord s txid) := by
  have hmerged : (mergedBlock t (record? TransactionRecord s t.txid)).or
      (record? TransactionRecord s t.txid) = some t := mergedBlock_or fun _ => hs.key_eq
  have hkey : ∀ a, mergedBlock t (record? TransactionRecord s t.txid) = some a →
      a.txid = t.txid := by
    intro a ha
    rw [ha, Option.some_or] at hmerged
    rw [Option.some.inj hmerged]
  rw [(hs.reviseEntity_comp_ok hkey h).2, onTransaction]
  by_cases htxid : t.txid = txid
  · subst htxid
    rw [if_pos rfl, if_pos rfl, hmerged]
  · rw [if_neg htxid, if_neg htxid]

theorem record?_reviseEntity_setBlock (hs : Sound TransactionRecord s) {t : Txid}
    {block : Option BlockHash}
    (h : reviseEntity TransactionRecord s t
      (.ok ∘ Option.map fun t => { t with block := block }) = .ok s') (txid : Txid) :
    record? TransactionRecord s' txid =
      (setBlock t block).onTransaction txid (record? TransactionRecord s txid) := by
  have hkey : ∀ a, (record? TransactionRecord s t).map
      (fun t => { t with block := block }) = some a → a.txid = t := by
    intro a ha
    obtain ⟨known, hknown, rfl⟩ := Option.map_eq_some_iff.1 ha
    have htxid : known.txid = t := hs.key_eq hknown
    exact htxid
  rw [(hs.reviseEntity_comp_ok hkey h).2, onTransaction]
  split
  · cases record? TransactionRecord s txid <;> rfl
  · rfl

theorem record?_retract_transaction {txid : Txid} (h : retract txid s = .ok s') (t : Txid) :
    record? TransactionRecord s' t =
      (retractTransaction txid).onTransaction t (record? TransactionRecord s t) := by
  obtain ⟨funded, closed, scripts, coins, s₁, s₂, -, -, hs₁, -, hs₂, -, rfl⟩ := retract_ok h
  have hcoins : SameRows .transaction s s₁ := by
    rw [hs₁]
    exact (SameRows.removeEntities (by decide) s _).trans (.removeEntities (by decide) _ _)
  have hscripts : SameRows .transaction s
      (removeEntities TransactionScript s₁ (scripts.map Entity.key)) :=
    hcoins.trans (.removeEntities (by decide) s₁ _)
  have hreleased : SameRows .transaction s₂ (putEntities s₂ ((coins.filter fun c =>
      c.isSpentByTransaction txid).map fun c => { c with spentBy := none })) :=
    .putEntities (by decide) s₂ _
  rw [hreleased.record?_eq, hs₂, record?_removeEntity, hscripts.record?_eq, onTransaction]

theorem record?_retract_transactionScript (hs : Sound TransactionScript s) {txid : Txid}
    (h : retract txid s = .ok s') (k : TransactionScriptKey) :
    record? TransactionScript s' k =
      (retractTransaction txid).onTransactionScript k (record? TransactionScript s k) := by
  obtain ⟨funded, closed, scripts, coins, s₁, s₂, -, -, hs₁, hscripts, hs₂, -, rfl⟩ :=
    retract_ok h
  have hcoins : SameRows .transactionScript s s₁ := by
    rw [hs₁]
    exact (SameRows.removeEntities (by decide) s _).trans (.removeEntities (by decide) _ _)
  have hsound₁ : Sound TransactionScript s₁ := hcoins.sound hs
  have hread : scripts = recordsFrom TransactionScript s₁ (RowRange.transactionScripts txid).start := by
    have hscan : transactionScripts s₁ txid = .ok _ := hsound₁.scanEntities rfl
    exact Except.ok.inj (hscripts.symm.trans hscan)
  have hreleased : SameRows .transactionScript
      (removeEntities TransactionScript s₁ (scripts.map Entity.key))
      (putEntities s₂ ((coins.filter fun c => c.isSpentByTransaction txid).map
        fun c => { c with spentBy := none })) := by
    rw [hs₂]
    exact (SameRows.removeEntity (by decide) _ txid).trans (.putEntities (by decide) _ _)
  rw [hreleased.record?_eq, hread, record?_removeEntities_recordsFrom hsound₁ (.refl _ s₁) rfl,
    hcoins.record?_eq, onTransactionScript]
  simp only [transactionScripts_start_prefix_iff, eq_comm]

end Operation

/-! ### The kinds -/

instance : Pointwise ScriptRecord where
  on := Operation.onScript
  on_of_notMem_writes {op} hop script found := by
    cases op with
    | insertScript _ => simp [Operation.writes, Entity.kind] at hop
    | _ => rfl
  record?_of_mem_writes {s s' op} hs hop h script := by
    cases op with
    | insertScript r =>
        rw [Operation.record?_reviseEntity_inserted hs h, Operation.onScript]
        simp only [rowKey_inj]
        rfl
    | _ => simp [Operation.writes, Entity.kind] at hop

instance : Pointwise WalletScript where
  on := Operation.onWalletScript
  on_of_notMem_writes {op} hop k found := by
    cases op with
    | insertWalletScript _ | mergeWalletScript _ => simp [Operation.writes, Entity.kind] at hop
    | _ => rfl
  record?_of_mem_writes {s s' op} hs hop h k := by
    cases op with
    | insertWalletScript w => exact Operation.record?_reviseEntity_inserted hs h k
    | mergeWalletScript w => exact Operation.record?_reviseEntity_filledPath hs h k
    | _ => simp [Operation.writes, Entity.kind] at hop

instance : Pointwise TransactionRecord where
  on := Operation.onTransaction
  on_of_notMem_writes {op} hop txid found := by
    cases op with
    | upsertTransaction _ | setBlock _ _ | retractTransaction _ =>
        simp [Operation.writes, Entity.kind] at hop
    | _ => rfl
  record?_of_mem_writes {s s' op} hs hop h txid := by
    cases op with
    | upsertTransaction t => exact Operation.record?_reviseEntity_mergedBlock hs h txid
    | setBlock t block => exact Operation.record?_reviseEntity_setBlock hs h txid
    | retractTransaction t => exact Operation.record?_retract_transaction h txid
    | _ => simp [Operation.writes, Entity.kind] at hop

instance : Pointwise TransactionScript where
  on := Operation.onTransactionScript
  on_of_notMem_writes {op} hop k found := by
    cases op with
    | insertTransactionScript _ | retractTransaction _ => simp [Operation.writes, Entity.kind] at hop
    | _ => rfl
  record?_of_mem_writes {s s' op} hs hop h k := by
    cases op with
    | insertTransactionScript t =>
        rw [Operation.record?_reviseEntity_inserted hs h, Operation.onTransactionScript]
        simp only [rowKey_inj]
    | retractTransaction txid => exact Operation.record?_retract_transactionScript hs h k
    | _ => simp [Operation.writes, Entity.kind] at hop

instance : Pointwise Coin where
  on := Operation.onCoin
  on_of_notMem_writes hop o found := Operation.onCoin_of_notMem_writes hop o found
  record?_of_mem_writes hs _ h o := (Operation.record?_apply hs h).2 o

/-- A batch leaves a script of a wallet where it is, and fills in its path at most. -/
theorem exists_onAll_walletScript_eq_some (k : WalletScriptKey) (batch : Batch)
    (known : WalletScript) :
    ∃ filled, Pointwise.onAll k batch (some known) = some filled ∧ known.FillsIn filled :=
  Pointwise.exists_onAll_eq_some .refl .trans (Operation.exists_onWalletScript_eq_some k) batch known

end CoinLedger
