import CoinLedger.Proofs.Ledger.Reports

/-! # The order of reports

Reports that come in any order, and more than once, lead to the same store, if they do not
contradict each other: `Mergeable` says when they do not.

On each record such a report acts as a join (`join`): it adds a value where there is none, and then
makes a change.  Joins that agree on what they add, and whose changes commute and need to be made
only once, may be taken in any order and repeated (`Agree.unordered`).  The rest of the module
says for each table what the joins are and why they agree.  The result is
`serveAll_eq_of_mem_iff`. -/

namespace CoinLedger

open Ledger

/-! ### Steps in any order -/

section

variable {σ β : Type} {f : β → σ → σ} {xs ys : List β}

/-- Takes the steps one after the other. -/
def stepAll (f : β → σ → σ) (xs : List β) (s : σ) : σ := xs.foldl (fun s x => f x s) s

/-- Steps that may be taken in any order and repeated. -/
structure Unordered (f : β → σ → σ) (xs : List β) : Prop where
  comm : ∀ a ∈ xs, ∀ b ∈ xs, ∀ s, f a (f b s) = f b (f a s)
  idem : ∀ a ∈ xs, ∀ s, f a (f a s) = f a s

theorem Unordered.mono (h : Unordered f xs) (hsub : ys ⊆ xs) : Unordered f ys where
  comm a ha b hb := h.comm a (hsub ha) b (hsub hb)
  idem a ha := h.idem a (hsub ha)

/-- A step that commutes with all the others may be taken first or last. -/
theorem stepAll_step {a : β} (h : ∀ b ∈ xs, ∀ s, f a (f b s) = f b (f a s)) (s : σ) :
    stepAll f xs (f a s) = f a (stepAll f xs s) := by
  induction xs generalizing s with
  | nil => rfl
  | cons b xs ih =>
      have htail := ih fun c hc => h c (List.mem_cons_of_mem _ hc)
      show stepAll f xs (f b (f a s)) = f a (stepAll f xs (f b s))
      rw [← h b List.mem_cons_self, htail]

/-- A step that was taken need not be taken again. -/
theorem Unordered.step_stepAll (h : Unordered f xs) {a : β} (ha : a ∈ xs) (s : σ) :
    f a (stepAll f xs s) = stepAll f xs s := by
  induction xs generalizing s with
  | nil => cases ha
  | cons b xs ih =>
      have htail : Unordered f xs := h.mono (List.subset_cons_self b xs)
      show f a (stepAll f xs (f b s)) = stepAll f xs (f b s)
      rcases List.mem_cons.1 ha with rfl | ha
      · rw [← stepAll_step fun c hc => h.comm a List.mem_cons_self c (List.mem_cons_of_mem _ hc),
          h.idem a List.mem_cons_self]
      · exact ih htail ha (f b s)

theorem Unordered.stepAll_stepAll (h : Unordered f xs) (hsub : ys ⊆ xs) (s : σ) :
    stepAll f ys (stepAll f xs s) = stepAll f xs s := by
  induction ys with
  | nil => rfl
  | cons b ys ih =>
      obtain ⟨hb, hys⟩ := List.cons_subset.1 hsub
      show stepAll f ys (f b (stepAll f xs s)) = stepAll f xs s
      rw [h.step_stepAll hb, ih hys]

theorem stepAll_comm (h : ∀ a ∈ xs, ∀ b ∈ ys, ∀ s, f a (f b s) = f b (f a s)) (s : σ) :
    stepAll f ys (stepAll f xs s) = stepAll f xs (stepAll f ys s) := by
  induction xs generalizing s with
  | nil => rfl
  | cons a xs ih =>
      have htail := ih fun c hc => h c (List.mem_cons_of_mem _ hc)
      show stepAll f ys (stepAll f xs (f a s)) = stepAll f xs (f a (stepAll f ys s))
      rw [htail, stepAll_step (h a List.mem_cons_self)]

/-- What unordered steps lead to depends only on which steps they are. -/
theorem Unordered.stepAll_eq_of_mem_iff (h : Unordered f xs) (hmem : ∀ a, a ∈ xs ↔ a ∈ ys)
    (s : σ) : stepAll f xs s = stepAll f ys s := by
  have hsub : ys ⊆ xs := fun a ha => (hmem a).2 ha
  have hsub' : xs ⊆ ys := fun a ha => (hmem a).1 ha
  have hys : Unordered f ys := h.mono hsub
  calc stepAll f xs s = stepAll f ys (stepAll f xs s) := (h.stepAll_stepAll hsub s).symm
    _ = stepAll f xs (stepAll f ys s) := stepAll_comm (fun a ha b hb => h.comm a ha b (hsub hb)) s
    _ = stepAll f ys s := hys.stepAll_stepAll hsub' s

end

/-! ### Joins -/

section

variable {α β : Type}

/-- Adds a value where there is none, and changes what is there then. -/
def join (added : Option α) (change : α → α) (found : Option α) : Option α :=
  (found.or added).map change

/-- What steps join with a value does not contradict. -/
structure Agree (added : β → Option α) (change : β → α → α) (xs : List β) : Prop where
  added_eq : ∀ a ∈ xs, ∀ b ∈ xs, ∀ x y, added a = some x → added b = some y → x = y
  change_comm : ∀ a ∈ xs, ∀ b ∈ xs, ∀ x, change a (change b x) = change b (change a x)
  change_idem : ∀ a ∈ xs, ∀ x, change a (change a x) = change a x
  /-- A step that adds nothing changes nothing. -/
  change_of_none : ∀ a ∈ xs, added a = none → ∀ x, change a x = x

/-- Joins that agree may be taken in any order and repeated. -/
theorem Agree.unordered {added : β → Option α} {change : β → α → α} {xs : List β}
    (h : Agree added change xs) : Unordered (fun a => join (added a) (change a)) xs := by
  constructor
  · intro a ha b hb found
    cases found with
    | some x =>
        simp only [join, Option.some_or, Option.map_some, h.change_comm a ha b hb]
    | none =>
        cases hx : added a with
        | none =>
            have hkeep := h.change_of_none a ha hx
            cases hy : added b with
            | none => simp [join]
            | some y => simp [join, hkeep]
        | some x =>
            cases hy : added b with
            | none =>
                have hkeep := h.change_of_none b hb hy
                simp [join, hkeep]
            | some y =>
                obtain rfl := h.added_eq a ha b hb x y hx hy
                simp [join, h.change_comm a ha b hb]
  · intro a ha found
    cases found with
    | some x => simp [join, h.change_idem a ha]
    | none =>
        cases hx : added a with
        | none => simp [join]
        | some x => simp [join, h.change_idem a ha]

end

/-! ### Reports that do not contradict each other -/

/-- What reports may not contradict each other about.  What the store knows already may differ from
what they say. -/
structure Mergeable (s : Store) (reports : List Report) : Prop where
  /-- No transaction replaces another one. -/
  unreplaced : ∀ r ∈ reports, r.event.effectiveReplaced = none
  block : ∀ r ∈ reports, ∀ r' ∈ reports, r.event.txid = r'.event.txid →
    r.event.block = r'.event.block
  /-- A script that a transaction spends in one report is not only made by it in another. -/
  role : ∀ r ∈ reports, ∀ r' ∈ reports, r.event.txid = r'.event.txid → ∀ i ∈ r.event.inputs,
    ∀ p ∈ r'.event.outputs, i.script = p.script → ∃ j ∈ r'.event.inputs, j.script = i.script
  /-- An output is always reported with the same script and value. -/
  agreed : ∀ r ∈ reports, ∀ r' ∈ reports, ∀ u ∈ r.event.mentions, ∀ u' ∈ r'.event.mentions,
    u.outpoint = u'.outpoint → u = u'
  /-- An output is spent by one input only. -/
  unique : ∀ r ∈ reports, ∀ r' ∈ reports, ∀ i ∈ r.event.inputs, ∀ i' ∈ r'.event.inputs,
    i.previous = i'.previous → r.event.txid = r'.event.txid ∧ i.inputIndex = i'.inputIndex
  /-- Sources of single scripts know no paths. -/
  pathless : ∀ r ∈ reports, r.source.isDeterministic = false →
    (∀ i ∈ r.event.inputs, i.keyPath = none) ∧ ∀ p ∈ r.event.outputs, p.keyPath = none
  /-- A script of a wallet is always reported with the same path, if with any. -/
  path : ∀ r ∈ reports, ∀ r' ∈ reports, ∀ w, r.wallet? s = some w → r'.wallet? s = some w →
    ∀ p ∈ r.event.outputs, ∀ p' ∈ r'.event.outputs, p.script = p'.script →
      ∀ x x', p.keyPath = some x → p'.keyPath = some x' → x = x'

/-- The operations that are recorded for an event. -/
inductive Recorded (w : Wallet) (source : TrackedSource) (e : TransactionEvent) :
    Operation → Prop where
  | transaction : Recorded w source e (.upsertTransaction ⟨e.txid, e.block⟩)
  | replaced {t : Txid} (h : e.effectiveReplaced = some t) :
      Recorded w source e (.retractTransaction t)
  | script {x : Script} (h : x ∈ e.scripts) : Recorded w source e (.insertScript ⟨x⟩)
  | derivedScript {s : WalletScript} (hsource : source.isDeterministic = true)
      (h : s ∈ reportedScripts w source e) : Recorded w source e (.mergeWalletScript s)
  | singleScript {s : WalletScript} (hsource : source.isDeterministic = false)
      (h : s ∈ reportedScripts w source e) : Recorded w source e (.insertWalletScript s)
  | inputScript {i : ObservedInput} (h : i ∈ e.inputs) :
      Recorded w source e (.insertTransactionScript ⟨e.txid, i.script, true⟩)
  | outputScript {p : ObservedOutput} (h : p ∈ e.outputs) :
      Recorded w source e (.insertTransactionScript ⟨e.txid, p.script, false⟩)
  | made {p : ObservedOutput} (h : p ∈ e.outputs) :
      Recorded w source e (.insertCoin (madeCoin e.txid p))
  | spent {i : ObservedInput} (h : i ∈ e.inputs) :
      Recorded w source e (.mergeCoinSpend (spentCoin e.txid i))

theorem recorded_of_mem_observation {w : Wallet} {source : TrackedSource} {e : TransactionEvent}
    {op : Operation} (h : op ∈ observation w source e) : Recorded w source e op := by
  simp only [observation, List.mem_cons, List.mem_append, List.mem_map] at h
  rcases h with rfl | (((((⟨t, ht, rfl⟩ | ⟨x, hx, rfl⟩) | ⟨s, hs, rfl⟩) | ⟨i, hi, rfl⟩) |
    ⟨p, hp, rfl⟩) | ⟨p, hp, rfl⟩) | ⟨i, hi, rfl⟩
  · exact .transaction
  · exact .replaced (Option.mem_toList.1 ht)
  · exact .script hx
  · cases hsource : source.isDeterministic
    · exact .singleScript hsource hs
    · exact .derivedScript hsource hs
  · exact .inputScript hi
  · exact .outputScript hp
  · exact .made hp
  · exact .spent hi

/-- The operations of reports. -/
def RecordedAny (s : Store) (reports : List Report) (op : Operation) : Prop :=
  ∃ r ∈ reports, ∃ w, r.wallet? s = some w ∧ Recorded w r.source r.event op

theorem recordedAny_of_mem {s : Store} {reports : List Report} {op : Operation}
    (h : op ∈ reports.flatMap (Report.batch s)) : RecordedAny s reports op := by
  obtain ⟨r, hr, hop⟩ := List.mem_flatMap.1 h
  unfold Report.batch at hop
  split at hop
  · rename_i w hw
    exact ⟨r, hr, w, hw, recorded_of_mem_observation hop⟩
  · cases hop

/-! ### Scripts and transactions -/

namespace Operation

/-- The script that is added to the records of scripts. -/
def addedScript (script : Script) : Operation → Option ScriptRecord
  | insertScript r => if r.script = script then some r else none
  | _ => none

theorem onScript_eq_join (script : Script) (op : Operation) (found : Option ScriptRecord) :
    op.onScript script found = join (op.addedScript script) id found := by
  cases op with
  | insertScript r =>
      rw [onScript, addedScript]
      split <;> simp [join]
  | _ => simp [onScript, addedScript, join]

theorem script_of_addedScript {script : Script} {op : Operation} {r : ScriptRecord}
    (h : op.addedScript script = some r) : r = ⟨script⟩ := by
  cases op with
  | insertScript r' =>
      rw [addedScript] at h
      split at h
      · rename_i hscript
        rw [← Option.some.inj h, ← hscript]
      · cases h
  | _ => cases h

/-- The record that takes the place of what is known of a transaction. -/
def addedTransaction (txid : Txid) : Operation → Option TransactionRecord
  | upsertTransaction t => if t.txid = txid then some t else none
  | _ => none

end Operation

theorem agree_script (script : Script) (ops : List Operation) :
    Agree (Operation.addedScript script) (fun _ => id) ops where
  added_eq a _ b _ x y hx hy := by
    rw [Operation.script_of_addedScript hx, Operation.script_of_addedScript hy]
  change_comm _ _ _ _ _ := rfl
  change_idem _ _ _ := rfl
  change_of_none _ _ _ _ := rfl

section

variable {s : Store} {reports : List Report} {op : Operation}

theorem RecordedAny.onTransaction_eq_join (h : Mergeable s reports)
    (hop : RecordedAny s reports op) (txid : Txid) (found : Option TransactionRecord) :
    op.onTransaction txid found =
      join (op.addedTransaction txid) (fun x => (op.addedTransaction txid).getD x) found := by
  obtain ⟨r, hr, w, -, hop⟩ := hop
  cases hop with
  | transaction =>
      rw [Operation.onTransaction, Operation.addedTransaction]
      split
      · cases found <;> rfl
      · simp [join]
  | replaced hreplaced =>
      rw [h.unreplaced r hr] at hreplaced
      cases hreplaced
  | _ => simp [Operation.onTransaction, Operation.addedTransaction, join]

theorem RecordedAny.record_of_addedTransaction {txid : Txid} {t : TransactionRecord}
    (hop : RecordedAny s reports op) (ht : op.addedTransaction txid = some t) :
    ∃ r ∈ reports, r.event.txid = txid ∧ t = ⟨txid, r.event.block⟩ := by
  obtain ⟨r, hr, w, -, hop⟩ := hop
  cases hop with
  | transaction =>
      rw [Operation.addedTransaction] at ht
      split at ht
      · rename_i htxid
        exact ⟨r, hr, htxid, by rw [← Option.some.inj ht, ← htxid]⟩
      · cases ht
  | _ => cases ht

theorem agree_transaction (h : Mergeable s reports) (txid : Txid) {ops : List Operation}
    (hops : ∀ op ∈ ops, RecordedAny s reports op) :
    Agree (Operation.addedTransaction txid) (fun op x => (op.addedTransaction txid).getD x) ops := by
  have hadded : ∀ a ∈ ops, ∀ b ∈ ops, ∀ x y, a.addedTransaction txid = some x →
      b.addedTransaction txid = some y → x = y := by
    intro a ha b hb x y hx hy
    obtain ⟨r, hr, hrt, rfl⟩ := (hops a ha).record_of_addedTransaction hx
    obtain ⟨r', hr', hrt', rfl⟩ := (hops b hb).record_of_addedTransaction hy
    rw [h.block r hr r' hr' (hrt.trans hrt'.symm)]
  constructor
  · exact hadded
  · intro a ha b hb x
    cases hx : a.addedTransaction txid with
    | none => rfl
    | some t =>
        cases hy : b.addedTransaction txid with
        | none => rfl
        | some t' => exact hadded a ha b hb t t' hx hy
  · intro a _ x
    cases a.addedTransaction txid <;> rfl
  · intro a _ hnone x
    rw [hnone]
    rfl

/-! ### Scripts of transactions -/

/-- The script of a transaction that a report adds, if it is heard. -/
def Report.addedTransactionScript (s : Store) (k : TransactionScriptKey) (r : Report) :
    Option TransactionScript :=
  if (r.wallet? s).isSome then r.event.mention k else none

theorem onAll_batch_eq_join (h : Mergeable s reports) {r : Report} (hr : r ∈ reports)
    (k : TransactionScriptKey) (found : Option TransactionScript) :
    Pointwise.onAll k (r.batch s) found = join (r.addedTransactionScript s k) id found := by
  unfold Report.batch Report.addedTransactionScript
  cases r.wallet? s with
  | none => simp [join]
  | some w =>
      have hnone := h.unreplaced r hr
      rw [onAll_transactionScript_observation]
      simp [TransactionEvent.onTransactionScript, hnone, join]

theorem TransactionEvent.cases_of_mention {e : TransactionEvent} {k : TransactionScriptKey}
    {t : TransactionScript} (h : e.mention k = some t) : e.txid = k.txid ∧
      (k.script ∈ e.inputs.map ObservedInput.script ∧ t = ⟨k.txid, k.script, true⟩ ∨
        k.script ∉ e.inputs.map ObservedInput.script ∧
          k.script ∈ e.outputs.map ObservedOutput.script ∧ t = ⟨k.txid, k.script, false⟩) := by
  unfold mention at h
  split at h
  · rename_i htxid
    refine ⟨htxid, ?_⟩
    split at h
    · rename_i hin
      exact .inl ⟨hin, (Option.some.inj h).symm⟩
    · rename_i hin
      split at h
      · rename_i hout
        exact .inr ⟨hin, hout, (Option.some.inj h).symm⟩
      · cases h
  · cases h

/-- What one event of a transaction spends is not only made in another one. -/
theorem Mergeable.spent_of_made (h : Mergeable s reports) {r r' : Report} (hr : r ∈ reports)
    (hr' : r' ∈ reports) (htxid : r.event.txid = r'.event.txid) {script : Script}
    (hin : script ∈ r.event.inputs.map ObservedInput.script)
    (hout : script ∈ r'.event.outputs.map ObservedOutput.script) :
    script ∈ r'.event.inputs.map ObservedInput.script := by
  obtain ⟨i, hi, rfl⟩ := List.mem_map.1 hin
  obtain ⟨p, hp, hscript⟩ := List.mem_map.1 hout
  obtain ⟨j, hj, hji⟩ := h.role r hr r' hr' htxid i hi p hp hscript.symm
  exact List.mem_map.2 ⟨j, hj, hji⟩

/-- Two events of one transaction say the same of a script, if both mention it. -/
theorem Mergeable.mention_eq (h : Mergeable s reports) {r r' : Report} (hr : r ∈ reports)
    (hr' : r' ∈ reports) {k : TransactionScriptKey} {x y : TransactionScript}
    (hx : r.event.mention k = some x) (hy : r'.event.mention k = some y) : x = y := by
  obtain ⟨htxid, hx⟩ := TransactionEvent.cases_of_mention hx
  obtain ⟨htxid', hy⟩ := TransactionEvent.cases_of_mention hy
  have hsame : r.event.txid = r'.event.txid := htxid.trans htxid'.symm
  rcases hx with ⟨hin, rfl⟩ | ⟨hin, hout, rfl⟩
  · rcases hy with ⟨-, rfl⟩ | ⟨hin', hout', rfl⟩
    · rfl
    · exact absurd (h.spent_of_made hr hr' hsame hin hout') hin'
  · rcases hy with ⟨hin', rfl⟩ | ⟨-, -, rfl⟩
    · exact absurd (h.spent_of_made hr' hr hsame.symm hin' hout) hin
    · rfl

theorem agree_transactionScript (h : Mergeable s reports) (k : TransactionScriptKey) :
    Agree (Report.addedTransactionScript s k) (fun _ => id) reports where
  added_eq r hr r' hr' x y hx hy := by
    unfold Report.addedTransactionScript at hx hy
    split at hx
    · split at hy
      · exact h.mention_eq hr hr' hx hy
      · cases hy
    · cases hx
  change_comm _ _ _ _ _ := rfl
  change_idem _ _ _ := rfl
  change_of_none _ _ _ _ := rfl

/-! ### Coins -/

end

namespace Operation

/-- The coin that is added where there is none, not spent yet. -/
def addedCoin (o : Outpoint) : Operation → Option Coin
  | insertCoin c | mergeCoinSpend c => if c.outpoint = o then some { c with spentBy := none } else none
  | _ => none

/-- The coin after it is reported to be spent. -/
def changedCoin (o : Outpoint) : Operation → Coin → Coin
  | mergeCoinSpend c, x => if c.outpoint = o then { x with spentBy := c.spentBy } else x
  | _, x => x

end Operation

section

variable {s : Store} {reports : List Report} {op : Operation}

theorem RecordedAny.onCoin_eq_join (h : Mergeable s reports) (hop : RecordedAny s reports op)
    (o : Outpoint) (found : Option Coin) :
    op.onCoin o found = join (op.addedCoin o) (op.changedCoin o) found := by
  obtain ⟨r, hr, w, -, hop⟩ := hop
  cases hop with
  | made hp =>
      rw [Operation.onCoin, Operation.addedCoin]
      split
      · cases found <;> rfl
      · cases found <;> rfl
  | spent hi =>
      rw [Operation.onCoin, Operation.addedCoin]
      split
      · rename_i ho
        cases found <;> simp [join, Operation.changedCoin, ho]
      · rename_i ho
        cases found <;> simp [join, Operation.changedCoin, ho]
  | replaced hreplaced =>
      rw [h.unreplaced r hr] at hreplaced
      cases hreplaced
  | _ => cases found <;> rfl

theorem RecordedAny.utxo_of_addedCoin {o : Outpoint} {c : Coin} (hop : RecordedAny s reports op)
    (hc : op.addedCoin o = some c) :
    c.spentBy = none ∧ c.outpoint = o ∧ ∃ r ∈ reports, c.utxo ∈ r.event.mentions := by
  obtain ⟨r, hr, w, -, hop⟩ := hop
  cases hop with
  | @made p hp =>
      rw [Operation.addedCoin] at hc
      split at hc
      · rename_i ho
        obtain rfl := Option.some.inj hc
        exact ⟨rfl, ho, r, hr, List.mem_append_left _ (List.mem_map.2 ⟨p, hp, rfl⟩)⟩
      · cases hc
  | @spent i hi =>
      rw [Operation.addedCoin] at hc
      split at hc
      · rename_i ho
        obtain rfl := Option.some.inj hc
        exact ⟨rfl, ho, r, hr, List.mem_append_right _ (List.mem_map.2 ⟨i, hi, rfl⟩)⟩
      · cases hc
  | _ => cases hc

theorem RecordedAny.changedCoin_cases (hop : RecordedAny s reports op) (o : Outpoint) :
    (∀ x, op.changedCoin o x = x) ∨ ∃ r ∈ reports, ∃ i ∈ r.event.inputs, i.previous = o ∧
      ∀ x, op.changedCoin o x = { x with spentBy := some ⟨r.event.txid, i.inputIndex⟩ } := by
  obtain ⟨r, hr, w, -, hop⟩ := hop
  cases hop with
  | @spent i hi =>
      by_cases ho : i.previous = o
      · exact .inr ⟨r, hr, i, hi, ho, fun x => if_pos ho⟩
      · exact .inl fun x => if_neg ho
  | _ => exact .inl fun x => rfl

theorem agree_coin (h : Mergeable s reports) (o : Outpoint) {ops : List Operation}
    (hops : ∀ op ∈ ops, RecordedAny s reports op) :
    Agree (Operation.addedCoin o) (Operation.changedCoin o) ops := by
  constructor
  · intro a ha b hb x y hx hy
    obtain ⟨hxs, hxo, r, hr, hxm⟩ := (hops a ha).utxo_of_addedCoin hx
    obtain ⟨hys, hyo, r', hr', hym⟩ := (hops b hb).utxo_of_addedCoin hy
    have hutxo : x.utxo = y.utxo := h.agreed r hr r' hr' _ hxm _ hym (hxo.trans hyo.symm)
    cases x
    cases y
    simp only [Coin.utxo, Coin.txout, Utxo.mk.injEq, TxOut.mk.injEq] at hutxo hxs hys
    simp [hutxo, hxs, hys]
  · intro a ha b hb x
    rcases (hops a ha).changedCoin_cases o with hka | ⟨r, hr, i, hi, hio, hka⟩
    · rw [hka, hka]
    · rcases (hops b hb).changedCoin_cases o with hkb | ⟨r', hr', i', hi', hio', hkb⟩
      · rw [hkb, hkb]
      · obtain ⟨htxid, hindex⟩ := h.unique r hr r' hr' i hi i' hi' (hio.trans hio'.symm)
        rw [hka, hkb, hkb, hka, htxid, hindex]
  · intro a ha x
    rcases (hops a ha).changedCoin_cases o with hka | ⟨r, hr, i, hi, -, hka⟩
    · rw [hka, hka]
    · rw [hka, hka]
  · intro a ha hnone x
    cases a with
    | mergeCoinSpend c =>
        rw [Operation.addedCoin] at hnone
        split at hnone
        · cases hnone
        · rename_i ho
          exact if_neg ho
    | _ => rfl

end

/-! ### Scripts of wallets -/

namespace Operation

/-- The script of a wallet that is added where there is none, without its path. -/
def addedWalletScript (k : WalletScriptKey) : Operation → Option WalletScript
  | insertWalletScript w | mergeWalletScript w =>
      if rowKey WalletScript (Entity.key w) = rowKey WalletScript k then
        some { w with derivationPath := none } else none
  | _ => none

/-- The script of a wallet after its path is reported. -/
def changedWalletScript (k : WalletScriptKey) : Operation → WalletScript → WalletScript
  | mergeWalletScript w, x =>
      if rowKey WalletScript (Entity.key w) = rowKey WalletScript k then
        { x with derivationPath := x.derivationPath.or w.derivationPath } else x
  | _, x => x

end Operation

theorem mem_reportedScripts {w : Wallet} {source : TrackedSource} {e : TransactionEvent}
    {s : WalletScript} (h : s ∈ reportedScripts w source e) :
    (∃ p ∈ e.outputs, s = reportedScript w p.script p.keyPath) ∨
      source.isDeterministic = false ∧ ∃ i ∈ e.inputs, s = reportedScript w i.script i.keyPath := by
  rcases List.mem_append.1 h with h | h
  · obtain ⟨p, hp, rfl⟩ := List.mem_map.1 h
    exact .inl ⟨p, hp, rfl⟩
  · split at h
    · cases h
    · rename_i hsource
      obtain ⟨i, hi, rfl⟩ := List.mem_map.1 h
      exact .inr ⟨by simpa using hsource, i, hi, rfl⟩

theorem walletId_of_mem_reportedScripts {w : Wallet} {source : TrackedSource}
    {e : TransactionEvent} {s : WalletScript} (h : s ∈ reportedScripts w source e) :
    s.walletId = w.id := by
  rcases mem_reportedScripts h with ⟨p, -, rfl⟩ | ⟨-, i, -, rfl⟩ <;> rfl

section

variable {s : Store} {reports : List Report} {op : Operation}

theorem Mergeable.path_eq_none (h : Mergeable s reports) {r : Report} (hr : r ∈ reports)
    (hsource : r.source.isDeterministic = false) {w : Wallet} {ws : WalletScript}
    (hws : ws ∈ reportedScripts w r.source r.event) : ws.derivationPath = none := by
  obtain ⟨hinputs, houtputs⟩ := h.pathless r hr hsource
  rcases mem_reportedScripts hws with ⟨p, hp, rfl⟩ | ⟨-, i, hi, rfl⟩
  · simp [reportedScript, houtputs p hp]
  · simp [reportedScript, hinputs i hi]

theorem RecordedAny.onWalletScript_eq_join (h : Mergeable s reports)
    (hop : RecordedAny s reports op) (k : WalletScriptKey) (found : Option WalletScript) :
    op.onWalletScript k found = join (op.addedWalletScript k) (op.changedWalletScript k) found := by
  obtain ⟨r, hr, w, -, hop⟩ := hop
  cases hop with
  | @derivedScript ws hsource hws =>
      rw [Operation.onWalletScript, Operation.addedWalletScript]
      split
      · rename_i hk
        cases found <;> simp [join, Operation.changedWalletScript, hk, WalletScript.fill]
      · rename_i hk
        cases found <;> simp [join, Operation.changedWalletScript, hk]
  | @singleScript ws hsource hws =>
      have hpath := h.path_eq_none hr hsource hws
      have hsame : ({ ws with derivationPath := none } : WalletScript) = ws := by rw [← hpath]
      rw [Operation.onWalletScript, Operation.addedWalletScript, hsame]
      split
      · cases found <;> rfl
      · cases found <;> rfl
  | replaced hreplaced =>
      rw [h.unreplaced r hr] at hreplaced
      cases hreplaced
  | _ => cases found <;> rfl

theorem RecordedAny.wallet_of_addedWalletScript {k : WalletScriptKey} {x : WalletScript}
    (hop : RecordedAny s reports op) (hx : op.addedWalletScript k = some x) :
    ∃ r ∈ reports, ∃ w, r.wallet? s = some w ∧ x = ⟨w.id, x.script, none⟩ ∧
      rowKey WalletScript ⟨w.id, x.script⟩ = rowKey WalletScript k := by
  obtain ⟨r, hr, w, hw, hop⟩ := hop
  cases hop with
  | @derivedScript ws _ hws | @singleScript ws _ hws =>
      rw [Operation.addedWalletScript] at hx
      split at hx
      · rename_i hk
        obtain rfl := Option.some.inj hx
        have hid := walletId_of_mem_reportedScripts hws
        refine ⟨r, hr, w, hw, ?_, ?_⟩
        · simp [← hid]
        · rw [← hid]
          exact hk
      · cases hx
  | _ => cases hx

theorem RecordedAny.changedWalletScript_cases (hop : RecordedAny s reports op)
    (k : WalletScriptKey) :
    (∀ x, op.changedWalletScript k x = x) ∨
      ∃ r ∈ reports, ∃ w, r.wallet? s = some w ∧ ∃ p ∈ r.event.outputs,
        rowKey WalletScript ⟨w.id, p.script⟩ = rowKey WalletScript k ∧
          ∀ x, op.changedWalletScript k x =
            { x with derivationPath := x.derivationPath.or (p.keyPath.map w.pathFor) } := by
  obtain ⟨r, hr, w, hw, hop⟩ := hop
  cases hop with
  | @derivedScript ws hsource hws =>
      rcases mem_reportedScripts hws with ⟨p, hp, rfl⟩ | ⟨hsource', -⟩
      · by_cases hk : rowKey WalletScript ⟨w.id, p.script⟩ = rowKey WalletScript k
        · exact .inr ⟨r, hr, w, hw, p, hp, hk, fun x => if_pos hk⟩
        · exact .inl fun x => if_neg hk
      · rw [hsource] at hsource'
        cases hsource'
  | _ => exact .inl fun x => rfl

end

/-- In a reachable store the bytes of a key tell the wallet and the script. -/
theorem Reachable.wallet_eq_of_rowKey_eq {l : Ledger} (hl : Reachable l) {r r' : Report}
    {w w' : Wallet} (hw : r.wallet? l.store = some w) (hw' : r'.wallet? l.store = some w')
    {script script' : Script}
    (h : rowKey WalletScript ⟨w.id, script⟩ = rowKey WalletScript ⟨w'.id, script'⟩) :
    w = w' ∧ script = script' := by
  have hstored := Report.record?_of_wallet? hl.wellFormed.sound hw
  have hstored' := Report.record?_of_wallet? hl.wellFormed.sound hw'
  have hid : 0 ∉ Bytes.utf8 w.id := hl.zero_notMem_id (by rw [hstored]; rfl)
  have hid' : 0 ∉ Bytes.utf8 w'.id := hl.zero_notMem_id (by rw [hstored']; rfl)
  obtain ⟨hsame, hscript⟩ := terminated_append_inj hid hid' (List.cons.inj h).2
  rw [← hsame, hstored] at hstored'
  exact ⟨Option.some.inj hstored', Script.bytes_injective hscript⟩

theorem agree_walletScript {l : Ledger} (hl : Reachable l) {reports : List Report}
    (h : Mergeable l.store reports) (k : WalletScriptKey) {ops : List Operation}
    (hops : ∀ op ∈ ops, RecordedAny l.store reports op) :
    Agree (Operation.addedWalletScript k) (Operation.changedWalletScript k) ops := by
  constructor
  · intro a ha b hb x y hx hy
    obtain ⟨r, hr, w, hw, hxw, hxk⟩ := (hops a ha).wallet_of_addedWalletScript hx
    obtain ⟨r', hr', w', hw', hyw, hyk⟩ := (hops b hb).wallet_of_addedWalletScript hy
    obtain ⟨rfl, hscript⟩ := hl.wallet_eq_of_rowKey_eq hw hw' (hxk.trans hyk.symm)
    rw [hxw, hyw, hscript]
  · intro a ha b hb x
    rcases (hops a ha).changedWalletScript_cases k with hka | ⟨r, hr, w, hw, p, hp, hpk, hka⟩
    · rw [hka, hka]
    · rcases (hops b hb).changedWalletScript_cases k with
        hkb | ⟨r', hr', w', hw', p', hp', hpk', hkb⟩
      · rw [hkb, hkb]
      · obtain ⟨rfl, hscript⟩ := hl.wallet_eq_of_rowKey_eq hw hw' (hpk.trans hpk'.symm)
        have hpath := h.path r hr r' hr' w hw hw' p hp p' hp' hscript
        rw [hka, hkb, hkb, hka]
        cases hx : p.keyPath with
        | none => simp
        | some y =>
            cases hx' : p'.keyPath with
            | none => simp
            | some y' => rw [hpath y y' hx hx']
  · intro a ha x
    rcases (hops a ha).changedWalletScript_cases k with hka | ⟨r, hr, w, hw, p, hp, hpk, hka⟩
    · rw [hka, hka]
    · rw [hka, hka]
      cases x.derivationPath <;> simp
  · intro a ha hnone x
    cases a with
    | mergeWalletScript ws =>
        rw [Operation.addedWalletScript] at hnone
        split at hnone
        · cases hnone
        · rename_i hk
          exact if_neg hk
    | _ => rfl

/-! ### Equal stores -/

/-- The records that reports change are the same in both stores, and so are all other rows. -/
structure SameTables (s s' : Store) : Prop where
  script : ∀ k, record? ScriptRecord s' k = record? ScriptRecord s k
  walletScript : ∀ k, record? WalletScript s' k = record? WalletScript s k
  transaction : ∀ k, record? TransactionRecord s' k = record? TransactionRecord s k
  transactionScript : ∀ k, record? TransactionScript s' k = record? TransactionScript s k
  coin : ∀ k, record? Coin s' k = record? Coin s k
  others : ∀ kind ∈ [EntityKind.wallet, .channel, .payment, .blob], SameRows kind s s'

/-- Well-formed stores with the same tables are the same. -/
theorem SameTables.eq {s s' : Store} (h : SameTables s s') (hs : WellFormed s)
    (hs' : WellFormed s') : s = s' := by
  refine hs.ext hs' fun kind => ?_
  cases kind with
  | script => exact hs.sound.sameRows hs'.sound h.script
  | walletScript => exact hs.sound.sameRows hs'.sound h.walletScript
  | transaction => exact hs.sound.sameRows hs'.sound h.transaction
  | transactionScript => exact hs.sound.sameRows hs'.sound h.transactionScript
  | coin => exact hs.sound.sameRows hs'.sound h.coin
  | wallet | channel | payment | blob => exact h.others _ (by decide)

/-! ### The result -/

section

variable {l : Ledger} {reports reports' : List Report}

theorem sameRows_of_reports {s' : Store}
    (h : commit l.store (reports.flatMap (Report.batch l.store)) = .ok s')
    (hunreplaced : ∀ r ∈ reports, r.event.effectiveReplaced = none) :
    ∀ kind ∈ [EntityKind.wallet, .channel, .payment, .blob], SameRows kind l.store s' := by
  intro kind hkind
  refine (writes_commit h).sameRows ?_
  intro hmem
  obtain ⟨op, hop, hwrites⟩ := List.mem_flatMap.1 hmem
  obtain ⟨r, hr, w, -, hop⟩ := recordedAny_of_mem hop
  cases hop with
  | replaced hreplaced =>
      rw [hunreplaced r hr] at hreplaced
      cases hreplaced
  | _ =>
      obtain rfl := List.mem_singleton.1 hwrites
      exact absurd hkind (by decide)

theorem mem_flatMap_iff {β γ : Type} {xs ys : List β} (h : ∀ x, x ∈ xs ↔ x ∈ ys) (f : β → List γ)
    (y : γ) : y ∈ xs.flatMap f ↔ y ∈ ys.flatMap f := by
  simp only [List.mem_flatMap, h]

/-- The records of a kind on which all operations of reports act as joins that agree. -/
theorem onAll_eq_of_mem_iff {α κ : Type} [Entity α κ] [Pointwise α] {key : κ} {ops ops' : Batch}
    {added : Operation → Option α} {change : Operation → α → α} (h : Agree added change ops)
    (hjoin : ∀ op ∈ ops, ∀ found, Pointwise.on key op found = join (added op) (change op) found)
    (hmem : ∀ op, op ∈ ops ↔ op ∈ ops') (found : Option α) :
    Pointwise.onAll key ops found = Pointwise.onAll key ops' found := by
  have hstep : ∀ {batch : Batch}, (∀ op ∈ batch, op ∈ ops) → ∀ found : Option α,
      Pointwise.onAll key batch found =
        stepAll (fun op => join (added op) (change op)) batch found := by
    intro batch
    induction batch with
    | nil => exact fun _ _ => rfl
    | cons op batch ih =>
        intro hsub found
        rw [Pointwise.onAll_cons, hjoin op (hsub op List.mem_cons_self),
          ih fun op' hop => hsub op' (List.mem_cons_of_mem _ hop)]
        rfl
  rw [hstep fun _ => id, hstep fun op hop => (hmem op).2 hop, h.unordered.stepAll_eq_of_mem_iff hmem]

/-- The scripts of transactions, on which whole reports act as joins that agree. -/
theorem onAll_transactionScript_eq_of_mem_iff {s : Store} (h : Mergeable s reports)
    (hmem : ∀ r, r ∈ reports ↔ r ∈ reports') (k : TransactionScriptKey)
    (found : Option TransactionScript) :
    Pointwise.onAll k (reports.flatMap (Report.batch s)) found =
      Pointwise.onAll k (reports'.flatMap (Report.batch s)) found := by
  have hstep : ∀ {some : List Report}, (∀ r ∈ some, r ∈ reports) →
      ∀ found : Option TransactionScript,
        Pointwise.onAll k (some.flatMap (Report.batch s)) found =
          stepAll (fun r => join (r.addedTransactionScript s k) id) some found := by
    intro some
    induction some with
    | nil => exact fun _ _ => rfl
    | cons r some ih =>
        intro hsub found
        rw [List.flatMap_cons, Pointwise.onAll_append, onAll_batch_eq_join h (hsub r List.mem_cons_self),
          ih fun r' hr => hsub r' (List.mem_cons_of_mem _ hr)]
        rfl
  rw [hstep fun _ => id, hstep fun r hr => (hmem r).2 hr,
    (agree_transactionScript h k).unordered.stepAll_eq_of_mem_iff hmem]

/-- **Neither the order of reports nor their number matters.**  On every ledger that requests lead
to, two lists with the same reports, in any order and any of them repeated, leave the same ledger,
byte for byte in its store, if the reports do not contradict each other. -/
theorem serveAll_eq_of_mem_iff (hl : Reachable l) (h : Mergeable l.store reports)
    (hmem : ∀ r, r ∈ reports ↔ r ∈ reports') :
    l.serveAll (reports.map Report.request) = l.serveAll (reports'.map Report.request) := by
  have hs : WellFormed l.store := hl.wellFormed
  obtain ⟨s, hcommit, hserve⟩ := serveAll_requests reports hs
  obtain ⟨s', hcommit', hserve'⟩ := serveAll_requests reports' hs
  have hops : ∀ op ∈ reports.flatMap (Report.batch l.store), RecordedAny l.store reports op :=
    fun _ => recordedAny_of_mem
  have hmemOps := mem_flatMap_iff hmem (Report.batch l.store)
  have hrows := sameRows_of_reports hcommit h.unreplaced
  have hrows' := sameRows_of_reports hcommit' fun r hr => h.unreplaced r ((hmem r).2 hr)
  have htables : SameTables s s' := by
    constructor
    · intro k
      rw [Pointwise.record?_commit hs.sound hcommit, Pointwise.record?_commit hs.sound hcommit']
      exact (onAll_eq_of_mem_iff (agree_script k _) (fun op _ => Operation.onScript_eq_join k op)
        hmemOps _).symm
    · intro k
      rw [Pointwise.record?_commit hs.sound hcommit, Pointwise.record?_commit hs.sound hcommit']
      exact (onAll_eq_of_mem_iff (agree_walletScript hl h k hops)
        (fun op hop => (hops op hop).onWalletScript_eq_join h k) hmemOps _).symm
    · intro k
      rw [Pointwise.record?_commit hs.sound hcommit, Pointwise.record?_commit hs.sound hcommit']
      exact (onAll_eq_of_mem_iff (agree_transaction h k hops)
        (fun op hop => (hops op hop).onTransaction_eq_join h k) hmemOps _).symm
    · intro k
      rw [Pointwise.record?_commit hs.sound hcommit, Pointwise.record?_commit hs.sound hcommit']
      exact (onAll_transactionScript_eq_of_mem_iff h hmem k _).symm
    · intro k
      rw [Pointwise.record?_commit hs.sound hcommit, Pointwise.record?_commit hs.sound hcommit']
      exact (onAll_eq_of_mem_iff (agree_coin h k hops)
        (fun op hop => (hops op hop).onCoin_eq_join h k) hmemOps _).symm
    · intro kind hkind key hkey
      rw [hrows' kind hkind key hkey, hrows kind hkind key hkey]
  rw [hserve, hserve', htables.eq (hs.commit hcommit) (hs.commit hcommit')]

end

/-- A payment and a transaction that spends it are reported in either order, and one of them
twice. -/
theorem serveAll_of_spendBeforeFunding :
    aliasLedger.serveAll ([aliasReport 1 1000 none none, aliasReport 2 900 (some 1) none].map
        Report.request) =
      aliasLedger.serveAll ([aliasReport 2 900 (some 1) none, aliasReport 1 1000 none none,
        aliasReport 2 900 (some 1) none].map Report.request) := by
  have hpath : ∀ r ∈ [aliasReport 1 1000 none none, aliasReport 2 900 (some 1) none],
      ∀ p ∈ r.event.outputs, p.keyPath = some "0" := by decide
  refine serveAll_eq_of_mem_iff reachable_aliasLedger ?_ ?_
  · constructor
    · decide
    · decide
    · decide
    · decide
    · decide
    · decide
    · intro r hr r' hr' w _ _ p hp p' hp' _ x x' hx hx'
      have hsame : some x = some x' := by
        rw [← hx, ← hx', hpath r hr p hp, hpath r' hr' p' hp']
      exact Option.some.inj hsame
  · intro r
    simp only [List.mem_cons, List.not_mem_nil, or_false]
    tauto

end CoinLedger
