import CoinLedger.Proofs.Ledger.Redelivery
import CoinLedger.Proofs.Ledger.Retraction

/-! # An event that is delivered twice in a row

Recording an event a second time changes nothing (`observe_again`).  The batch is not made of
operations of which each changes nothing the second time: a transaction that is replaced is
retracted again, outputs that are listed twice are inserted again, and inputs that spend one output
take turns to overwrite its spend.  What has to be stable is what the whole event makes of a record.
For coins this is `TransactionEvent.onCoin_onCoin`: the last input that spends an output has the last
word (`TransactionEvent.spender?`), and what it left is neither released nor made anew.

A channel is closed by an event that replaces the transaction of its funding coin
(`record?_channel_observation`).  It is only here that the second delivery might find more than the
first one did: if an event spends an output of the transaction that it replaces, it leaves a coin of
that transaction behind. -/

namespace CoinLedger

open Ledger

/-! ### Channels and events -/

/-- Channels are written by nothing but the retraction at the start of the batch. -/
theorem exists_observation_eq (w : Wallet) (source : TrackedSource) (e : TransactionEvent) :
    ∃ rest : Batch, observation w source e = [.upsertTransaction ⟨e.txid, e.block⟩] ++
        (e.effectiveReplaced.toList.map .retractTransaction ++ rest) ∧
      EntityKind.channel ∉ rest.flatMap Operation.writes := by
  refine ⟨bookkeeping w source e ++ (e.outputs.map (fun p => .insertCoin (madeCoin e.txid p)) ++
    e.inputs.map fun i => .mergeCoinSpend (spentCoin e.txid i)), ?_, fun hmem => ?_⟩
  · simp only [observation_eq, List.append_assoc, List.singleton_append]
  · obtain ⟨op, hop, hwrites⟩ := List.mem_flatMap.1 hmem
    simp only [List.mem_append, List.mem_map] at hop
    rcases hop with hop | ⟨p, -, rfl⟩ | ⟨i, -, rfl⟩
    · exact absurd (writes_of_mem_bookkeeping hop hwrites) (by decide)
    · simp [Operation.writes] at hwrites
    · simp [Operation.writes] at hwrites

/-- An event closes the channels that are funded by a stored coin of the transaction it replaces. -/
theorem record?_channel_observation {s s' : Store} {w : Wallet} {source : TrackedSource}
    {e : TransactionEvent} (hs : WellFormed s) (h : commit s (observation w source e) = .ok s')
    (k : ChannelKey) :
    record? Channel s' k =
      if e.effectiveReplaced = some k.funding.txid ∧ (record? Coin s k.funding).isSome = true then none
      else record? Channel s k := by
  obtain ⟨rest, hsplit, hrest⟩ := exists_observation_eq w source e
  rw [hsplit, commit_append] at h
  obtain ⟨s₁, hupsert, h⟩ := bind_ok h
  rw [commit_append] at h
  obtain ⟨s₂, hretract, h⟩ := bind_ok h
  have hs₁ : WellFormed s₁ := hs.commit hupsert
  have hcoin : SameRows .coin s s₁ := (writes_commit hupsert).sameRows (by simp [Operation.writes])
  have hchannel : SameRows .channel s s₁ :=
    (writes_commit hupsert).sameRows (by simp [Operation.writes])
  rw [((writes_commit h).sameRows hrest).record?_eq]
  cases hr : e.effectiveReplaced with
  | none =>
      rw [hr] at hretract
      obtain rfl : s₁ = s₂ := Except.ok.inj hretract
      rw [hchannel.record?_eq]
      simp
  | some r =>
      rw [hr] at hretract
      have hretract' : Operation.retract r s₁ = .ok s₂ := by
        rw [← hretract]
        exact (commit_singleton s₁ (.retractTransaction r)).symm
      rw [(Retracted.of_retract hs₁ hretract').channel, hcoin.record?_eq (α := Coin),
        hchannel.record?_eq (α := Channel)]
      have hiff : some r = some k.funding.txid ↔ k.funding.txid = r := by
        rw [Option.some.injEq, eq_comm]
      simp only [hiff]

/-! ### Coins -/

namespace TransactionEvent

/-- What spends an output in the end: the last input of the event that spends it. -/
def spender? (e : TransactionEvent) (o : Outpoint) : Option SpentBy :=
  (e.inputs.reverse.find? fun i => i.previous = o).map fun i => ⟨e.txid, i.inputIndex⟩

variable {e : TransactionEvent} {o : Outpoint} {found : Option Coin} {c : Coin}

theorem txid_of_spender? {t : SpentBy} (h : e.spender? o = some t) : t.txid = e.txid := by
  obtain ⟨i, -, rfl⟩ := Option.map_eq_some_iff.1 h
  rfl

/-- The last of the inputs that spend an output overwrites what the others left. -/
theorem spend_eq (e : TransactionEvent) (o : Outpoint) (found : Option Coin) :
    (∀ c, found = some c →
      e.spend o found = some { c with spentBy := (e.spender? o).or c.spentBy }) ∧
    ∀ t, e.spender? o = some t → ∃ c, e.spend o found = some c ∧ c.spentBy = some t := by
  unfold spend spender?
  induction e.inputs using List.reverseRecOn with
  | nil =>
      refine ⟨?_, ?_⟩
      · rintro c rfl
        rfl
      · rintro t ⟨⟩
  | append_singleton is i ih =>
      obtain ⟨hknown, hspent⟩ := ih
      have hlast : ∀ x : Option Coin, (Operation.mergeCoinSpend (spentCoin e.txid i)).onCoin o x =
          if i.previous = o then
            some { x.getD (spentCoin e.txid i) with spentBy := some ⟨e.txid, i.inputIndex⟩ }
          else x := fun _ => rfl
      simp only [List.foldl_append, List.foldl_cons, List.foldl_nil, List.reverse_append,
        List.reverse_singleton, List.singleton_append, List.find?_cons, hlast]
      by_cases hi : i.previous = o
      · simp only [hi, decide_true, if_true, Option.map_some]
        refine ⟨fun c hc => ?_, ?_⟩
        · rw [hknown c hc]
          rfl
        · rintro t ⟨⟩
          exact ⟨_, rfl, rfl⟩
      · simp only [hi, decide_false, if_false]
        exact ⟨hknown, hspent⟩

theorem spend_spend (e : TransactionEvent) (o : Outpoint) (found : Option Coin) :
    e.spend o (e.spend o found) = e.spend o found := by
  cases hspend : e.spend o found with
  | none =>
      -- nothing spends the output, or there would be a coin
      cases found with
      | none => exact hspend
      | some c =>
          rw [(e.spend_eq o (some c)).1 c rfl] at hspend
          cases hspend
  | some c =>
      rw [(e.spend_eq o (some c)).1 c rfl]
      cases hlast : e.spender? o with
      | none => rfl
      | some t =>
          obtain ⟨c', hc', ht⟩ := (e.spend_eq o found).2 t hlast
          obtain rfl : c = c' := Option.some.inj (hspend.symm.trans hc')
          rw [← ht, Option.or_self]

/-- A coin stays that the replaced transaction neither made nor spends. -/
theorem release_eq_self (ho : e.effectiveReplaced ≠ some o.txid)
    (h : ∀ t, c.spentBy = some t → e.effectiveReplaced ≠ some t.txid) :
    e.release o (some c) = some c := by
  unfold release
  cases hr : e.effectiveReplaced with
  | none => rfl
  | some r =>
      rw [hr] at ho h
      have hne : o.txid ≠ r := fun heq => ho (heq ▸ rfl)
      have hkept : c.released r = c := Coin.released_eq_self fun t ht heq => h t ht (heq ▸ rfl)
      simp only [Operation.onCoin, if_neg hne, Option.map_some, hkept]

/-- What an event makes of a coin stays when the event comes again. -/
theorem onCoin_onCoin (e : TransactionEvent) (o : Outpoint) (found : Option Coin) :
    e.onCoin o (e.onCoin o found) = e.onCoin o found := by
  by_cases ho : e.effectiveReplaced = some o.txid
  · have hrelease : ∀ x : Option Coin, e.release o x = none := by
      intro x
      simp [release, ho, Operation.onCoin]
    rw [onCoin, hrelease, onCoin, hrelease]
  · have hrelease : e.release o (e.onCoin o found) = e.onCoin o found := by
      cases hc : e.onCoin o found with
      | none => exact e.release_none o
      | some c =>
          refine release_eq_self ho fun t ht => ?_
          rcases spentBy_of_onCoin hc ht with hsame | ⟨-, -, -, hkept⟩
          · rw [hsame]
            exact e.effectiveReplaced_ne
          · exact hkept
    have hmake : e.make o (e.onCoin o found) = e.onCoin o found := by
      rcases e.make_cases (o := o) (e.onCoin o found) with ⟨heq, -⟩ | ⟨hnone, c, -, -, hmade, hc⟩
      · exact heq
      · have hsome : (e.onCoin c.outpoint found).isSome = true := isSome_onCoin_of_made hmade found
        rw [hc, hnone] at hsome
        cases hsome
    calc e.onCoin o (e.onCoin o found)
        = e.spend o (e.make o (e.release o (e.onCoin o found))) := rfl
      _ = e.spend o (e.onCoin o found) := by rw [hrelease, hmake]
      _ = e.onCoin o found := e.spend_spend o _

/-! ### The other tables -/

theorem onTransaction_onTransaction (e : TransactionEvent) (txid : Txid)
    (found : Option TransactionRecord) :
    e.onTransaction txid (e.onTransaction txid found) = e.onTransaction txid found := by
  unfold onTransaction
  split
  · rfl
  · split <;> rfl

theorem onTransactionScript_onTransactionScript (e : TransactionEvent) (k : TransactionScriptKey)
    (found : Option TransactionScript) :
    e.onTransactionScript k (e.onTransactionScript k found) = e.onTransactionScript k found := by
  unfold onTransactionScript
  split
  · rfl
  · rw [Option.or_assoc, Option.or_self]

end TransactionEvent

/-- A batch inserts no script that it inserted before. -/
theorem onAll_script_onAll (script : Script) (batch : Batch) (found : Option ScriptRecord) :
    Pointwise.onAll script batch (Pointwise.onAll script batch found) =
      Pointwise.onAll script batch found := by
  have hkeep : ∀ r : ScriptRecord, Pointwise.onAll script batch (some r) = some r := by
    intro r
    obtain ⟨r', hr', rfl⟩ := Pointwise.exists_onAll_eq_some (R := Eq) (fun _ => rfl) Eq.trans
      (fun op known => ⟨known, Operation.onScript_some known, rfl⟩) batch r
    exact hr'
  cases hfound : Pointwise.onAll script batch found with
  | some r => exact hkeep r
  | none =>
      cases found with
      | none => exact hfound
      | some r =>
          rw [hkeep] at hfound
          cases hfound

/-! ### The result -/

/-- An event that was recorded is recorded again without a change, unless it leaves a coin of the
transaction that it replaces. -/
theorem commit_observation_again {s s' : Store} {w : Wallet} {source : TrackedSource}
    {e : TransactionEvent} (hs : WellFormed s) (h : commit s (observation w source e) = .ok s')
    (hspent : ∀ i ∈ e.inputs, e.effectiveReplaced ≠ some i.previous.txid) :
    commit s' (observation w source e) = .ok s' := by
  have hs' : WellFormed s' := hs.commit h
  obtain ⟨t, ht⟩ := exists_commit_eq_ok hs' fun op (hop : op ∈ observation w source e) =>
    needsWallet_of_mem_observation hop
  have hwf : WellFormed t := hs'.commit ht
  have hsame : s' = t := by
    refine hs'.ext hwf fun kind => ?_
    cases kind with
    | script =>
        refine hs'.sound.sameRows (α := ScriptRecord) hwf.sound fun k => ?_
        rw [Pointwise.record?_commit hs'.sound ht, Pointwise.record?_commit hs.sound h,
          onAll_script_onAll]
    | walletScript =>
        refine hs'.sound.sameRows (α := WalletScript) hwf.sound fun k => ?_
        rw [Pointwise.record?_commit hs'.sound ht, Pointwise.record?_commit hs.sound h,
          onAll_walletScript_of_subset (List.Subset.refl _)]
    | transaction =>
        refine hs'.sound.sameRows (α := TransactionRecord) hwf.sound fun k => ?_
        rw [record?_transaction_observation hs' ht, record?_transaction_observation hs h,
          e.onTransaction_onTransaction]
    | transactionScript =>
        refine hs'.sound.sameRows (α := TransactionScript) hwf.sound fun k => ?_
        rw [record?_transactionScript_observation hs' ht,
          record?_transactionScript_observation hs h, e.onTransactionScript_onTransactionScript]
    | coin =>
        refine hs'.sound.sameRows (α := Coin) hwf.sound fun o => ?_
        rw [record?_coin_observation hs' ht, record?_coin_observation hs h, e.onCoin_onCoin]
    | channel =>
        refine hs'.sound.sameRows (α := Channel) hwf.sound fun k => ?_
        rw [record?_channel_observation hs' ht, if_neg]
        rintro ⟨hr, hcoin⟩
        have htouch : ¬e.Touches k.funding.txid := by
          rintro (heq | ⟨i, hi, heq⟩)
          · exact e.effectiveReplaced_ne (heq ▸ hr)
          · exact hspent i hi (heq ▸ hr)
        have hgone := Gone.of_observation hs h htouch (.inl hr)
        rw [hgone.funded k.funding rfl] at hcoin
        cases hcoin
    | wallet | payment | blob =>
        exact (writes_commit ht).sameRows (notMem_writes_observation (by decide))
  rw [ht, hsame]

/-- **A delivery that is repeated at once changes nothing.**  If an event is recorded, and spends no
output of the transaction that it replaces, then recording it again succeeds and leaves the ledger as
it is, whatever the event lists twice or reports of its own outputs. -/
theorem observe_again {l l' : Ledger} (hs : WellFormed l.store) {name : String}
    {source : TrackedSource} {e : TransactionEvent}
    (h : l.run (observe name source e) = (.ok (), l'))
    (hspent : ∀ i ∈ e.inputs, e.effectiveReplaced ≠ some i.previous.txid) :
    l'.run (observe name source e) = (.ok (), l') := by
  obtain ⟨w, hw, hcommit⟩ := run_observe_ok h
  have hrows : SameRows .wallet l.store l'.store :=
    (writes_commit hcommit).sameRows wallet_notMem_writes_observation
  have hw' : findWallet l'.store name = .ok (some w) := by
    rw [findWallet_eq_of_sameRows hrows, hw]
  obtain ⟨s', hagain, hrun⟩ := exists_run_observe_of_findWallet (hs.commit hcommit) hw' source e
  obtain rfl : l'.store = s' :=
    Except.ok.inj ((commit_observation_again hs hcommit hspent).symm.trans hagain)
  exact hrun

/-- A payment and a transaction that spends it. -/
def spentPayment : List Report := [aliasReport 1 1000 none none, aliasReport 2 900 (some 1) none]

/-- A transaction that replaces the second one and spends the payment in its place. -/
theorem observe_again_respent :
    ∃ l' : Ledger, Reachable (aliasLedger.serveAll (spentPayment.map Report.request)) ∧
      (aliasLedger.serveAll (spentPayment.map Report.request)).run
        (observe "alias" (.scheme "scheme") (aliasReport 3 800 (some 1) (some 2)).event) =
          (.ok (), l') ∧
      l'.run (observe "alias" (.scheme "scheme") (aliasReport 3 800 (some 1) (some 2)).event) =
        (.ok (), l') := by
  have hwf := reachable_aliasLedger.wellFormed.serveAll_requests spentPayment
  obtain ⟨w, hw⟩ := exists_findWallet_aliasLedger spentPayment
  obtain ⟨s', -, hrun⟩ := exists_run_observe_of_findWallet hwf hw (.scheme "scheme")
    (aliasReport 3 800 (some 1) (some 2)).event
  exact ⟨_, reachable_aliasLedger.serveAll _, hrun, observe_again hwf hrun (by decide)⟩

end CoinLedger
