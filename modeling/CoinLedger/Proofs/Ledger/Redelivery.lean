import CoinLedger.Proofs.Ledger.Replacement

/-! # Events that are delivered again

An event may be delivered more than once.  Here events are delivered again after a run in which
transactions were replaced.

What a replacement removed stays removed just as long as no event is delivered again that touches a
replaced transaction (`gone_of_redelivery`): such an event is recorded as if it were new, and puts
back what the replacement took away.  `restored_of_redelivery` is an example.

The coins that are offered stay the same too, if no such event is delivered again and the run was
orderly (`Orderly`).  `Standing` says what such a run leaves of its events; `Standing.step` says that
an event of the run that is delivered again keeps that, and leaves the unspent coins as they are. -/

namespace CoinLedger

open Ledger

/-! ### What an event puts back -/

namespace TransactionEvent

variable {e : TransactionEvent} {o : Outpoint} {found : Option Coin}

/-- An output that an event spends has a coin after it, which the event spends. -/
theorem spent_onCoin_of_spends (h : ∃ t, e.Spends o t) (found : Option Coin) :
    ∃ c t, e.onCoin o found = some c ∧ c.spentBy = some t ∧ e.Spends o t := by
  rw [onCoin]
  rcases e.spend_cases (o := o) (e.make o (e.release o found)) with
    ⟨-, hnone⟩ | ⟨t, c, hspends, heq, ht, -⟩
  · obtain ⟨u, hu, huo⟩ := exists_spends_iff.1 h
    exact absurd huo (hnone u hu)
  · exact ⟨c, t, heq, ht, hspends⟩

/-- A coin that is spent stays spent, if neither its transaction nor the one that spends it is
replaced. -/
theorem spent_onCoin {c₀ : Coin} {t₀ : SpentBy} (ho : e.effectiveReplaced ≠ some o.txid)
    (hfound : found = some c₀) (ht₀ : c₀.spentBy = some t₀)
    (hreplaced : e.effectiveReplaced ≠ some t₀.txid) :
    ∃ c t, e.onCoin o found = some c ∧ c.spentBy = some t ∧ (t = t₀ ∨ e.Spends o t) := by
  obtain ⟨kept, hkept, hspent⟩ := (e.carried ho found).lasting c₀ t₀ hfound ht₀ hreplaced
  rw [onCoin]
  rcases e.spend_cases (o := o) (e.make o (e.release o found)) with
    ⟨heq, -⟩ | ⟨t, c, hspends, heq, ht, -⟩
  · exact ⟨kept, t₀, heq.trans hkept, hspent, .inl rfl⟩
  · exact ⟨c, t, heq, ht, .inr hspends⟩

end TransactionEvent

section

variable {s s' : Store} {w : Wallet} {source : TrackedSource} {e : TransactionEvent} {txid : Txid}

/-- A transaction is not gone after an event that touches it. -/
theorem not_gone_of_touches (hs : WellFormed s)
    (h : commit s (observation w source e) = .ok s') (htouch : e.Touches txid) : ¬Gone s' txid := by
  intro hgone
  rcases htouch with rfl | ⟨i, hi, rfl⟩
  · have hrecord := hgone.transaction
    rw [record?_transaction_observation hs h, TransactionEvent.onTransaction,
      if_pos rfl] at hrecord
    cases hrecord
  · have hcoin := hgone.funded i.previous rfl
    obtain ⟨c, t, heq, -⟩ := TransactionEvent.spent_onCoin_of_spends (e := e)
      ⟨⟨e.txid, i.inputIndex⟩, rfl, i, hi, rfl, rfl⟩ (record? Coin s i.previous)
    rw [record?_coin_observation hs h, heq] at hcoin
    cases hcoin

end

/-! ### Deliveries after a run -/

section

variable {l : Ledger} {reports again : List Report}

theorem heard_serveAll (hs : WellFormed l.store) (reports again : List Report) :
    heard (l.serveAll (reports.map Report.request)).store again = heard l.store again := by
  simp only [heard, Report.wallet?_eq_of_sameRows (sameRows_wallet_serveAll hs reports)]

theorem serveAll_reports_append (reports again : List Report) :
    l.serveAll ((reports ++ again).map Report.request) =
      (l.serveAll (reports.map Report.request)).serveAll (again.map Report.request) := by
  rw [List.map_append, serveAll_append]

theorem heard_subset {s : Store} (h : again ⊆ reports) : heard s again ⊆ heard s reports := by
  intro e he
  obtain ⟨r, hr, hwallet, rfl⟩ := mem_heard.1 he
  exact mem_heard.2 ⟨r, h hr, hwallet, rfl⟩

/-- What is gone stays gone while nothing touches it. -/
theorem Gone.serveAll (hs : WellFormed l.store) {txid : Txid} (hgone : Gone l.store txid)
    (htouch : ∀ e ∈ heard l.store reports, ¬e.Touches txid) :
    Gone (l.serveAll (reports.map Report.request)).store txid :=
  heard_induction hs (P := fun _ s => Gone s txid) hgone fun hheard hwf hbefore hcommit =>
    .of_observation hwf hcommit (htouch _ (hheard.subset (by simp))) (.inr hbefore)

/-- If a transaction is gone after all reports, the last one does not touch it. -/
theorem not_touches_of_gone (hs : WellFormed l.store) {r : Report}
    (hr : (r.wallet? l.store).isSome = true) {txid : Txid}
    (hgone : Gone (l.serveAll ((reports ++ [r]).map Report.request)).store txid) :
    ¬r.event.Touches txid := by
  intro htouch
  have hwf := hs.serveAll_requests reports
  obtain ⟨w, hw⟩ := Option.isSome_iff_exists.1 hr
  obtain ⟨s', hcommit, hserve⟩ := r.serve_request hwf
  rw [Report.batch_eq_of_sameRows (sameRows_wallet_serveAll hs reports), Report.batch, hw] at hcommit
  rw [serveAll_reports_append, List.map_singleton, serveAll_cons, serveAll_nil, hserve] at hgone
  exact not_gone_of_touches hwf hcommit htouch hgone

end

/-! ### What a run leaves of its events -/

/-- A history in which replaced transactions are settled, and do not spend an output after others
that are not replaced. -/
structure Orderly (events : List TransactionEvent) : Prop where
  settled : ∀ txid, Replaced events txid → Settled events txid
  ordered : events.Pairwise fun a b => ∀ i ∈ a.inputs, ∀ j ∈ b.inputs, i.previous = j.previous →
    Replaced events b.txid → Replaced events a.txid

/-- A history in which one transaction at most is replaced. -/
theorem Orderly.of_single {events : List TransactionEvent} {r : Txid}
    (hr : ∀ e ∈ events, ∀ txid ∈ e.effectiveReplaced, txid = r) (hsettled : Settled events r)
    (hordered : events.Pairwise fun a b => ∀ i ∈ a.inputs, ∀ j ∈ b.inputs,
      i.previous = j.previous → Replaced events b.txid → Replaced events a.txid) :
    Orderly events where
  settled := by
    rintro txid ⟨e, he, htxid⟩
    rw [hr e he txid htxid]
    exact hsettled
  ordered := hordered

/-- There is a coin that is spent by a transaction that was not replaced. -/
def SpentInForce (events : List TransactionEvent) (s : Store) (o : Outpoint) : Prop :=
  ∃ c t, record? Coin s o = some c ∧ c.spentBy = some t ∧ ¬Replaced events t.txid

/-- What is left of events: nothing of transactions that were replaced, and of the others the coins
that they made and spent. -/
structure Standing (events : List TransactionEvent) (s : Store) : Prop where
  gone : ∀ txid, Replaced events txid → Gone s txid
  made : ∀ e ∈ events, ¬Replaced events e.txid → ∀ u ∈ e.made,
    (record? Coin s u.outpoint).isSome = true
  spent : ∀ e ∈ events, ¬Replaced events e.txid → ∀ o, (∃ t, e.Spends o t) →
    ¬Replaced events o.txid → SpentInForce events s o

section

variable {events : List TransactionEvent} {s s' : Store} {w : Wallet} {source : TrackedSource}
  {e : TransactionEvent} {o : Outpoint}

theorem SpentInForce.step (h : SpentInForce events s o) (hs : WellFormed s)
    (hcommit : commit s (observation w source e) = .ok s') (he : e ∈ events)
    (ho : ¬Replaced events o.txid) (hspends : (∃ t, e.Spends o t) → ¬Replaced events e.txid) :
    SpentInForce events s' o := by
  obtain ⟨c₀, t₀, hc₀, ht₀, hlive⟩ := h
  obtain ⟨c, t, hc, ht, hor⟩ := TransactionEvent.spent_onCoin (e := e) (o := o)
    (fun hr => ho ⟨e, he, hr⟩) hc₀ ht₀ (fun hr => hlive ⟨e, he, hr⟩)
  refine ⟨c, t, ?_, ht, ?_⟩
  · rw [record?_coin_observation hs hcommit, hc]
  · rcases hor with rfl | hor
    · exact hlive
    · rw [hor.1]
      exact hspends ⟨t, hor⟩

theorem SpentInForce.of_spends (hs : WellFormed s)
    (hcommit : commit s (observation w source e) = .ok s') (hlive : ¬Replaced events e.txid)
    (hspends : ∃ t, e.Spends o t) : SpentInForce events s' o := by
  obtain ⟨c, t, hc, ht, hspends⟩ :=
    TransactionEvent.spent_onCoin_of_spends hspends (record? Coin s o)
  refine ⟨c, t, ?_, ht, hspends.1 ▸ hlive⟩
  rw [record?_coin_observation hs hcommit, hc]

end

/-- What transactions that were not replaced spent is spent after a run. -/
theorem spentInForce_of_reports {l : Ledger} (hs : WellFormed l.store) {reports : List Report}
    (h : Orderly (heard l.store reports)) :
    ∀ e ∈ heard l.store reports, ¬Replaced (heard l.store reports) e.txid → ∀ o,
      (∃ t, e.Spends o t) → ¬Replaced (heard l.store reports) o.txid →
        SpentInForce (heard l.store reports)
          (l.serveAll (reports.map Report.request)).store o := by
  refine heard_induction hs (P := fun events s => ∀ e ∈ events,
    ¬Replaced (heard l.store reports) e.txid → ∀ o, (∃ t, e.Spends o t) →
      ¬Replaced (heard l.store reports) o.txid → SpentInForce (heard l.store reports) s o) ?_ ?_
  · intro e he
    cases he
  · intro events s s' w source e hheard hwf ih hcommit a ha hlive o hspends ho
    have he : e ∈ heard l.store reports := hheard.subset (by simp)
    have hordered := (List.pairwise_append.1 (h.ordered.sublist hheard.sublist)).2.2
    rcases List.mem_append.1 ha with ha | ha
    · refine (ih a ha hlive o hspends ho).step hwf hcommit he ho ?_
      rintro ⟨t', -, j, hj, hjo, -⟩ hreplaced
      obtain ⟨t, -, i, hi, hio, -⟩ := hspends
      exact hlive (hordered a ha e (by simp) i hi j hj (hio.trans hjo.symm) hreplaced)
    · obtain rfl : a = e := by simpa using ha
      exact .of_spends hwf hcommit hlive hspends

theorem standing_of_reports {l : Ledger} (hs : WellFormed l.store) {reports : List Report}
    (h : Orderly (heard l.store reports)) :
    Standing (heard l.store reports) (l.serveAll (reports.map Report.request)).store where
  gone txid hreplaced := gone_of_reports hs (h.settled txid hreplaced) hreplaced
  made := isSome_coin_of_reports hs
  spent := spentInForce_of_reports hs h

/-! ### An event that is delivered again -/

section

variable {events : List TransactionEvent} {s s' : Store} {w : Wallet} {source : TrackedSource}
  {e : TransactionEvent}

/-- An event releases nothing if what it replaces is gone. -/
theorem Standing.release_eq (h : Standing events s) (he : e ∈ events) (o : Outpoint) :
    e.release o (record? Coin s o) = record? Coin s o := by
  rw [TransactionEvent.release]
  cases hr : e.effectiveReplaced with
  | none => rfl
  | some r =>
      have hgone := h.gone r ⟨e, he, hr⟩
      simp only [Operation.onCoin]
      by_cases ho : o.txid = r
      · rw [if_pos ho, hgone.funded o ho]
      · rw [if_neg ho]
        cases hc : record? Coin s o with
        | none => rfl
        | some c =>
            rw [Option.map_some, Coin.released_eq_self fun t ht => hgone.spent o c t hc ht]

/-- A coin that the event does not spend stays as it is. -/
theorem Standing.onCoin_eq (h : Standing events s) (he : e ∈ events)
    (hlive : ¬Replaced events e.txid) {o : Outpoint} (ho : ¬∃ t, e.Spends o t) :
    e.onCoin o (record? Coin s o) = record? Coin s o := by
  have hmake : e.make o (record? Coin s o) = record? Coin s o := by
    rcases e.make_cases (o := o) (record? Coin s o) with ⟨heq, -⟩ | ⟨hnone, c, -, -, hmade, hc⟩
    · exact heq
    · have hsome : (record? Coin s c.outpoint).isSome = true := h.made e he hlive _ hmade
      rw [hc, hnone] at hsome
      cases hsome
  rw [TransactionEvent.onCoin, h.release_eq he, hmake]
  exact TransactionEvent.spend_eq_of_ne
    (fun u hu huo => ho (TransactionEvent.exists_spends_iff.2 ⟨u, hu, huo⟩)) _

/-- An event of the run that touches nothing replaced keeps what the run left, and leaves the
unspent coins as they are. -/
theorem Standing.step (h : Standing events s) (hs : WellFormed s)
    (hcommit : commit s (observation w source e) = .ok s') (he : e ∈ events)
    (htouch : ∀ txid, Replaced events txid → ¬e.Touches txid) :
    Standing events s' ∧ ∀ o c, c.spentBy = none →
      (record? Coin s' o = some c ↔ record? Coin s o = some c) := by
  have hlive : ¬Replaced events e.txid := fun hr => htouch _ hr (.inl rfl)
  have hrooted : ∀ o, (∃ t, e.Spends o t) → ¬Replaced events o.txid := by
    rintro o ⟨t, -, i, hi, rfl, -⟩ hr
    exact htouch _ hr (.inr ⟨i, hi, rfl⟩)
  have hspent : ∀ a ∈ events, ¬Replaced events a.txid → ∀ o, (∃ t, a.Spends o t) →
      ¬Replaced events o.txid → SpentInForce events s' o := fun a ha halive o hspends ho =>
    (h.spent a ha halive o hspends ho).step hs hcommit he ho fun _ => hlive
  refine ⟨⟨?_, ?_, hspent⟩, ?_⟩
  · intro txid hr
    exact .of_observation hs hcommit (htouch txid hr) (.inr (h.gone txid hr))
  · intro a ha halive u hu
    rw [record?_coin_observation hs hcommit]
    refine TransactionEvent.isSome_onCoin ?_ (h.made a ha halive u hu)
    rw [TransactionEvent.txid_of_mem_made hu]
    exact fun hr => halive ⟨e, he, hr⟩
  · intro o c hc
    by_cases ho : ∃ t, e.Spends o t
    · -- the coin is spent before and after the event
      have hno : ∀ {s : Store}, SpentInForce events s o → record? Coin s o ≠ some c := by
        rintro s ⟨c', t, hc', ht, -⟩ heq
        obtain rfl : c' = c := Option.some.inj (hc'.symm.trans heq)
        rw [hc] at ht
        cases ht
      exact iff_of_false (hno (hspent e he hlive o ho (hrooted o ho)))
        (hno (h.spent e he hlive o ho (hrooted o ho)))
    · rw [record?_coin_observation hs hcommit, h.onCoin_eq he hlive ho]

end

/-! ### Scripts of wallets -/

namespace Operation

variable {k : WalletScriptKey} {op : Operation}

/-- An operation that adds no script supplies no path. -/
theorem suppliedPath_of_onWalletScript_none (h : op.onWalletScript k none = none) :
    op.suppliedPath k = none := by
  cases op with
  | mergeWalletScript w =>
      rw [onWalletScript] at h
      split at h
      · cases h
      · rename_i hk
        exact if_neg hk
  | _ => rfl

/-- An operation that was carried out changes nothing when it is carried out again. -/
theorem onWalletScript_idem (found : Option WalletScript) :
    op.onWalletScript k (op.onWalletScript k found) = op.onWalletScript k found := by
  cases op with
  | insertWalletScript w =>
      simp only [onWalletScript]
      split
      · cases found <;> rfl
      · rfl
  | mergeWalletScript w =>
      simp only [onWalletScript]
      split
      · cases found <;> simp [WalletScript.fill, Option.or_assoc]
      · rfl
  | _ => rfl

/-- An operation that changes nothing changes nothing later. -/
theorem onWalletScript_stable {found : Option WalletScript} (h : op.onWalletScript k found = found)
    (op' : Operation) :
    op.onWalletScript k (op'.onWalletScript k found) = op'.onWalletScript k found := by
  cases found with
  | none =>
      cases hadded : op'.onWalletScript k none with
      | none => exact h
      | some known =>
          rw [onWalletScript_some, suppliedPath_of_onWalletScript_none h, Option.or_none]
  | some known =>
      rw [onWalletScript_some] at h
      have hpath := congrArg WalletScript.derivationPath (Option.some.inj h)
      simp only [onWalletScript_some, Option.some.injEq, WalletScript.mk.injEq, true_and]
      simp only at hpath
      cases hknown : known.derivationPath with
      | none =>
          rw [hknown, Option.none_or] at hpath
          rw [hpath, Option.or_none]
      | some path => rfl

end Operation

/-- Operations on the scripts of wallets that were carried out may be carried out again. -/
theorem onAll_walletScript_of_subset {k : WalletScriptKey} {batch more : Batch}
    (h : more ⊆ batch) (found : Option WalletScript) :
    Pointwise.onAll k more (Pointwise.onAll k batch found) = Pointwise.onAll k batch found := by
  have hlater : ∀ (op : Operation) (rest : Batch) (found : Option WalletScript),
      op.onWalletScript k found = found →
        op.onWalletScript k (Pointwise.onAll k rest found) = Pointwise.onAll k rest found := by
    intro op rest
    induction rest with
    | nil => exact fun _ h => h
    | cons op' rest ih => exact fun found h => ih _ (Operation.onWalletScript_stable h op')
  have hagain : ∀ (batch : Batch) (found : Option WalletScript), ∀ op ∈ batch,
      op.onWalletScript k (Pointwise.onAll k batch found) = Pointwise.onAll k batch found := by
    intro batch
    induction batch with
    | nil => exact fun _ _ hop => absurd hop List.not_mem_nil
    | cons op' batch ih =>
        intro found op hop
        rcases List.mem_cons.1 hop with rfl | hop
        · exact hlater op batch _ (Operation.onWalletScript_idem found)
        · exact ih _ op hop
  induction more with
  | nil => rfl
  | cons op more ih =>
      obtain ⟨hop, hmore⟩ := List.cons_subset.1 h
      exact (congrArg _ (hagain batch found op hop)).trans (ih hmore)

/-- Reports that are served again leave the scripts of wallets as they are. -/
theorem record?_walletScript_of_subset {l : Ledger} (hs : WellFormed l.store)
    {reports again : List Report} (hagain : again ⊆ reports) (k : WalletScriptKey) :
    record? WalletScript (l.serveAll ((reports ++ again).map Report.request)).store k =
      record? WalletScript (l.serveAll (reports.map Report.request)).store k := by
  have hsub : again.flatMap (Report.batch l.store) ⊆ reports.flatMap (Report.batch l.store) := by
    intro op hop
    obtain ⟨r, hr, hop⟩ := List.mem_flatMap.1 hop
    exact List.mem_flatMap.2 ⟨r, hagain hr, hop⟩
  rw [record?_serveAll hs, record?_serveAll hs, List.flatMap_append, Pointwise.onAll_append,
    onAll_walletScript_of_subset hsub]

/-! ### Coins that are offered -/

/-- Sorted lists of records with the same members are the same. -/
theorem eq_of_mem_iff_of_sorted {α κ : Type} [Entity α κ] {as bs : List α}
    (ha : as.Pairwise fun a b => rowKey α (Entity.key a) < rowKey α (Entity.key b))
    (hb : bs.Pairwise fun a b => rowKey α (Entity.key a) < rowKey α (Entity.key b))
    (h : ∀ a, a ∈ as ↔ a ∈ bs) : as = bs := by
  let keyed : α → Bytes × α := fun a => (rowKey α (Entity.key a), a)
  have hkeyed : as.map keyed = bs.map keyed := by
    refine ByteMap.rows_ext (List.pairwise_map.2 ha) (List.pairwise_map.2 hb) fun row => ?_
    simp only [List.mem_map, h]
  have hmap : ∀ xs : List α, (xs.map keyed).map Prod.snd = xs := fun xs => by
    rw [List.map_map]
    exact List.map_id xs
  rw [← hmap as, hkeyed, hmap]

/-- The coins that are offered of a wallet depend only on the unspent coins and on the scripts of
wallets. -/
theorem offers_eq {s s' : Store} (hs : WellFormed s) (hs' : WellFormed s')
    (hscripts : ∀ k, record? WalletScript s' k = record? WalletScript s k)
    (hcoins : ∀ o c, c.spentBy = none → (record? Coin s' o = some c ↔ record? Coin s o = some c))
    (walletId : String) :
    unspentCoins s' walletId = unspentCoins s walletId ∧
      spendableGroups s' walletId = spendableGroups s walletId := by
  have hunspent : (recordsFrom Coin s' (RowRange.kind .coin).start).filter (fun c => !c.isSpent) =
      (recordsFrom Coin s (RowRange.kind .coin).start).filter fun c => !c.isSpent := by
    refine eq_of_mem_iff_of_sorted ((hs'.sound.recordsFrom_sorted rfl).filter _)
      ((hs.sound.recordsFrom_sorted rfl).filter _) fun c => ?_
    simp only [List.mem_filter, hs'.sound.mem_coins, hs.sound.mem_coins]
    refine and_congr_left fun hc => hcoins c.outpoint c ?_
    simpa [Coin.isSpent] using hc
  have hread : walletScripts s' walletId = walletScripts s walletId := by
    have hscan' : walletScripts s' walletId = .ok _ := hs'.sound.scanEntities rfl
    have hscan : walletScripts s walletId = .ok _ := hs.sound.scanEntities rfl
    rw [hscan', hscan]
    refine congrArg Except.ok (eq_of_mem_iff_of_sorted (hs'.sound.recordsFrom_sorted rfl)
      (hs.sound.recordsFrom_sorted rfl) fun w => ?_)
    rw [hs'.sound.mem_recordsFrom rfl, hs.sound.mem_recordsFrom rfl, hscripts]
  constructor
  · -- the filter by scripts comes after the filter of unspent coins
    have hsplit : ∀ {t : Store}, WellFormed t → unspentCoins t walletId = do
        let scripts ← walletScripts t walletId
        return ((recordsFrom Coin t (RowRange.kind .coin).start).filter fun c => !c.isSpent).filter
          fun c => (scripts.map (·.script)).contains c.script := by
      intro t ht
      rw [unspentCoins, ht.sound.allCoins]
      simp only [List.filter_filter, Bool.and_comm]
      rfl
    rw [hsplit hs', hsplit hs, hread, hunspent]
  · unfold spendableGroups
    rw [hs'.sound.allCoins, hs.sound.allCoins, hread]
    simp only [bind, Except.bind, hunspent]

/-! ### The results -/

/-- Events of a run that are delivered again, and touch nothing replaced, leave the unspent coins as
they are. -/
theorem record?_coin_of_redelivery {l : Ledger} (hs : WellFormed l.store)
    {reports again : List Report} (hagain : again ⊆ reports) (h : Orderly (heard l.store reports))
    (htouch : ∀ e ∈ heard l.store again, ∀ txid, Replaced (heard l.store reports) txid →
      ¬e.Touches txid) {c : Coin} (hc : c.spentBy = none) (o : Outpoint) :
    record? Coin (l.serveAll ((reports ++ again).map Report.request)).store o = some c ↔
      record? Coin (l.serveAll (reports.map Report.request)).store o = some c := by
  have hwf := hs.serveAll_requests reports
  have hall : Standing (heard l.store reports)
        ((l.serveAll (reports.map Report.request)).serveAll (again.map Report.request)).store ∧
      ∀ o c, c.spentBy = none →
        (record? Coin ((l.serveAll (reports.map Report.request)).serveAll
            (again.map Report.request)).store o = some c ↔
          record? Coin (l.serveAll (reports.map Report.request)).store o = some c) := by
    refine heard_induction hwf (P := fun _ s => Standing (heard l.store reports) s ∧
      ∀ o c, c.spentBy = none → (record? Coin s o = some c ↔
        record? Coin (l.serveAll (reports.map Report.request)).store o = some c))
      ⟨standing_of_reports hs h, fun _ _ _ => Iff.rfl⟩ ?_
    rintro events s s' w source e hheard hs₁ ⟨hstanding, hsame⟩ hcommit
    have he : e ∈ heard l.store again := by
      rw [← heard_serveAll hs reports again]
      exact hheard.subset (by simp)
    obtain ⟨hstanding', hstep⟩ :=
      hstanding.step hs₁ hcommit (heard_subset hagain he) (htouch e he)
    exact ⟨hstanding', fun o c hc => (hstep o c hc).trans (hsame o c hc)⟩
  rw [serveAll_reports_append]
  exact hall.2 o c hc

/-- **A replacement is final as long as nothing brings the replaced transaction back.**  After a run,
some of its reports are served again.  A transaction that was replaced, and not touched from then
on, stays gone if and only if no event touches it that is delivered again.  If the run was orderly,
and no event touches any replaced transaction that is delivered again, then the coins that are
offered stay the same, too. -/
theorem gone_of_redelivery {l : Ledger} (hs : WellFormed l.store) {reports again : List Report}
    (hagain : again ⊆ reports) :
    (∀ txid, Replaced (heard l.store reports) txid → Settled (heard l.store reports) txid →
      ((∀ served, served <+: again →
          Gone (l.serveAll ((reports ++ served).map Report.request)).store txid) ↔
        ∀ e ∈ heard l.store again, ¬e.Touches txid)) ∧
    (Orderly (heard l.store reports) →
      (∀ e ∈ heard l.store again, ∀ txid, Replaced (heard l.store reports) txid →
        ¬e.Touches txid) →
      ∀ walletId, ∃ unspent groups,
        unspentCoins (l.serveAll (reports.map Report.request)).store walletId = .ok unspent ∧
        unspentCoins (l.serveAll ((reports ++ again).map Report.request)).store walletId =
          .ok unspent ∧
        spendableGroups (l.serveAll (reports.map Report.request)).store walletId = .ok groups ∧
        spendableGroups (l.serveAll ((reports ++ again).map Report.request)).store walletId =
          .ok groups) := by
  have hwf := hs.serveAll_requests reports
  refine ⟨fun txid hreplaced hsettled => ⟨?_, ?_⟩, ?_⟩
  · intro hgone e he
    obtain ⟨r, hr, hwallet, rfl⟩ := mem_heard.1 he
    obtain ⟨served, rest, rfl⟩ := List.append_of_mem hr
    have hlast := hgone (served ++ [r]) ⟨rest, by simp⟩
    rw [← List.append_assoc] at hlast
    exact not_touches_of_gone hs hwallet hlast
  · rintro htouch served ⟨rest, rfl⟩
    rw [serveAll_reports_append]
    refine (gone_of_reports hs hsettled hreplaced).serveAll hwf fun e he => ?_
    rw [heard_serveAll hs] at he
    exact htouch e (heard_subset (List.subset_append_left _ _) he)
  · intro horderly htouch walletId
    obtain ⟨hunspent, hgroups⟩ := offers_eq hwf (hs.serveAll_requests (reports ++ again))
      (record?_walletScript_of_subset hs hagain)
      (fun o c hc => record?_coin_of_redelivery hs hagain horderly htouch hc o) walletId
    have hscripts : walletScripts (l.serveAll (reports.map Report.request)).store walletId =
        .ok _ := hwf.sound.scanEntities rfl
    obtain ⟨unspent, hlisted, -⟩ := exists_unspentCoins_eq_ok hwf.sound hscripts
    obtain ⟨groups, hgrouped⟩ := exists_spendableGroups_eq_ok hwf walletId
    exact ⟨unspent, groups, hlisted, hunspent.trans hlisted, hgrouped, hgroups.trans hgrouped⟩

/-- An output is spent, and spent by another transaction that replaces the first one. -/
def respentReports : List Report :=
  [aliasReport 1 1000 none none, aliasReport 2 900 (some 1) none, aliasReport 3 800 (some 1) (some 2)]

/-- The transactions that were not replaced are delivered again, in another order. -/
theorem gone_of_redelivery_respent :
    ∃ again, again = [aliasReport 3 800 (some 1) (some 2), aliasReport 1 1000 none none] ∧
      Gone (aliasLedger.serveAll ((respentReports ++ again).map Report.request)).store
        (repeatedTxid 2) ∧
      ∀ walletId, unspentCoins (aliasLedger.serveAll ((respentReports ++ again).map
          Report.request)).store walletId =
        unspentCoins (aliasLedger.serveAll (respentReports.map Report.request)).store walletId := by
  have hagain : [aliasReport 3 800 (some 1) (some 2), aliasReport 1 1000 none none] ⊆
      respentReports := by simp [respentReports]
  obtain ⟨hgone, hoffered⟩ := gone_of_redelivery reachable_aliasLedger.wellFormed hagain
  rw [heard_aliasLedger (by simp [respentReports]), heard_aliasLedger (by simp)] at hgone hoffered
  have hreplaced : ∀ e ∈ respentReports.map Report.event, ∀ txid ∈ e.effectiveReplaced,
      txid = repeatedTxid 2 := by decide
  have hsettled : Settled (respentReports.map Report.event) (repeatedTxid 2) :=
    ⟨by decide, by decide⟩
  refine ⟨_, rfl, ?_, fun walletId => ?_⟩
  · exact (hgone (repeatedTxid 2) (by decide) hsettled).2 (by decide) _ (List.prefix_refl _)
  · have htouch : ∀ e ∈ [aliasReport 3 800 (some 1) (some 2), aliasReport 1 1000 none none].map
        Report.event, ∀ txid, Replaced (respentReports.map Report.event) txid →
          ¬e.Touches txid := by
      rintro e he txid ⟨a, ha, hr⟩
      obtain rfl := hreplaced a ha txid hr
      revert e
      decide
    obtain ⟨unspent, -, hbefore, hafter, -⟩ :=
      hoffered (.of_single hreplaced hsettled (by decide)) htouch walletId
    rw [hbefore, hafter]

/-- A payment is replaced by another one. -/
def replacedReports : List Report :=
  [aliasReport 1 1000 none none, aliasReport 2 900 none (some 1)]

/-- The event of the replaced payment is delivered again: the payment has its record back, and its
coin is offered. -/
theorem restored_of_redelivery :
    ∃ again ⊆ replacedReports, Replaced (heard aliasLedger.store replacedReports) (repeatedTxid 1) ∧
      Orderly (heard aliasLedger.store replacedReports) ∧
      Gone (aliasLedger.serveAll (replacedReports.map Report.request)).store (repeatedTxid 1) ∧
      ¬Gone (aliasLedger.serveAll ((replacedReports ++ again).map Report.request)).store
        (repeatedTxid 1) ∧
      Offered (aliasLedger.serveAll ((replacedReports ++ again).map Report.request)).store
        ⟨⟨repeatedTxid 1, 0⟩, aliasScript, 1000, none⟩ := by
  have hwf := reachable_aliasLedger.wellFormed
  have hheard : heard aliasLedger.store replacedReports = replacedReports.map Report.event :=
    heard_aliasLedger (by simp [replacedReports])
  have hreplaced : Replaced (heard aliasLedger.store replacedReports) (repeatedTxid 1) := by
    rw [hheard]
    decide
  have horderly : Orderly (heard aliasLedger.store replacedReports) := by
    rw [hheard]
    exact .of_single (r := repeatedTxid 1) (by decide) ⟨by decide, by decide⟩ (by decide)
  refine ⟨[aliasReport 1 1000 none none], by simp [replacedReports], hreplaced, horderly,
    gone_of_reports hwf (horderly.settled _ hreplaced) hreplaced, ?_,
    offered_aliasLedger (by simp) (by decide) rfl rfl⟩
  intro hgone
  exact not_touches_of_gone hwf ((isAliasReport_aliasReport ..).isSome_wallet?) hgone (.inl rfl)

end CoinLedger
