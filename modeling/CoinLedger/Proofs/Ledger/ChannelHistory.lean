import CoinLedger.Proofs.Ledger.SpendableData

/-! # The life of a channel

A channel is kept by `upsertChannel`, data are attached to it by `attachSpendableData`, and it is
closed by an event that replaces the transaction of its funding coin, while this coin is stored
(`Request.Closes`).  If a request does not close a channel, what becomes of it is a function of the
request, the channel and the funding coin (`Request.onChannel`).  `LifeStep` is what comes of this for
one request.

Along a run a channel stays until it is closed, and what is attached to it with it
(`exists_channel_serveAll`); its data are those that it was kept with last
(`lastKept?_of_record?`). -/

namespace CoinLedger

open Ledger

namespace Ledger

/-- The request records an event that replaces the transaction of this output, and the coin that the
output is, is stored. -/
def Request.Closes (l : Ledger) (o : Outpoint) : Request → Prop
  | observe name _ e => (∃ w, findWallet l.store name = .ok (some w)) ∧
      e.effectiveReplaced = some o.txid ∧ (record? Coin l.store o).isSome = true
  | _ => False

/-- The data that the request keeps the channel with this key with. -/
def Request.keptData? (k : ChannelKey) : Request → Option Bytes
  | upsertChannel walletId funding data => if ⟨walletId, funding⟩ = k then some data else none
  | _ => none

/-- What a request that does not close the channel with this key makes of it. -/
def Request.onChannel (l : Ledger) (k : ChannelKey) : Request → Option Channel → Option Channel
  | upsertChannel walletId funding data, found =>
      if ⟨walletId, funding⟩ = k then
        some ⟨walletId, funding, data, found.bind Channel.spendableData⟩
      else found
  | attachSpendableData walletId outputs, found => found.map fun c =>
      if k.walletId = walletId then c.collect outputs (record? Coin l.store k.funding) else c
  | _, found => found

/-- The request keeps a channel with another key, or attaches data to channels of another wallet. -/
def Request.IsForOther (k : ChannelKey) : Request → Prop
  | upsertChannel walletId funding _ => (⟨walletId, funding⟩ : ChannelKey) ≠ k
  | attachSpendableData walletId _ => walletId ≠ k.walletId
  | _ => False

variable {l : Ledger} {r : Request} {k : ChannelKey}

/-! ### One request -/

theorem record?_serve_of_closes (hs : WellFormed l.store) (h : r.Closes l k.funding) :
    record? Channel (l.serve r).store k = none := by
  cases r with
  | observe name source e =>
      obtain ⟨⟨w, hw⟩, hcloses⟩ := h
      obtain ⟨s', hcommit, hrun⟩ := exists_run_observe_of_findWallet hs hw source e
      have hstore : (l.serve (.observe name source e)).store = s' := by
        rw [serve, Request.action, hrun]
      rw [hstore, record?_channel_observation hs hcommit, if_pos hcloses]
  | _ => cases h

theorem record?_serve_observe (hs : WellFormed l.store) {name : String} {source : TrackedSource}
    {e : TransactionEvent} (h : ¬(Request.observe name source e).Closes l k.funding) :
    record? Channel (l.serve (.observe name source e)).store k = record? Channel l.store k := by
  rcases serve_ok hs.sound (.observe name source e) with hstore | ⟨batch, hbatch, hcommit⟩
  · rw [hstore]
  · obtain ⟨found, hfound, hbatch⟩ := bind_ok hbatch
    cases found with
    | none => cases hbatch
    | some w =>
        obtain rfl : observation w source e = batch := Except.ok.inj hbatch
        rw [record?_channel_observation hs hcommit, if_neg]
        exact fun hcloses => h ⟨⟨w, hfound⟩, hcloses⟩

theorem record?_serve_attachSpendableData (hs : WellFormed l.store) (hplain : PlainOwners l.store)
    {walletId : String} (hid : 0 ∉ Bytes.utf8 walletId) (outputs : List SpendableOutput)
    (k : ChannelKey) :
    record? Channel (l.serve (.attachSpendableData walletId outputs)).store k =
      (record? Channel l.store k).map fun c =>
        if k.walletId = walletId then c.collect outputs (record? Coin l.store k.funding) else c := by
  obtain ⟨s', hcommit, hrun⟩ := exists_run_attachSpendableData hs walletId outputs
  have hstore : (l.serve (.attachSpendableData walletId outputs)).store = s' := by
    rw [serve, Request.action, hrun]
  rw [hstore]
  exact (Collected.of_commit hs hplain hid hcommit).channel k

/-- What becomes of a channel that is not closed. -/
theorem record?_serve_of_not_closes (hs : WellFormed l.store) (hplain : PlainOwners l.store)
    (hr : r.PlainOwner) (h : ¬r.Closes l k.funding) :
    record? Channel (l.serve r).store k = r.onChannel l k (record? Channel l.store k) := by
  cases r with
  | observe name source e => exact record?_serve_observe hs h
  | upsertChannel walletId funding data => exact record?_serve_upsertChannel hs walletId funding data k
  | attachSpendableData walletId outputs =>
      exact record?_serve_attachSpendableData hs hplain hr outputs k
  | _ => exact (sameRows_serve hs.sound (by simp [Request.writes])).record?_eq (α := Channel) k

namespace Request

variable {found : Option Channel} {c c' : Channel}

theorem isSome_onChannel (h : found.isSome = true) : (r.onChannel l k found).isSome = true := by
  cases r with
  | upsertChannel _ _ _ => rw [onChannel]; split <;> simp [h]
  | attachSpendableData _ _ => rwa [onChannel, Option.isSome_map]
  | _ => exact h

/-- A channel that was not there appears if it is kept. -/
theorem isSome_onChannel_none : (r.onChannel l k none).isSome = (r.keptData? k).isSome := by
  cases r with
  | upsertChannel _ _ _ => rw [onChannel, keptData?]; split <;> rfl
  | _ => rfl

/-- The data of a channel are those that it is kept with now, or those that it had. -/
theorem data_onChannel (h : r.onChannel l k found = some c) :
    (r.keptData? k).or (found.map Channel.data) = some c.data := by
  cases r with
  | upsertChannel walletId funding data =>
      rw [onChannel] at h
      rw [keptData?]
      split at h
      · rename_i hkey
        rw [if_pos hkey, ← Option.some.inj h, Option.some_or]
      · rename_i hkey
        rw [if_neg hkey, h, Option.none_or, Option.map_some]
  | attachSpendableData walletId outputs =>
      obtain ⟨known, rfl, rfl⟩ := Option.map_eq_some_iff.1 h
      split <;> rfl
  | _ =>
      obtain rfl : found = some c := h
      rfl

/-- Outputs that are recorded for the wallet may change what is attached to a channel, but do not
take it away, and nothing else changes it. -/
theorem spendableData_onChannel (h : r.onChannel l k (some c) = some c') :
    (∃ outputs coin, r = .attachSpendableData k.walletId outputs ∧
        c'.spendableData = (SpendableOutput.attachedData outputs coin).or c.spendableData) ∨
      c'.spendableData = c.spendableData := by
  cases r with
  | upsertChannel walletId funding data =>
      rw [onChannel] at h
      split at h <;> exact .inr (congrArg Channel.spendableData (Option.some.inj h)).symm
  | attachSpendableData walletId outputs =>
      obtain rfl := Option.some.inj h
      by_cases howner : k.walletId = walletId
      · subst howner
        exact .inl ⟨outputs, record? Coin l.store k.funding, rfl, by simp [Channel.collect]⟩
      · exact .inr (by simp [howner])
  | _ => exact .inr (congrArg Channel.spendableData (Option.some.inj h)).symm

theorem onChannel_of_isForOther (h : r.IsForOther k) : r.onChannel l k found = found := by
  cases r with
  | upsertChannel walletId funding data => exact if_neg h
  | attachSpendableData walletId outputs =>
      have howner : k.walletId ≠ walletId := Ne.symm h
      simp [onChannel, howner]
  | _ => cases h

theorem keptData?_of_closes (h : r.Closes l k.funding) : r.keptData? k = none := by
  cases r with
  | upsertChannel _ _ _ => cases h
  | _ => rfl

theorem not_closes_of_isForOther (h : r.IsForOther k) : ¬r.Closes l k.funding := by
  cases r with
  | upsertChannel _ _ _ | attachSpendableData _ _ => exact id
  | _ => cases h

end Request

/-- What one request does to the channel with a key. -/
structure LifeStep (l : Ledger) (r : Request) (k : ChannelKey) : Prop where
  /-- A channel that is not there appears just when the request keeps it. -/
  appears : record? Channel l.store k = none →
    (record? Channel (l.serve r).store k).isSome = (r.keptData? k).isSome
  /-- A channel that is there goes just when the request closes it, -/
  gone_iff : (record? Channel l.store k).isSome = true →
    (record? Channel (l.serve r).store k = none ↔ r.Closes l k.funding)
  /-- and then all wallets lose their channels on this funding output. -/
  closed : r.Closes l k.funding →
    ∀ walletId, record? Channel (l.serve r).store ⟨walletId, k.funding⟩ = none
  /-- The data of a channel change when it is kept again, and become what it is kept with. -/
  data : ∀ c, record? Channel (l.serve r).store k = some c →
    (r.keptData? k).or ((record? Channel l.store k).map Channel.data) = some c.data
  /-- What is attached to a channel stays attached or gives way to something else, -/
  attached : ∀ c c', record? Channel l.store k = some c →
    record? Channel (l.serve r).store k = some c' →
    c.spendableData.isSome = true → c'.spendableData.isSome = true
  /-- and changes when outputs are recorded for the wallet. -/
  spendableData : ∀ c c', record? Channel l.store k = some c →
    record? Channel (l.serve r).store k = some c' → c'.spendableData ≠ c.spendableData →
    ∃ outputs, r = .attachSpendableData k.walletId outputs
  /-- What is asked for other channels or for other wallets makes no difference. -/
  other : r.IsForOther k → record? Channel (l.serve r).store k = record? Channel l.store k

theorem LifeStep.of_closes (hs : WellFormed l.store) (h : r.Closes l k.funding) :
    LifeStep l r k := by
  have hgone : ∀ walletId, record? Channel (l.serve r).store ⟨walletId, k.funding⟩ = none :=
    fun walletId => record?_serve_of_closes (k := ⟨walletId, k.funding⟩) hs h
  have hnone : record? Channel (l.serve r).store k = none := hgone k.walletId
  constructor
  case appears =>
    intro _
    rw [hnone, Request.keptData?_of_closes h]
    rfl
  case gone_iff => exact fun _ => iff_of_true hnone h
  case closed => exact fun _ => hgone
  case data => simp [hnone]
  case attached => simp [hnone]
  case spendableData => simp [hnone]
  case other => exact fun hother => absurd h (Request.not_closes_of_isForOther hother)

theorem LifeStep.of_not_closes (hs : WellFormed l.store) (hplain : PlainOwners l.store)
    (hr : r.PlainOwner) (h : ¬r.Closes l k.funding) : LifeStep l r k := by
  have hstep := record?_serve_of_not_closes hs hplain hr h
  constructor
  case appears =>
    intro hnone
    rw [hstep, hnone, Request.isSome_onChannel_none]
  case gone_iff =>
    intro hsome
    have hstays : (record? Channel (l.serve r).store k).isSome = true :=
      hstep ▸ Request.isSome_onChannel hsome
    exact iff_of_false (Option.isSome_iff_ne_none.1 hstays) h
  case closed => exact fun hcloses => absurd hcloses h
  case data => exact fun c hc => Request.data_onChannel (hstep ▸ hc)
  case attached =>
    intro c c' hc hc' hsome
    rw [hstep, hc] at hc'
    rcases Request.spendableData_onChannel hc' with ⟨outputs, coin, -, heq⟩ | heq
    · rw [heq, Option.isSome_or, hsome, Bool.or_true]
    · rw [heq, hsome]
  case spendableData =>
    intro c c' hc hc' hne
    rw [hstep, hc] at hc'
    rcases Request.spendableData_onChannel hc' with ⟨outputs, coin, heq, -⟩ | heq
    · exact ⟨outputs, heq⟩
    · exact absurd heq hne
  case other => exact fun hother => hstep.trans (Request.onChannel_of_isForOther hother)

theorem lifeStep (hs : WellFormed l.store) (hplain : PlainOwners l.store) (hr : r.PlainOwner)
    (k : ChannelKey) : LifeStep l r k := by
  by_cases hcloses : r.Closes l k.funding
  · exact .of_closes hs hcloses
  · exact .of_not_closes hs hplain hr hcloses

/-! ### Runs -/

/-- The data that requests keep the channel with this key with last. -/
def lastKept? (k : ChannelKey) (requests : List Request) : Option Bytes :=
  (requests.filterMap (Request.keptData? k)).getLast?

theorem lastKept?_append_singleton (k : ChannelKey) (requests : List Request) (r : Request) :
    lastKept? k (requests ++ [r]) = (r.keptData? k).or (lastKept? k requests) := by
  rw [lastKept?, List.filterMap_append, List.getLast?_append]
  cases hr : r.keptData? k <;> simp [hr, lastKept?]

/-- None of the requests, when it is its turn, closes the channels on this funding output. -/
def StaysOpen (o : Outpoint) : Ledger → List Request → Prop
  | _, [] => True
  | l, r :: requests => ¬r.Closes l o ∧ StaysOpen o (l.serve r) requests

theorem lastKept?_of_record? (hl : Reachable l) (hplain : PlainOwners l.store)
    (hempty : record? Channel l.store k = none) {requests : List Request}
    (h : ∀ r ∈ requests, r.PlainOwner) {c : Channel}
    (hc : record? Channel (l.serveAll requests).store k = some c) :
    lastKept? k requests = some c.data := by
  induction requests using List.reverseRecOn generalizing c with
  | nil =>
      rw [serveAll_nil, hempty] at hc
      cases hc
  | append_singleton requests r ih =>
      obtain ⟨hrequests, hr⟩ := List.forall_mem_append.1 h
      have hl' := hl.serveAll requests
      have hstep := lifeStep hl'.wellFormed (hplain.serveAll hl hrequests)
        (hr r List.mem_cons_self) k
      rw [serveAll_append] at hc
      rw [lastKept?_append_singleton, ← hstep.data c hc]
      cases hkept : r.keptData? k with
      | some data => rfl
      | none =>
          have hdata := hstep.data c hc
          rw [hkept, Option.none_or] at hdata
          obtain ⟨known, hknown, -⟩ := Option.map_eq_some_iff.1 hdata
          rw [Option.none_or, Option.none_or, ih hrequests hknown, hknown, Option.map_some]

/-- A channel stays until it is closed, and what is attached to it stays attached. -/
theorem exists_channel_serveAll (hl : Reachable l) (hplain : PlainOwners l.store)
    {requests : List Request} (h : ∀ r ∈ requests, r.PlainOwner)
    (hopen : StaysOpen k.funding l requests) {c : Channel}
    (hc : record? Channel l.store k = some c) :
    ∃ c', record? Channel (l.serveAll requests).store k = some c' ∧
      (c.spendableData.isSome = true → c'.spendableData.isSome = true) ∧
      ((∀ outputs, .attachSpendableData k.walletId outputs ∉ requests) →
        c'.spendableData = c.spendableData) := by
  induction requests generalizing l c with
  | nil => exact ⟨c, hc, id, fun _ => rfl⟩
  | cons r requests ih =>
      obtain ⟨hr, hrequests⟩ := List.forall_mem_cons.1 h
      obtain ⟨hnot, hopen⟩ := hopen
      have hstep := lifeStep hl.wellFormed hplain hr k
      have hstays : record? Channel (l.serve r).store k ≠ none := fun hnone =>
        hnot ((hstep.gone_iff (by rw [hc]; rfl)).1 hnone)
      obtain ⟨c₁, hc₁⟩ := Option.ne_none_iff_exists'.1 hstays
      obtain ⟨c', hc', hattached, hsame⟩ :=
        ih (hl.served r) (hplain.serve hl hr) hrequests hopen hc₁
      refine ⟨c', hc', fun hsome => hattached (hstep.attached c c₁ hc hc₁ hsome), fun hnone => ?_⟩
      rw [hsame fun outputs hmem => hnone outputs (List.mem_cons_of_mem r hmem)]
      by_contra hne
      obtain ⟨outputs, rfl⟩ := hstep.spendableData c c₁ hc hc₁ hne
      exact hnone outputs List.mem_cons_self

/-- **The life of a channel.**  Along every run of requests that name plain wallets for channels, the
data of a channel that is there are those that it was kept with last.  Each request does to the
channel what `LifeStep` says: the channel goes just when an event replaces the transaction of the
funding coin while the coin is stored, and with it go the channels of all wallets on this output;
what is attached to it changes when outputs are recorded for its wallet, and is never lost; and what
is asked for other channels leaves it as it is.  So a channel stays until it is closed, with
something attached to it once there is something, and with the same data attached until outputs are
recorded for the wallet. -/
theorem channel_lifeCycle (network : Network) (chain : Option ChainTable)
    {requests : List Request} (h : ∀ r ∈ requests, r.PlainOwner) (k : ChannelKey) :
    (∀ c, record? Channel ((Ledger.ofStore .empty network chain).serveAll requests).store k = some c →
      lastKept? k requests = some c.data) ∧
    (∀ before r rest, requests = before ++ r :: rest →
      LifeStep ((Ledger.ofStore .empty network chain).serveAll before) r k) ∧
    ∀ before rest, requests = before ++ rest →
      StaysOpen k.funding ((Ledger.ofStore .empty network chain).serveAll before) rest → ∀ c,
      record? Channel ((Ledger.ofStore .empty network chain).serveAll before).store k = some c →
        ∃ c', record? Channel
            ((Ledger.ofStore .empty network chain).serveAll requests).store k = some c' ∧
          (c.spendableData.isSome = true → c'.spendableData.isSome = true) ∧
          ((∀ outputs, .attachSpendableData k.walletId outputs ∉ rest) →
            c'.spendableData = c.spendableData) := by
  have hl : Reachable (.ofStore .empty network chain) := .opened network chain
  refine ⟨fun c hc => lastKept?_of_record? hl plainOwners_empty rfl h hc, ?_, ?_⟩
  · rintro before r rest rfl
    obtain ⟨hbefore, hrest⟩ := List.forall_mem_append.1 h
    exact lifeStep (hl.serveAll before).wellFormed (plainOwners_empty.serveAll hl hbefore)
      (hrest r List.mem_cons_self) k
  · rintro before rest rfl hopen c hc
    obtain ⟨hbefore, hrest⟩ := List.forall_mem_append.1 h
    simp only [serveAll_append]
    exact exists_channel_serveAll (hl.serveAll before) (plainOwners_empty.serveAll hl hbefore)
      hrest hopen hc

/-- A wallet is made and paid. -/
def paidAlias : List Request :=
  [.createWallet Key.zeroMnemonic "test" "m/84'/1'/0'/0/*" .zero ["alias"],
    (aliasReport 1 1000 none none).request]

theorem exists_serveAll_paidAlias :
    ∃ l w, (Ledger.ofStore .empty .regtest none).serveAll paidAlias = l ∧ Reachable l ∧
      findWallet l.store "alias" = .ok (some w) ∧
      record? Coin l.store ⟨repeatedTxid 1, 0⟩ =
        some ⟨⟨repeatedTxid 1, 0⟩, aliasScript, 1000, none⟩ := by
  obtain ⟨w, hw⟩ := exists_findWallet_aliasLedger [aliasReport 1 1000 none none]
  refine ⟨_, w, ?_, reachable_aliasLedger.serveAll _, hw, ?_⟩
  · rw [paidAlias, serveAll_cons, ← aliasLedger, List.map_singleton]
  · rw [record?_coin_serveAll reachable_aliasLedger.wellFormed, record?_aliasLedger (by decide),
      heard_aliasLedger (by simp)]
    decide

/-- Two wallets keep channels on the payment, and one of them does so twice. -/
def sharedFunding : List Request :=
  [.upsertChannel "alice" ⟨repeatedTxid 1, 0⟩ [1], .upsertChannel "bob" ⟨repeatedTxid 1, 0⟩ [2],
    .upsertChannel "alice" ⟨repeatedTxid 1, 0⟩ [3]]

theorem exists_channel_sharedFunding (hs : WellFormed l.store) :
    ∀ walletId ∈ ["alice", "bob"], ∃ c,
      record? Channel (l.serveAll sharedFunding).store ⟨walletId, ⟨repeatedTxid 1, 0⟩⟩ =
        some c := by
  intro walletId h
  have hs₁ := wellFormed_serve hs (.upsertChannel "alice" ⟨repeatedTxid 1, 0⟩ [1])
  have hs₂ := wellFormed_serve hs₁ (.upsertChannel "bob" ⟨repeatedTxid 1, 0⟩ [2])
  rw [sharedFunding, serveAll_cons, serveAll_cons, serveAll_cons, serveAll_nil,
    record?_serve_upsertChannel hs₂, record?_serve_upsertChannel hs₁]
  simp only [List.mem_cons, List.not_mem_nil, or_false] at h
  rcases h with rfl | rfl
  · exact ⟨_, if_pos rfl⟩
  · exact ⟨_, (if_neg (by decide)).trans (if_pos rfl)⟩

/-- An event for the wallet that is paid closes the channels when it replaces the payment. -/
theorem closes_sharedFunding (hs : WellFormed l.store) {w : Wallet}
    (hw : findWallet l.store "alias" = .ok (some w)) {c : Coin}
    (hc : record? Coin l.store ⟨repeatedTxid 1, 0⟩ = some c) :
    (aliasReport 2 900 none (some 1)).request.Closes (l.serveAll sharedFunding)
      ⟨repeatedTxid 1, 0⟩ := by
  have hwallets : SameRows .wallet l.store (l.serveAll sharedFunding).store :=
    sameRows_serveAll hs (by decide)
  have hcoins : SameRows .coin l.store (l.serveAll sharedFunding).store :=
    sameRows_serveAll hs (by decide)
  refine ⟨⟨w, (findWallet_eq_of_sameRows hwallets "alias").trans hw⟩, by decide, ?_⟩
  rw [hcoins.record?_eq (α := Coin), hc]
  rfl

/-- When the payment is replaced, both wallets lose their channels. -/
theorem channel_lifeCycle_sharedFunding :
    ∃ l, (Ledger.ofStore .empty .regtest none).serveAll (paidAlias ++ sharedFunding) = l ∧
      (∃ c, record? Channel l.store ⟨"alice", ⟨repeatedTxid 1, 0⟩⟩ = some c ∧ c.data = [3]) ∧
      (∃ c, record? Channel l.store ⟨"bob", ⟨repeatedTxid 1, 0⟩⟩ = some c) ∧
      ∀ walletId, record? Channel (l.serve (aliasReport 2 900 none (some 1)).request).store
        ⟨walletId, ⟨repeatedTxid 1, 0⟩⟩ = none := by
  obtain ⟨l₀, w, hl₀, hreach, hw, hcoin⟩ := exists_serveAll_paidAlias
  let closing : Request := (aliasReport 2 900 none (some 1)).request
  have hkept : ∀ r ∈ paidAlias ++ sharedFunding, r.PlainOwner := by decide
  have hclosed : ∀ r ∈ paidAlias ++ sharedFunding ++ [closing], r.PlainOwner := by decide
  obtain ⟨hdata, -, -⟩ :=
    channel_lifeCycle .regtest none hkept ⟨"alice", ⟨repeatedTxid 1, 0⟩⟩
  obtain ⟨-, hsteps, -⟩ :=
    channel_lifeCycle .regtest none hclosed ⟨"alice", ⟨repeatedTxid 1, 0⟩⟩
  have hstep := hsteps (paidAlias ++ sharedFunding) closing [] rfl
  rw [serveAll_append, hl₀] at hdata hstep ⊢
  obtain ⟨c, hc⟩ := exists_channel_sharedFunding hreach.wellFormed "alice" (by simp)
  have hthree : lastKept? ⟨"alice", ⟨repeatedTxid 1, 0⟩⟩ (paidAlias ++ sharedFunding) =
      some [3] := by decide
  exact ⟨_, rfl, ⟨c, hc, Option.some.inj ((hdata c hc).symm.trans hthree)⟩,
    exists_channel_sharedFunding hreach.wellFormed "bob" (by simp),
    hstep.closed (closes_sharedFunding hreach.wellFormed hw hcoin)⟩

end Ledger

end CoinLedger
