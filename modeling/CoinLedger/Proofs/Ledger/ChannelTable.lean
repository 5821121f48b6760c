import CoinLedger.Proofs.Ledger.Requests
import CoinLedger.Proofs.Ledger.Retraction
import CoinLedger.Proofs.Store.Scans

/-! # The table of channels

What becomes of a channel depends on the channel and on its funding coin, and on no other record
(`Operation.onChannel`).  The coin goes its own way, so that the two of them together follow a rule
(`Operation.onFunding`), and a batch does to them what its operations do one after the other
(`funding_commit`).

The channels of a wallet are found by a scan, and so this is said of stores in which the names of
wallets are plain (`PlainOwners`).  Operations keep that if they name plain wallets themselves, and
so do requests: `Request.PlainOwner` asks it of the wallets that are named for channels, as the
ids of all other wallets are hexadecimal texts (`PlainOwners.serve`). -/

namespace CoinLedger

open Ledger

/-- The channel with data attached to it. -/
def Channel.attach (data : Bytes) (c : Channel) : Channel := { c with spendableData := some data }

namespace Operation

/-- What an operation makes of the channel with this key, whose funding coin is given. -/
def onChannel (k : ChannelKey) (coin : Option Coin) : Operation → Option Channel → Option Channel
  | upsertChannel c, found => if Entity.key c = k then some (mergedChannel c found) else found
  | attachSpendableData walletId spending data, found =>
      if k.walletId = walletId ∧ coin.any (·.isSpentByInput spending) then
        found.map (Channel.attach data)
      else found
  | retractTransaction txid, found =>
      if k.funding.txid = txid ∧ coin.isSome = true then none else found
  | _, found => found

/-- What an operation makes of a channel and its funding coin. -/
def onFunding (k : ChannelKey) (state : Option Coin × Option Channel) (op : Operation) :
    Option Coin × Option Channel :=
  (op.onCoin k.funding state.1, op.onChannel k state.1 state.2)

/-- The names that the operation puts in front of something else in a key, or scans for, have no
zero byte. -/
def PlainOwner : Operation → Prop
  | insertWalletScript w | mergeWalletScript w => 0 ∉ Bytes.utf8 w.walletId
  | upsertChannel c => 0 ∉ Bytes.utf8 c.walletId
  | attachSpendableData walletId _ _ => 0 ∉ Bytes.utf8 walletId
  | _ => True

variable {s s' : Store}

/-! ### Keeping a channel -/

/-- A channel is kept, and what is known of it is merged. -/
theorem record?_upsert_channel (hs : Sound Channel s) {c : Channel}
    (h : (upsertChannel c).apply s = .ok s') (k : ChannelKey) :
    record? Channel s' k =
      if Entity.key c = k then some (mergedChannel c (record? Channel s k))
      else record? Channel s k := by
  have hkey : ∀ a, (some ∘ mergedChannel c) (record? Channel s (Entity.key c)) = some a →
      Entity.key a = Entity.key c := by
    intro a ha
    rw [← Option.some.inj ha]
    cases record? Channel s (Entity.key c) <;> rfl
  exact (hs.reviseEntity_comp_ok hkey h).2 k

/-! ### Attaching data -/

theorem attachTo_eq (hs : Sound Coin s) (spending : Outpoint) (data : Bytes) (c : Channel) :
    attachTo spending data s c =
      .ok (if (record? Coin s c.funding).any (·.isSpentByInput spending) then
        putEntity s (c.attach data) else s) := by
  unfold attachTo
  rw [hs.getEntity]
  cases record? Coin s c.funding with
  | none => rfl
  | some coin =>
      simp only [ok_bind, Option.any_some]
      split <;> rfl

/-- The coins stay while data is attached, so that all channels are looked at in the same light. -/
theorem foldlM_attachTo (hs : Sound Coin s) (spending : Outpoint) (data : Bytes)
    (channels : List Channel) :
    channels.foldlM (attachTo spending data) s =
      .ok (putEntities s ((channels.filter fun c =>
        (record? Coin s c.funding).any (·.isSpentByInput spending)).map (Channel.attach data))) := by
  induction channels generalizing s with
  | nil => rfl
  | cons c channels ih =>
      rw [List.foldlM_cons, attachTo_eq hs, ok_bind, List.filter_cons]
      split
      · have hcoins : SameRows .coin s (putEntity s (c.attach data)) :=
          .putEntity (by decide) s _
        rw [ih (hcoins.sound hs)]
        simp only [hcoins.record?_eq (α := Coin)]
        rfl
      · exact ih hs

/-- Data is attached to the channels of the wallet whose funding coin is spent by the input. -/
theorem record?_attach_channel (hs : WellFormed s) (hplain : PlainOwners s) {walletId : String}
    (hid : 0 ∉ Bytes.utf8 walletId) {spending : Outpoint} {data : Bytes}
    (h : (attachSpendableData walletId spending data).apply s = .ok s') (k : ChannelKey) :
    record? Channel s' k = (attachSpendableData walletId spending data).onChannel k
      (record? Coin s k.funding) (record? Channel s k) := by
  have hscan : channelsOf s (some walletId) =
      .ok (recordsFrom Channel s (RowRange.channels walletId).start) := hs.sound.scanEntities rfl
  simp only [apply, hscan, ok_bind, foldlM_attachTo hs.sound] at h
  obtain rfl := Except.ok.inj h
  set attached := ((recordsFrom Channel s (RowRange.channels walletId).start).filter fun c =>
    (record? Coin s c.funding).any (·.isSpentByInput spending)).map (Channel.attach data) with hattached
  -- the channels of the wallet are those that the scan finds
  have hmem : ∀ a, a ∈ attached ↔ ∃ c, record? Channel s (Entity.key c) = some c ∧
      (c.walletId = walletId ∧ (record? Coin s c.funding).any (·.isSpentByInput spending)) ∧
      c.attach data = a := by
    intro a
    rw [hattached, List.mem_map]
    refine exists_congr fun c => ?_
    rw [List.mem_filter, hs.sound.mem_recordsFrom rfl, ← and_assoc, and_assoc (b := _ <+: _)]
    refine and_congr_left fun _ => and_congr_right fun hc => and_congr_left fun _ => ?_
    exact channels_start_prefix_iff hid (hplain.channel (hs.sound.hasRow_of_record? hc))
  rw [onChannel]
  rcases record?_putEntities s attached k with ⟨a, ha, hkey, hwritten⟩ | ⟨hnone, hsame⟩
  · obtain ⟨c, hstored, hhit, rfl⟩ := (hmem a).1 ha
    obtain rfl : Entity.key c = k := hkey
    rw [hwritten, hstored]
    exact (if_pos hhit).symm
  · rw [hsame]
    cases hfound : record? Channel s k with
    | none => simp
    | some c =>
        have hkey : Entity.key c = k := hs.sound.key_eq hfound
        subst hkey
        exact (if_neg fun hhit => hnone _ ((hmem _).2 ⟨c, hfound, hhit, rfl⟩) rfl).symm

/-! ### The rule -/

theorem onChannel_of_notMem_writes {op : Operation} (hop : EntityKind.channel ∉ op.writes)
    (k : ChannelKey) (coin : Option Coin) (found : Option Channel) :
    op.onChannel k coin found = found := by
  cases op with
  | upsertChannel _ | attachSpendableData _ _ _ | retractTransaction _ => simp [writes] at hop
  | _ => rfl

/-- The table of channels obeys the rule. -/
theorem record?_channel_apply (hs : WellFormed s) (hplain : PlainOwners s) {op : Operation}
    (hop : op.PlainOwner) (h : op.apply s = .ok s') (k : ChannelKey) :
    record? Channel s' k = op.onChannel k (record? Coin s k.funding) (record? Channel s k) := by
  by_cases hwrites : EntityKind.channel ∈ op.writes
  · cases op with
    | upsertChannel c => exact record?_upsert_channel hs.sound h k
    | attachSpendableData walletId spending data => exact record?_attach_channel hs hplain hop h k
    | retractTransaction txid => exact record?_retract_channel hs h k
    | _ => simp [writes] at hwrites
  · have hrows : SameRows .channel s s' := (writes_apply h).sameRows hwrites
    rw [onChannel_of_notMem_writes hwrites, hrows.record?_eq (α := Channel)]

/-! ### Plain names -/

variable {op : Operation}

theorem plain_onWalletScript (hop : op.PlainOwner) {k : WalletScriptKey}
    {found : Option WalletScript} (hfound : ∀ w, found = some w → 0 ∉ Bytes.utf8 w.walletId)
    {w : WalletScript} (hw : op.onWalletScript k found = some w) : 0 ∉ Bytes.utf8 w.walletId := by
  cases op with
  | insertWalletScript made =>
      rw [onWalletScript] at hw
      split at hw
      · rcases Option.or_eq_some_iff.1 hw with hknown | ⟨-, hmade⟩
        · exact hfound w hknown
        · rw [← Option.some.inj hmade]
          exact hop
      · exact hfound w hw
  | mergeWalletScript made =>
      rw [onWalletScript] at hw
      split at hw
      · rw [← Option.some.inj hw]
        cases found with
        | none => exact hop
        | some known => exact hfound known rfl
      · exact hfound w hw
  | _ => exact hfound w hw

theorem plain_onChannel (hop : op.PlainOwner) {k : ChannelKey} {coin : Option Coin}
    {found : Option Channel} (hfound : ∀ c, found = some c → 0 ∉ Bytes.utf8 c.walletId)
    {c : Channel} (hc : op.onChannel k coin found = some c) : 0 ∉ Bytes.utf8 c.walletId := by
  cases op with
  | upsertChannel made =>
      rw [onChannel] at hc
      split at hc
      · rw [← Option.some.inj hc]
        cases found <;> exact hop
      · exact hfound c hc
  | attachSpendableData walletId spending data =>
      rw [onChannel] at hc
      split at hc
      · obtain ⟨known, hknown, rfl⟩ := Option.map_eq_some_iff.1 hc
        exact hfound known hknown
      · exact hfound c hc
  | retractTransaction txid =>
      rw [onChannel] at hc
      split at hc
      · cases hc
      · exact hfound c hc
  | _ => exact hfound c hc

end Operation

/-! ### Batches -/

theorem plainOwners_empty : PlainOwners .empty := ⟨nofun, nofun⟩

namespace PlainOwners

variable {s s' : Store}

theorem apply (hs : WellFormed s) (hplain : PlainOwners s) {op : Operation} (hop : op.PlainOwner)
    (h : op.apply s = .ok s') : PlainOwners s' := by
  have hs' : WellFormed s' := (Operation.writes_apply h).wellFormed hs
  constructor
  · intro w hw
    rw [hs'.sound.hasRow_iff, Pointwise.record?_apply hs.sound h] at hw
    exact Operation.plain_onWalletScript hop
      (fun _ hknown => hplain.walletScript (hs.sound.hasRow_of_record? hknown)) hw
  · intro c hc
    rw [hs'.sound.hasRow_iff, Operation.record?_channel_apply hs hplain hop h] at hc
    exact Operation.plain_onChannel hop
      (fun _ hknown => hplain.channel (hs.sound.hasRow_of_record? hknown)) hc

theorem commit {batch : Batch} (hs : WellFormed s) (hplain : PlainOwners s)
    (hbatch : ∀ op ∈ batch, op.PlainOwner) (h : commit s batch = .ok s') : PlainOwners s' := by
  induction batch generalizing s with
  | nil =>
      obtain rfl : s = s' := Except.ok.inj h
      exact hplain
  | cons op batch ih =>
      rw [commit_eq_foldlM] at h
      obtain ⟨t, hop, h⟩ := foldlM_ok h
      rw [← commit_eq_foldlM] at h
      obtain ⟨hfirst, hrest⟩ := List.forall_mem_cons.1 hbatch
      exact ih ((Operation.writes_apply hop).wellFormed hs) (hplain.apply hs hfirst hop) hrest h

end PlainOwners

/-- The funding coin of a channel, and the channel. -/
def funding (s : Store) (k : ChannelKey) : Option Coin × Option Channel :=
  (record? Coin s k.funding, record? Channel s k)

/-- A batch does to a channel and its funding coin what its operations do one after the other. -/
theorem funding_commit {s s' : Store} {batch : Batch} (hs : WellFormed s) (hplain : PlainOwners s)
    (hbatch : ∀ op ∈ batch, op.PlainOwner) (h : commit s batch = .ok s') (k : ChannelKey) :
    funding s' k = batch.foldl (Operation.onFunding k) (funding s k) := by
  induction batch generalizing s with
  | nil =>
      obtain rfl : s = s' := Except.ok.inj h
      rfl
  | cons op batch ih =>
      rw [commit_eq_foldlM] at h
      obtain ⟨t, hop, h⟩ := foldlM_ok h
      rw [← commit_eq_foldlM] at h
      obtain ⟨hfirst, hrest⟩ := List.forall_mem_cons.1 hbatch
      have hstep : funding t k = Operation.onFunding k (funding s k) op := by
        rw [funding, Pointwise.record?_apply hs.sound hop,
          Operation.record?_channel_apply hs hplain hfirst hop]
        rfl
      rw [ih ((Operation.writes_apply hop).wellFormed hs) (hplain.apply hs hfirst hop) hrest h,
        hstep, List.foldl_cons]

/-! ### Requests -/

namespace Ledger

/-- The wallet that the request names for channels has no zero byte in its name. -/
def Request.PlainOwner : Request → Prop
  | upsertChannel walletId _ _ | attachSpendableData walletId _ => 0 ∉ Bytes.utf8 walletId
  | _ => True

instance : DecidablePred Request.PlainOwner
  | .upsertChannel walletId _ _ => inferInstanceAs (Decidable (0 ∉ Bytes.utf8 walletId))
  | .attachSpendableData walletId _ => inferInstanceAs (Decidable (0 ∉ Bytes.utf8 walletId))
  | .createWallet .. | .addAliases .. | .trackScript .. | .deriveScript .. | .observe .. | .newBlock
  | .buildTransaction .. | .signTransaction .. | .putBlob .. | .recordPayment ..
  | .updatePayment .. | .setChain .. | .reopen .. => .isTrue trivial

variable {l : Ledger}

theorem NextScript.plainOwner_of_mem_batch (hl : Reachable l) {walletId : String}
    {next : NextScript} (h : l.nextOf walletId = .ok next) :
    ∀ op ∈ next.batch walletId, op.PlainOwner := by
  obtain ⟨w, hw, -⟩ := isNext_of_nextOf hl.wellFormed.sound h
  have hid : 0 ∉ Bytes.utf8 walletId := hl.zero_notMem_id (by rw [hw]; rfl)
  simp [NextScript.batch, Operation.PlainOwner, hid]

theorem plainOwner_of_mem_observation {w : Wallet} (hid : 0 ∉ Bytes.utf8 w.id)
    (source : TrackedSource) (e : TransactionEvent) :
    ∀ op ∈ observation w source e, op.PlainOwner := by
  have howner : ∀ script ∈ reportedScripts w source e, script.walletId = w.id := by
    intro script hscript
    unfold reportedScripts at hscript
    rcases List.mem_append.1 hscript with hscript | hscript
    · obtain ⟨o, -, rfl⟩ := List.mem_map.1 hscript
      rfl
    · split at hscript
      · cases hscript
      · obtain ⟨i, -, rfl⟩ := List.mem_map.1 hscript
        rfl
  simp only [observation, List.forall_mem_cons, List.forall_mem_append, List.forall_mem_map]
  have hscripts : ∀ script ∈ reportedScripts w source e, ((if source.isDeterministic = true then
      Operation.mergeWalletScript else Operation.insertWalletScript) script).PlainOwner := by
    intro script hscript
    have hplain : 0 ∉ Bytes.utf8 script.walletId := by rwa [howner script hscript]
    split <;> exact hplain
  refine ⟨trivial, ⟨⟨⟨⟨⟨?_, ?_⟩, hscripts⟩, ?_⟩, ?_⟩, ?_⟩, ?_⟩
  all_goals exact fun _ _ => trivial

theorem SpendableOutput.plainOwner_of_mem_batch {walletId : String}
    (hid : 0 ∉ Bytes.utf8 walletId) (outputs : List SpendableOutput) :
    ∀ op ∈ outputs.flatMap (SpendableOutput.batch walletId), op.PlainOwner := by
  simp only [List.forall_mem_flatMap]
  simp [SpendableOutput.batch, Operation.PlainOwner, hid]

/-- A channel is kept with the data that are given, and what is attached to it stays. -/
theorem record?_serve_upsertChannel (hs : WellFormed l.store) (walletId : String)
    (funding : Outpoint) (data : Bytes) (k : ChannelKey) :
    record? Channel (l.serve (.upsertChannel walletId funding data)).store k =
      if ⟨walletId, funding⟩ = k then
        some ⟨walletId, funding, data, (record? Channel l.store k).bind Channel.spendableData⟩
      else record? Channel l.store k := by
  have hneeds : ∀ op ∈ [Operation.upsertChannel ⟨walletId, funding, data, none⟩],
      op.needsWallet = false := by simp [Operation.needsWallet]
  obtain ⟨s', hcommit⟩ := exists_commit_eq_ok hs hneeds
  have hstore : (l.serve (.upsertChannel walletId funding data)).store = s' := by
    simp only [serve, Request.action, upsertChannel, run_write, hcommit]
  rw [commit_singleton] at hcommit
  rw [hstore, Operation.record?_upsert_channel hs.sound hcommit]
  cases record? Channel l.store k <;> rfl

/-- A request that names plain wallets for channels writes keys with plain names. -/
theorem Request.plainOwner_of_mem_batch (hl : Reachable l) {r : Request} (hr : r.PlainOwner)
    {batch : Batch} (h : r.batch l = .ok batch) : ∀ op ∈ batch, op.PlainOwner := by
  have hs : Sound Wallet l.store := hl.wellFormed.sound
  cases r with
  | createWallet mnemonic name template creationBlock aliases =>
      obtain ⟨_, -, h⟩ := bind_ok h
      obtain ⟨master, -, h⟩ := bind_ok h
      rw [← Except.ok.inj h]
      simp [Operation.PlainOwner]
  | trackScript walletId script =>
      obtain ⟨w, hw, h⟩ := bind_ok h
      have hid : 0 ∉ Bytes.utf8 walletId :=
        hl.zero_notMem_id (by rw [record?_of_requireWallet hs hw]; rfl)
      rw [← Except.ok.inj h]
      simp [Operation.PlainOwner, hid]
  | deriveScript walletId =>
      obtain ⟨next, hnext, h⟩ := bind_ok h
      rw [← Except.ok.inj h]
      exact next.plainOwner_of_mem_batch hl hnext
  | observe name source event =>
      obtain ⟨found, hfound, h⟩ := bind_ok h
      cases found with
      | none => cases h
      | some w =>
          rw [← Except.ok.inj h]
          exact plainOwner_of_mem_observation
            (hl.zero_notMem_id (by rw [record?_of_findWallet hs hfound]; rfl)) source event
  | newBlock =>
      unfold Request.batch at h
      dsimp only at h
      split at h
      · rw [← Except.ok.inj h]
        simp
      · obtain ⟨pending, -, h⟩ := bind_ok h
        intro op hop
        obtain ⟨txid, block, rfl⟩ := setBlock_of_mem_confirmations h op hop
        trivial
  | buildTransaction walletId outputs feeRate explicit order =>
      obtain ⟨_, -, h⟩ := bind_ok h
      dsimp only at h
      split at h
      · cases h
      · obtain ⟨next, hnext, h⟩ := bind_ok h
        rw [← Except.ok.inj h]
        exact next.plainOwner_of_mem_batch hl hnext
  | putBlob scope name value =>
      cases value <;> rw [← Except.ok.inj h] <;> simp [Operation.PlainOwner]
  | upsertChannel walletId funding data =>
      have hid : 0 ∉ Bytes.utf8 walletId := hr
      rw [← Except.ok.inj h]
      simp [Operation.PlainOwner, hid]
  | attachSpendableData walletId outputs =>
      rw [← Except.ok.inj h]
      exact SpendableOutput.plainOwner_of_mem_batch hr outputs
  | addAliases _ _ | recordPayment _ | updatePayment _ _ _ | signTransaction _ _ | setChain _
  | reopen _ =>
      rw [← Except.ok.inj h]
      simp [Operation.PlainOwner]

end Ledger

theorem PlainOwners.serve {l : Ledger} (hl : Reachable l) (hplain : PlainOwners l.store)
    {r : Request} (hr : r.PlainOwner) : PlainOwners (l.serve r).store := by
  rcases serve_ok hl.wellFormed.sound r with hstore | ⟨batch, hbatch, hcommit⟩
  · rwa [hstore]
  · exact hplain.commit hl.wellFormed (Request.plainOwner_of_mem_batch hl hr hbatch) hcommit

/-- Names stay plain along requests that name plain wallets for channels. -/
theorem PlainOwners.serveAll {l : Ledger} (hl : Reachable l) (hplain : PlainOwners l.store)
    {requests : List Request} (h : ∀ r ∈ requests, r.PlainOwner) :
    PlainOwners (l.serveAll requests).store := by
  induction requests generalizing l with
  | nil => exact hplain
  | cons r requests ih =>
      obtain ⟨hr, hrest⟩ := List.forall_mem_cons.1 h
      exact ih (hl.served r) (hplain.serve hl hr) hrest

end CoinLedger
