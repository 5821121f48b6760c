import CoinLedger.Proofs.Ledger.Tables

/-! # What a retraction does

`Retracted` says what becomes of a store when all traces of a transaction are removed, table by
table: its record, its scripts and its coins are gone, the channels that its coins fund are gone,
and the coins that it spent are unspent.  `Operation.Retracts` lists the rows that this changes; the
others stay byte for byte.

Channels are the only records whose fate depends on other records: a channel is closed if its
funding coin is stored (`Operation.record?_retract_channel`).  The coins are removed in the same
step, so nothing is closed by a second retraction (`Retracted.again`), and which of two transactions
is retracted first does not matter (`Retracted.comm`).  `retraction_effect` puts this together. -/

namespace CoinLedger

namespace Operation

variable {s s' : Store} {txid : Txid}

/-! ### The channels -/

theorem mem_channelsFundedBy (hs : WellFormed s) {coins : List Coin} {closed : List Channel}
    (h : channelsFundedBy s coins = .ok closed) {c : Channel} :
    c ∈ closed ↔ record? Channel s (Entity.key c) = some c ∧
      ∃ coin ∈ coins, coin.outpoint = c.funding := by
  have hall : channelsOf s none = .ok (recordsFrom Channel s (RowRange.kind .channel).start) :=
    hs.sound.scanEntities rfl
  unfold channelsFundedBy at h
  split at h
  · rename_i hempty
    obtain rfl : [] = closed := Except.ok.inj h
    simp [List.isEmpty_iff.1 hempty]
  · rw [hall] at h
    rw [← Except.ok.inj h, List.mem_filter, hs.sound.mem_recordsFrom rfl]
    have hstart : (RowRange.kind .channel).start <+: rowKey Channel (Entity.key c) :=
      rowKey_startsWith_kind (α := Channel) _
    simp [hstart]

/-- A channel is closed if its funding coin is a stored coin of the transaction. -/
theorem record?_retract_channel (hs : WellFormed s) (h : retract txid s = .ok s') (k : ChannelKey) :
    record? Channel s' k =
      if k.funding.txid = txid ∧ (record? Coin s k.funding).isSome = true then none
      else record? Channel s k := by
  obtain ⟨funded, closed, scripts, coins, s₁, s₂, hfunded, hclosed, hs₁, -, hs₂, -, rfl⟩ :=
    retract_ok h
  have hmade : SameRows .channel (removeEntities Channel s (closed.map Entity.key)) s₁ := by
    rw [hs₁]
    exact .removeEntities (by decide) _ _
  have htraces : SameRows .channel s₁ s₂ := by
    rw [hs₂]
    exact (SameRows.removeEntities (by decide) s₁ _).trans (.removeEntity (by decide) _ txid)
  have hreleased : SameRows .channel s₂ (putEntities s₂ ((coins.filter fun c =>
      c.isSpentByTransaction txid).map fun c => { c with spentBy := none })) :=
    .putEntities (by decide) s₂ _
  obtain rfl : recordsFrom Coin s (RowRange.coinsFundedBy txid).start = funded := by
    have hscan : coinsFundedBy s txid = .ok _ := hs.sound.scanEntities rfl
    exact Except.ok.inj (hscan.symm.trans hfunded)
  have hmem : ∀ c, c ∈ closed ↔ record? Channel s (Entity.key c) = some c ∧
      c.funding.txid = txid ∧ (record? Coin s c.funding).isSome = true := by
    intro c
    rw [mem_channelsFundedBy hs hclosed]
    refine and_congr_right fun _ => ⟨?_, ?_⟩
    · rintro ⟨coin, hcoin, hfunding⟩
      obtain ⟨hstored, htxid⟩ := hs.sound.mem_coinsFundedBy.1 hcoin
      rw [← hfunding, hstored]
      exact ⟨htxid, rfl⟩
    · rintro ⟨htxid, hstored⟩
      obtain ⟨coin, hcoin⟩ := Option.isSome_iff_exists.1 hstored
      have hfunding : coin.outpoint = c.funding := hs.sound.key_eq hcoin
      rw [← hfunding] at htxid hcoin
      exact ⟨coin, hs.sound.mem_coinsFundedBy.2 ⟨hcoin, htxid⟩, hfunding⟩
  rw [((hmade.trans htraces).trans hreleased).record?_eq, record?_removeEntities]
  cases hk : record? Channel s k with
  | none => simp
  | some c =>
      have hkey : Entity.key c = k := hs.sound.key_eq hk
      subst hkey
      have hkeys : Entity.key c ∈ closed.map Entity.key ↔ c.funding.txid = txid ∧
          (record? Coin s c.funding).isSome = true := by
        rw [List.mem_map]
        constructor
        · rintro ⟨c', hc', heq⟩
          obtain ⟨hc', hfunded⟩ := (hmem c').1 hc'
          rw [heq, hk] at hc'
          rwa [Option.some.inj hc']
        · exact fun hfunded => ⟨c, (hmem c).2 ⟨hk, hfunded⟩, rfl⟩
      simp only [hkeys]
      rfl

/-! ### The rows -/

/-- The key is of a row that the retraction of a transaction removes or writes anew. -/
inductive Retracts (s : Store) (txid : Txid) : Bytes → Prop where
  | transaction : Retracts s txid (rowKey TransactionRecord txid)
  | transactionScript (k : TransactionScriptKey) (h : k.txid = txid) :
      Retracts s txid (rowKey TransactionScript k)
  | made (o : Outpoint) (h : o.txid = txid) : Retracts s txid (rowKey Coin o)
  | spent (o : Outpoint) (c : Coin) (hc : record? Coin s o = some c)
      (h : c.isSpentByTransaction txid = true) : Retracts s txid (rowKey Coin o)
  | channel (k : ChannelKey) (h : k.funding.txid = txid)
      (hcoin : (record? Coin s k.funding).isSome = true) : Retracts s txid (rowKey Channel k)

end Operation

open Operation

/-- What the retraction of a transaction makes of a store. -/
structure Retracted (txid : Txid) (s s' : Store) : Prop where
  /-- The record of the transaction is gone. -/
  transaction : ∀ t, record? TransactionRecord s' t =
    if t = txid then none else record? TransactionRecord s t
  /-- The scripts of the transaction are gone. -/
  transactionScript : ∀ k, record? TransactionScript s' k =
    if k.txid = txid then none else record? TransactionScript s k
  /-- The coins of the transaction are gone, and those that it spent are unspent. -/
  coin : ∀ o, record? Coin s' o =
    if o.txid = txid then none else (record? Coin s o).map (Coin.released txid)
  /-- The channels are gone, of any wallet, whose funding output is a stored coin of the
  transaction. -/
  channel : ∀ k, record? Channel s' k =
    if k.funding.txid = txid ∧ (record? Coin s k.funding).isSome = true then none
    else record? Channel s k
  /-- All other rows stay as they are. -/
  frame : ∀ key, ¬Retracts s txid key → s'.get? key = s.get? key

namespace Retracted

variable {s s' t t' : Store} {txid other : Txid}

theorem of_retract (hs : WellFormed s) (h : retract txid s = .ok s') : Retracted txid s s' := by
  have hs' : WellFormed s' := (writes_retract h).wellFormed hs
  have htransaction := record?_retract_transaction h
  have hscript := record?_retract_transactionScript hs.sound h
  have hcoin := (record?_retract hs.sound h).2
  have hchannel := record?_retract_channel hs h
  refine ⟨fun t => ?_, fun k => ?_, hcoin, hchannel, fun key hkey => hs.get?_eq hs' fun kind hkind => ?_⟩
  · rw [htransaction, onTransaction]
    simp only [eq_comm]
  · rw [hscript, onTransactionScript]
    simp only [eq_comm]
  · cases kind with
    | transaction =>
        refine hs.sound.get?_eq (α := TransactionRecord) hs'.sound hkind ?_
        rintro t rfl
        rw [htransaction, onTransaction, if_neg]
        rintro rfl
        exact hkey .transaction
    | transactionScript =>
        refine hs.sound.get?_eq (α := TransactionScript) hs'.sound hkind ?_
        rintro k rfl
        rw [hscript, onTransactionScript, if_neg]
        rintro rfl
        exact hkey (.transactionScript k rfl)
    | coin =>
        refine hs.sound.get?_eq (α := Coin) hs'.sound hkind ?_
        rintro o rfl
        rw [hcoin, onCoin, if_neg fun htxid => hkey (.made o htxid)]
        cases hc : record? Coin s o with
        | none => rfl
        | some c =>
            rw [Option.map_some, Coin.released, if_neg fun hspent => hkey (.spent o c hc hspent)]
    | channel =>
        refine hs.sound.get?_eq (α := Channel) hs'.sound hkind ?_
        rintro k rfl
        rw [hchannel, if_neg]
        rintro ⟨htxid, hstored⟩
        exact hkey (.channel k htxid hstored)
    | wallet | script | walletScript | payment | blob =>
        exact (writes_retract h).sameRows (by simp [writes]) key hkind

/-- The rows of the other kinds are not written. -/
theorem sameRows (h : Retracted txid s s') {kind : EntityKind}
    (hkind : kind ∉ (retractTransaction txid).writes) : SameRows kind s s' := by
  intro key hkey
  refine h.frame key fun hretracts => hkind ?_
  cases hretracts <;>
    rw [← EntityKind.byte_injective (Option.some.inj ((head?_rowKey _).symm.trans hkey))] <;>
    simp [writes, Entity.kind]

theorem isSome_coin_iff (h : Retracted txid s s') {o : Outpoint} :
    (record? Coin s' o).isSome = true ↔ o.txid ≠ txid ∧ (record? Coin s o).isSome = true := by
  rw [h.coin]
  split
  · rename_i htxid
    simp [htxid]
  · rename_i htxid
    simp [htxid]

/-! ### Retracting again, and retracting others -/

/-- Stores are the same if the tables are that retractions write, and so are the rows of all other
kinds. -/
theorem eq_of_tables (hs : WellFormed s) (hs' : WellFormed s')
    (htransaction : ∀ t, record? TransactionRecord s' t = record? TransactionRecord s t)
    (hscript : ∀ k, record? TransactionScript s' k = record? TransactionScript s k)
    (hcoin : ∀ o, record? Coin s' o = record? Coin s o)
    (hchannel : ∀ k, record? Channel s' k = record? Channel s k)
    (hrest : ∀ kind ∉ [EntityKind.channel, .coin, .transactionScript, .transaction],
      SameRows kind s s') : s = s' := by
  refine hs.ext hs' fun kind => ?_
  cases kind with
  | transaction => exact hs.sound.sameRows hs'.sound htransaction
  | transactionScript => exact hs.sound.sameRows hs'.sound hscript
  | coin => exact hs.sound.sameRows hs'.sound hcoin
  | channel => exact hs.sound.sameRows hs'.sound hchannel
  | wallet | script | walletScript | payment | blob => exact hrest _ (by decide)

/-- The coins that would close channels are gone after the first retraction. -/
theorem again (hs' : WellFormed s') (ht : WellFormed t) (h : Retracted txid s s')
    (h' : Retracted txid s' t) : s' = t := by
  refine eq_of_tables hs' ht (fun t => ?_) (fun k => ?_) (fun o => ?_) (fun k => ?_)
    fun kind hkind => h'.sameRows hkind
  · rw [h'.transaction, h.transaction]
    split <;> rfl
  · rw [h'.transactionScript, h.transactionScript]
    split <;> rfl
  · rw [h'.coin, h.coin]
    split
    · rfl
    · rw [Option.map_map]
      exact congrArg (Option.map · _) (funext (Coin.released_released txid))
  · rw [h'.channel, if_neg]
    rintro ⟨htxid, hstored⟩
    exact (h.isSome_coin_iff.1 hstored).1 htxid

/-- A coin of one of the transactions closes a channel whether it is still spent by the other one
or not. -/
theorem comm (ht : WellFormed t) (ht' : WellFormed t') {s₁ s₂ : Store} (h : Retracted txid s s₁)
    (hother : Retracted other s₁ t) (h' : Retracted other s s₂) (hother' : Retracted txid s₂ t') :
    t = t' := by
  refine eq_of_tables ht ht' (fun t => ?_) (fun k => ?_) (fun o => ?_) (fun k => ?_)
    fun kind hkind => ?_
  · rw [hother'.transaction, h'.transaction, hother.transaction, h.transaction]
    split <;> split <;> rfl
  · rw [hother'.transactionScript, h'.transactionScript, hother.transactionScript,
      h.transactionScript]
    split <;> split <;> rfl
  · rw [hother'.coin, h'.coin, hother.coin, h.coin]
    split
    · split <;> rfl
    · split
      · rfl
      · rw [Option.map_map, Option.map_map]
        exact congrArg (Option.map · _) (funext fun c => (c.released_comm txid other).symm)
  · rw [hother'.channel, h'.channel, hother.channel, h.channel]
    simp only [h.isSome_coin_iff, h'.isSome_coin_iff]
    -- both ways it is gone if the funding coin is stored and a coin of one of them
    grind
  · intro key hkey
    rw [hother'.sameRows hkind key hkey, h'.sameRows hkind key hkey, hother.sameRows hkind key hkey,
      h.sameRows hkind key hkey]

end Retracted

/-! ### The result -/

theorem exists_commit_retract {s : Store} (hs : WellFormed s) (txid : Txid) :
    ∃ s', commit s [.retractTransaction txid] = .ok s' ∧ WellFormed s' ∧ Retracted txid s s' := by
  obtain ⟨s', hs'⟩ := exists_retract_eq_ok hs txid
  have hcommit : commit s [.retractTransaction txid] = .ok s' := by
    rw [commit_singleton]
    exact hs'
  exact ⟨s', hcommit, hs.commit hcommit, .of_retract hs hs'⟩

/-- **The exact effect of a retraction.**  On a well-formed store the retraction of any transaction
succeeds.  The record of the transaction, its scripts and its coins are gone then; the channels are
gone, of any wallet, that are funded by a coin of it that was stored, and no others; all other coins
are kept, and unspent if the transaction spent them; and all other rows are the same byte for byte.
A second retraction changes nothing, and retractions of two transactions lead to the same store in
either order. -/
theorem retraction_effect {s : Store} (hs : WellFormed s) (txid : Txid) :
    ∃ s', commit s [.retractTransaction txid] = .ok s' ∧ WellFormed s' ∧ Retracted txid s s' ∧
      commit s' [.retractTransaction txid] = .ok s' ∧
      ∀ other, ∃ t, commit s [.retractTransaction txid, .retractTransaction other] = .ok t ∧
        commit s [.retractTransaction other, .retractTransaction txid] = .ok t := by
  obtain ⟨s', hcommit, hs', hretracted⟩ := exists_commit_retract hs txid
  refine ⟨s', hcommit, hs', hretracted, ?_, fun other => ?_⟩
  · obtain ⟨t, hagain, ht, hretracted'⟩ := exists_commit_retract hs' txid
    obtain rfl : s' = t := hretracted.again hs' ht hretracted'
    exact hagain
  · have hpair : ∀ a b : Operation, ∀ {s₁ : Store}, commit s [a] = .ok s₁ →
        commit s [a, b] = commit s₁ [b] := by
      intro a b s₁ ha
      have happend := commit_append s [a] [b]
      rw [ha] at happend
      exact happend
    obtain ⟨s₂, hcommit₂, hs₂, hretracted₂⟩ := exists_commit_retract hs other
    obtain ⟨t, hother, ht, hretracted'⟩ := exists_commit_retract hs' other
    obtain ⟨t', hother', ht', hretracted₂'⟩ := exists_commit_retract hs₂ txid
    obtain rfl : t = t' := hretracted.comm ht ht' hretracted' hretracted₂ hretracted₂'
    exact ⟨t, (hpair _ _ hcommit).trans hother, (hpair _ _ hcommit₂).trans hother'⟩

/-- The hash of a transaction that spends an output of another one. -/
def spenderTxid : Txid := ⟨List.replicate 32 1, rfl⟩

/-- A coin, a coin of the transaction that spends it, and a channel that the second coin funds. -/
def fundedChannelStore : Store :=
  let channel : Channel := ⟨"w", ⟨spenderTxid, 0⟩, [], none⟩
  let spent : Coin := ⟨⟨.zero, 0⟩, ⟨[81]⟩, 1000, some ⟨spenderTxid, 0⟩⟩
  let made : Coin := ⟨⟨spenderTxid, 0⟩, ⟨[81]⟩, 900, none⟩
  putEntity (putEntity (putEntity ByteMap.empty channel) spent) made

/-- When the spending transaction is retracted, the channel is closed and the first coin is unspent;
the first transaction may be retracted before it as well. -/
theorem retraction_effect_fundedChannel :
    ∃ s', commit fundedChannelStore [.retractTransaction spenderTxid] = .ok s' ∧
      record? Channel s' ⟨"w", ⟨spenderTxid, 0⟩⟩ = none ∧
      record? Coin s' ⟨.zero, 0⟩ = some ⟨⟨.zero, 0⟩, ⟨[81]⟩, 1000, none⟩ ∧
      commit fundedChannelStore [.retractTransaction spenderTxid, .retractTransaction .zero] =
        commit fundedChannelStore [.retractTransaction .zero, .retractTransaction spenderTxid] := by
  have hs : WellFormed fundedChannelStore :=
    ((wellFormed_empty.putEntity _).putEntity _).putEntity _
  have hmade : record? Coin fundedChannelStore ⟨spenderTxid, 0⟩ =
      some ⟨⟨spenderTxid, 0⟩, ⟨[81]⟩, 900, none⟩ := by
    rw [fundedChannelStore, record?_putEntity]
    rfl
  have hspent : record? Coin fundedChannelStore ⟨.zero, 0⟩ =
      some ⟨⟨.zero, 0⟩, ⟨[81]⟩, 1000, some ⟨spenderTxid, 0⟩⟩ := by
    rw [fundedChannelStore, record?_putEntity, record?_putEntity]
    rfl
  obtain ⟨s', hcommit, -, hretracted, -, hcomm⟩ := retraction_effect hs spenderTxid
  obtain ⟨t, hfirst, hlast⟩ := hcomm .zero
  refine ⟨s', hcommit, ?_, ?_, hfirst.trans hlast.symm⟩
  · rw [hretracted.channel, if_pos ⟨rfl, by rw [hmade]; rfl⟩]
  · rw [hretracted.coin, hspent, if_neg (by decide)]
    rfl

end CoinLedger
