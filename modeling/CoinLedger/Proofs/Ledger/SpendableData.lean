import CoinLedger.Proofs.Ledger.ChannelTable
import CoinLedger.Proofs.Ledger.Replay

/-! # Outputs of closed channels

When a channel of a wallet is closed, its funding coin is spent, and the outputs that the wallet can
collect are recorded with the data that this takes.  `Collected` says what becomes of a store: the
scripts and the coins of the outputs are made where there are none (`Inserted`), and to a channel
whose funding coin is spent by some input the data of the last output is attached that names this
input (`attachedData`).

The batch goes through the outputs one by one, and looks for spent funding coins behind each of
them.  This comes to the same as one look at the store as it was, since the coins that are made on
the way are unspent (`foldl_onFunding_batch`).  For the same reason there is nothing left to do when
the outputs come again (`Collected.again`). -/

namespace CoinLedger

open Ledger

/-! ### Records that are inserted -/

section

variable {α κ : Type} [Entity α κ]

/-- Of the given records the first one with a key is made, where there was none with this key. -/
def Inserted (as : List α) (s s' : Store) : Prop :=
  ∀ k : κ, record? α s' k =
    (record? α s k).or (as.find? fun a => rowKey α (Entity.key a) = rowKey α k)

namespace Inserted

variable {as : List α} {s s' s'' : Store}

/-- The records are there afterwards, in whatever form. -/
theorem isSome (h : Inserted as s s') {a : α} (ha : a ∈ as) :
    (record? α s' (Entity.key a)).isSome = true := by
  rw [h, Option.isSome_or, Bool.or_eq_true]
  exact .inr (List.find?_isSome.2 ⟨a, ha, by simp⟩)

/-- What is new is one of the records. -/
theorem mem_of_record? (h : Inserted as s s') {k : κ} (hnone : record? α s k = none) {a : α}
    (ha : record? α s' k = some a) : a ∈ as := by
  rw [h, hnone, Option.none_or] at ha
  exact List.mem_of_find?_eq_some ha

/-- A key that none of the records has stays as it is. -/
theorem record?_eq (h : Inserted as s s') {k : κ}
    (hk : ∀ a ∈ as, rowKey α (Entity.key a) ≠ rowKey α k) : record? α s' k = record? α s k := by
  have hnone : as.find? (fun a => rowKey α (Entity.key a) = rowKey α k) = none :=
    List.find?_eq_none.2 fun a ha => by simpa using hk a ha
  rw [h, hnone, Option.or_none]

theorem get?_eq [LawfulEntity α] (h : Inserted as s s') (hs : Sound α s) (hs' : Sound α s')
    {key : Bytes} (hkind : key.head? = some (Entity.kind α).byte)
    (hkey : ∀ a ∈ as, rowKey α (Entity.key a) ≠ key) : s'.get? key = s.get? key := by
  refine hs.get?_eq hs' hkind ?_
  rintro k rfl
  exact h.record?_eq hkey

/-- The second time nothing is made. -/
theorem again (h : Inserted as s s') (h' : Inserted as s' s'') (k : κ) :
    record? α s'' k = record? α s' k := by
  rw [h', h, Option.or_assoc, Option.or_self]

end Inserted

end

namespace Ledger.SpendableOutput

/-! ### What an output makes -/

/-- The record of the script of an output. -/
def scriptRecord (o : SpendableOutput) : ScriptRecord := ⟨o.txout.script⟩

/-- The script as one of the wallet, at no known path. -/
def walletScript (walletId : String) (o : SpendableOutput) : WalletScript :=
  ⟨walletId, o.txout.script, none⟩

/-- The coin that the output is as long as nothing spends it. -/
def coin (o : SpendableOutput) : Coin := ⟨o.outpoint, o.txout.script, o.txout.value, none⟩

/-- The output is known, as one of the wallet. -/
structure Known (walletId : String) (o : SpendableOutput) (s : Store) : Prop where
  script : (record? ScriptRecord s o.txout.script).isSome = true
  walletScript : (record? WalletScript s ⟨walletId, o.txout.script⟩).isSome = true
  coin : (record? Coin s o.outpoint).isSome = true

/-- Outputs make their records one after the other. -/
theorem inserted_of_commit {α κ : Type} [Entity α κ] [Stored α] [Pointwise α] {walletId : String}
    {make : SpendableOutput → α}
    (hmake : ∀ o (k : κ) (found : Option α), Pointwise.onAll k (batch walletId o) found =
      if rowKey α (Entity.key (make o)) = rowKey α k then found.or (some (make o)) else found)
    {outputs : List SpendableOutput} {s s' : Store} (hs : Sound α s)
    (h : commit s (outputs.flatMap (batch walletId)) = .ok s') :
    Inserted (outputs.map make) s s' := by
  intro k
  rw [Pointwise.record?_commit hs h]
  generalize record? α s k = found
  clear h
  induction outputs generalizing found with
  | nil => simp
  | cons o outputs ih =>
      rw [List.flatMap_cons, Pointwise.onAll_append, hmake, ih, List.map_cons, List.find?_cons]
      by_cases hkey : rowKey α (Entity.key (make o)) = rowKey α k
      · simp [hkey]
      · simp [hkey]

theorem inserted_script {walletId : String} {outputs : List SpendableOutput} {s s' : Store}
    (hs : WellFormed s) (h : commit s (outputs.flatMap (batch walletId)) = .ok s') :
    Inserted (outputs.map scriptRecord) s s' := by
  refine inserted_of_commit (fun o k found => ?_) hs.sound h
  simp only [rowKey_inj]
  rfl

theorem inserted_walletScript {walletId : String} {outputs : List SpendableOutput} {s s' : Store}
    (hs : WellFormed s) (h : commit s (outputs.flatMap (batch walletId)) = .ok s') :
    Inserted (outputs.map (walletScript walletId)) s s' :=
  inserted_of_commit (fun _ _ _ => rfl) hs.sound h

theorem inserted_coin {walletId : String} {outputs : List SpendableOutput} {s s' : Store}
    (hs : WellFormed s) (h : commit s (outputs.flatMap (batch walletId)) = .ok s') :
    Inserted (outputs.map coin) s s' := by
  refine inserted_of_commit (fun o k found => ?_) hs.sound h
  simp only [rowKey_inj]
  rfl

/-! ### Data for channels -/

/-- The data of the last output that names the input by which a coin is spent. -/
def attachedData (outputs : List SpendableOutput) (coin : Option Coin) : Option Bytes :=
  (coin.bind Coin.spentBy).bind fun t =>
    (outputs.reverse.find? fun o => o.outpoint = ⟨t.txid, t.inputIndex⟩).map SpendableOutput.data

theorem attachedData_nil (coin : Option Coin) : attachedData [] coin = none := by
  cases h : coin.bind Coin.spentBy <;> simp [attachedData, h]

/-- Later outputs have the last word. -/
theorem attachedData_cons (o : SpendableOutput) (outputs : List SpendableOutput)
    (coin : Option Coin) :
    attachedData (o :: outputs) coin = (attachedData outputs coin).or
      (if coin.any (·.isSpentByInput o.outpoint) then some o.data else none) := by
  rcases coin with _ | ⟨outpoint, script, value, _ | t⟩
  · rfl
  · rfl
  · have hspent : Coin.isSpentByInput ⟨outpoint, script, value, some t⟩ o.outpoint =
        decide (o.outpoint = ⟨t.txid, t.inputIndex⟩) := by
      rcases t with ⟨txid, index⟩
      rcases o with ⟨⟨txid', vout⟩, txout, data⟩
      rw [Bool.eq_iff_iff, Coin.isSpentByInput, beq_iff_eq, decide_eq_true_iff]
      simp only [Option.some.injEq, SpentBy.mk.injEq, Outpoint.mk.injEq, eq_comm]
    simp only [attachedData, Option.bind_some, Option.any_some, hspent, List.reverse_cons,
      List.find?_append, Option.map_or]
    congr 1
    by_cases ho : o.outpoint = ⟨t.txid, t.inputIndex⟩ <;> simp [ho]

end Ledger.SpendableOutput

open Ledger.SpendableOutput

/-- The channel with the data of outputs attached to it, given its funding coin. -/
def Channel.collect (outputs : List SpendableOutput) (coin : Option Coin) (c : Channel) : Channel :=
  { c with spendableData := (attachedData outputs coin).or c.spendableData }

/-- A coin that is unspent, made where there was none, makes no difference to what is spent. -/
theorem spentBy_or {coin made : Option Coin} (hmade : ∀ c, made = some c → c.spentBy = none) :
    (coin.or made).bind Coin.spentBy = coin.bind Coin.spentBy := by
  cases coin with
  | some c => rfl
  | none =>
      cases made with
      | none => rfl
      | some c => exact hmade c rfl

/-- The coin of an output is unspent. -/
theorem spentBy_ite_or (o : SpendableOutput) (coin : Option Coin) (p : Prop) [Decidable p] :
    (if p then coin.or (some o.coin) else coin).bind Coin.spentBy = coin.bind Coin.spentBy := by
  split
  · exact spentBy_or (by rintro c ⟨⟩; rfl)
  · rfl

theorem any_isSpentByInput_eq {coin coin' : Option Coin}
    (h : coin.bind Coin.spentBy = coin'.bind Coin.spentBy) (spending : Outpoint) :
    coin.any (·.isSpentByInput spending) = coin'.any (·.isSpentByInput spending) := by
  have hspent : ∀ coin : Option Coin, coin.any (·.isSpentByInput spending) =
      (coin.bind Coin.spentBy == some ⟨spending.txid, spending.vout⟩) := by
    rintro (_ | c) <;> rfl
  rw [hspent, hspent, h]

theorem attachedData_eq {coin coin' : Option Coin}
    (h : coin.bind Coin.spentBy = coin'.bind Coin.spentBy) (outputs : List SpendableOutput) :
    attachedData outputs coin = attachedData outputs coin' := by
  rw [attachedData, h, attachedData]

/-- One output makes its coin, and attaches its data to the channel if the funding coin, as it was,
is spent by the input that the output names. -/
theorem foldl_onFunding_output (walletId : String) (o : SpendableOutput) (k : ChannelKey)
    (coin : Option Coin) (found : Option Channel) :
    (o.batch walletId).foldl (Operation.onFunding k) (coin, found) =
      (if o.outpoint = k.funding then coin.or (some o.coin) else coin,
        if k.walletId = walletId ∧ coin.any (·.isSpentByInput o.outpoint) then
          found.map (Channel.attach o.data)
        else found) := by
  have hmade : (o.batch walletId).foldl (Operation.onFunding k) (coin, found) =
      Operation.onFunding k (if o.outpoint = k.funding then coin.or (some o.coin) else coin, found)
        (.attachSpendableData walletId o.outpoint o.data) := rfl
  rw [hmade, Operation.onFunding, Operation.onChannel,
    any_isSpentByInput_eq (spentBy_ite_or o coin _)]
  rfl

/-- Outputs attach their data as if all of them were compared with the funding coin as it was. -/
theorem foldl_onFunding_batch (walletId : String) (outputs : List SpendableOutput) (k : ChannelKey)
    (coin : Option Coin) (found : Option Channel) :
    ((outputs.flatMap (SpendableOutput.batch walletId)).foldl (Operation.onFunding k)
        (coin, found)).2 =
      found.map fun c => if k.walletId = walletId then c.collect outputs coin else c := by
  induction outputs generalizing coin found with
  | nil => simp [Channel.collect, attachedData_nil]
  | cons o outputs ih =>
      rw [List.flatMap_cons, List.foldl_append, foldl_onFunding_output, ih]
      cases found with
      | none => simp
      | some c =>
          simp only [Channel.collect, attachedData_eq (spentBy_ite_or o coin _), attachedData_cons]
          by_cases howner : k.walletId = walletId
          · by_cases hhit : coin.any (·.isSpentByInput o.outpoint) = true
            · simp [howner, hhit, Channel.attach]
            · simp [howner, hhit]
          · simp [howner]

/-! ### The whole effect -/

/-- The key is of a row that outputs of closed channels may make or change. -/
inductive Collects (walletId : String) (outputs : List SpendableOutput) (s : Store) : Bytes → Prop
    where
  | script (o : SpendableOutput) (ho : o ∈ outputs) :
      Collects walletId outputs s (rowKey ScriptRecord (Entity.key o.scriptRecord))
  | walletScript (o : SpendableOutput) (ho : o ∈ outputs) :
      Collects walletId outputs s (rowKey WalletScript (Entity.key (o.walletScript walletId)))
  | coin (o : SpendableOutput) (ho : o ∈ outputs) :
      Collects walletId outputs s (rowKey Coin (Entity.key o.coin))
  | channel (k : ChannelKey) (howner : k.walletId = walletId)
      (hdata : (attachedData outputs (record? Coin s k.funding)).isSome = true) :
      Collects walletId outputs s (rowKey Channel k)

/-- What recording outputs of closed channels for a wallet makes of a store. -/
structure Collected (walletId : String) (outputs : List SpendableOutput) (s s' : Store) : Prop where
  /-- The scripts are known, -/
  script : Inserted (outputs.map scriptRecord) s s'
  /-- as scripts of the wallet, at no known path if they are new, -/
  walletScript : Inserted (outputs.map (walletScript walletId)) s s'
  /-- and the coins are known, as unspent ones if they are new. -/
  coin : Inserted (outputs.map SpendableOutput.coin) s s'
  /-- Of the channels those of the wallet have data attached to them, as their funding coins tell. -/
  channel : ∀ k, record? Channel s' k = (record? Channel s k).map fun c =>
    if k.walletId = walletId then c.collect outputs (record? Coin s k.funding) else c
  /-- All other rows stay as they are. -/
  frame : ∀ key, ¬Collects walletId outputs s key → s'.get? key = s.get? key

namespace Collected

variable {walletId : String} {outputs : List SpendableOutput} {s s' s'' : Store}

theorem of_commit (hs : WellFormed s) (hplain : PlainOwners s) (hid : 0 ∉ Bytes.utf8 walletId)
    (h : commit s (outputs.flatMap (SpendableOutput.batch walletId)) = .ok s') :
    Collected walletId outputs s s' := by
  have hs' : WellFormed s' := hs.commit h
  have hscript := inserted_script hs h
  have hwalletScript := inserted_walletScript hs h
  have hcoin := inserted_coin hs h
  have hbatch := plainOwner_of_mem_batch hid outputs
  have hchannel : ∀ k, record? Channel s' k = (record? Channel s k).map fun c =>
      if k.walletId = walletId then c.collect outputs (record? Coin s k.funding) else c := by
    intro k
    rw [← foldl_onFunding_batch]
    exact congrArg Prod.snd (funding_commit hs hplain hbatch h k)
  refine ⟨hscript, hwalletScript, hcoin, hchannel, fun key hkey => ?_⟩
  refine hs.get?_eq hs' fun kind hkind => ?_
  cases kind with
  | script =>
      exact hscript.get?_eq hs.sound hs'.sound hkind
        (List.forall_mem_map.2 fun o ho heq => hkey (heq ▸ .script o ho))
  | walletScript =>
      exact hwalletScript.get?_eq hs.sound hs'.sound hkind
        (List.forall_mem_map.2 fun o ho heq => hkey (heq ▸ .walletScript o ho))
  | coin =>
      exact hcoin.get?_eq hs.sound hs'.sound hkind
        (List.forall_mem_map.2 fun o ho heq => hkey (heq ▸ .coin o ho))
  | channel =>
      refine hs.sound.get?_eq (α := Channel) hs'.sound hkind ?_
      rintro k rfl
      rw [hchannel]
      cases record? Channel s k with
      | none => rfl
      | some c =>
          rw [Option.map_some]
          split
          · rename_i howner
            cases hdata : attachedData outputs (record? Coin s k.funding) with
            | none => simp [Channel.collect, hdata]
            | some data => exact absurd (.channel k howner (by rw [hdata]; rfl)) hkey
          · rfl
  | wallet | transaction | transactionScript | payment | blob =>
      refine (writes_commit h).sameRows (fun hmem => ?_) key hkind
      obtain ⟨op, hop, hwrites⟩ := List.mem_flatMap.1 hmem
      obtain ⟨o, -, hop⟩ := List.mem_flatMap.1 hop
      simp only [SpendableOutput.batch, List.mem_cons, List.not_mem_nil, or_false] at hop
      rcases hop with rfl | rfl | rfl | rfl <;> simp [Operation.writes] at hwrites

theorem known (h : Collected walletId outputs s s') {o : SpendableOutput} (ho : o ∈ outputs) :
    o.Known walletId s' where
  script := h.script.isSome (List.mem_map_of_mem ho)
  walletScript := h.walletScript.isSome (List.mem_map_of_mem ho)
  coin := h.coin.isSome (List.mem_map_of_mem ho)

theorem path_of_new (h : Collected walletId outputs s s') {k : WalletScriptKey} {w : WalletScript}
    (hnone : record? WalletScript s k = none) (hw : record? WalletScript s' k = some w) :
    w.derivationPath = none := by
  obtain ⟨o, -, rfl⟩ := List.mem_map.1 (h.walletScript.mem_of_record? hnone hw)
  rfl

theorem spentBy_of_new (h : Collected walletId outputs s s') {o : Outpoint} {c : Coin}
    (hnone : record? Coin s o = none) (hc : record? Coin s' o = some c) : c.spentBy = none := by
  obtain ⟨p, -, rfl⟩ := List.mem_map.1 (h.coin.mem_of_record? hnone hc)
  rfl

/-- What is known about the spending of a coin stays. -/
theorem spentBy_eq (h : Collected walletId outputs s s') (o : Outpoint) :
    (record? Coin s' o).bind Coin.spentBy = (record? Coin s o).bind Coin.spentBy := by
  rw [h.coin]
  refine spentBy_or fun c hc => ?_
  obtain ⟨p, -, rfl⟩ := List.mem_map.1 (List.mem_of_find?_eq_some hc)
  rfl

/-- When the outputs come again, the data that they attach is attached already. -/
theorem record?_channel_again (h : Collected walletId outputs s s')
    (h' : Collected walletId outputs s' s'') (k : ChannelKey) :
    record? Channel s'' k = record? Channel s' k := by
  rw [h'.channel, h.channel, Option.map_map]
  refine Option.map_congr fun c _ => ?_
  by_cases howner : k.walletId = walletId
  · simp only [Function.comp_apply, if_pos howner, Channel.collect,
      attachedData_eq (h.spentBy_eq k.funding), ← Option.or_assoc, Option.or_self]
  · simp only [Function.comp_apply, if_neg howner]

/-- When the outputs come again, they change nothing. -/
theorem again (hs' : WellFormed s') (hs'' : WellFormed s'') (h : Collected walletId outputs s s')
    (h' : Collected walletId outputs s' s'') : s'' = s' := by
  refine ByteMap.ext_get? fun key => ?_
  by_cases hkey : Collects walletId outputs s' key
  · cases hkey with
    | script o ho => rw [hs''.sound.get?_rowKey, hs'.sound.get?_rowKey, h.script.again h'.script]
    | walletScript o ho =>
        rw [hs''.sound.get?_rowKey, hs'.sound.get?_rowKey, h.walletScript.again h'.walletScript]
    | coin o ho => rw [hs''.sound.get?_rowKey, hs'.sound.get?_rowKey, h.coin.again h'.coin]
    | channel k howner hdata =>
        rw [hs''.sound.get?_rowKey, hs'.sound.get?_rowKey, h.record?_channel_again h']
  · exact h'.frame key hkey

end Collected

/-- Outputs can always be recorded. -/
theorem exists_run_attachSpendableData {l : Ledger} (hs : WellFormed l.store) (walletId : String)
    (outputs : List SpendableOutput) :
    ∃ s', commit l.store (outputs.flatMap (SpendableOutput.batch walletId)) = .ok s' ∧
      l.run (attachSpendableData walletId outputs) = (.ok (), { l with store := s' }) := by
  have hneeds : ∀ op ∈ outputs.flatMap (SpendableOutput.batch walletId),
      op.needsWallet = false := by
    simp only [List.forall_mem_flatMap]
    simp [SpendableOutput.batch, Operation.needsWallet]
  obtain ⟨s', hcommit⟩ := exists_commit_eq_ok hs hneeds
  refine ⟨s', hcommit, ?_⟩
  rw [attachSpendableData, run_write, hcommit]

/-- **What recording outputs of closed channels does.**  In a store in which the names of wallets are
plain, outputs are recorded for any plain name.  Afterwards their scripts and coins are known; those
that were known before are as they were, and new ones have no path and are unspent.  A channel of
the wallet whose funding coin is spent has the data attached of the last output that names the input
that spends it, if there is one, and keeps what is attached otherwise; its own data stays, and so do
the channels of other wallets.  All other rows stay as they are, and nothing changes if the outputs
are recorded once more. -/
theorem collected_of_attachSpendableData {l : Ledger} (hs : WellFormed l.store)
    (hplain : PlainOwners l.store) {walletId : String} (hid : 0 ∉ Bytes.utf8 walletId)
    (outputs : List SpendableOutput) :
    ∃ s', l.run (attachSpendableData walletId outputs) = (.ok (), { l with store := s' }) ∧
      Collected walletId outputs l.store s' ∧
      (∀ o ∈ outputs, o.Known walletId s') ∧
      (∀ k w, record? WalletScript l.store k = none → record? WalletScript s' k = some w →
        w.derivationPath = none) ∧
      (∀ o c, record? Coin l.store o = none → record? Coin s' o = some c → c.spentBy = none) ∧
      ({ l with store := s' } : Ledger).run (attachSpendableData walletId outputs) =
        (.ok (), { l with store := s' }) := by
  obtain ⟨s', hcommit, hrun⟩ := exists_run_attachSpendableData hs walletId outputs
  have hs' : WellFormed s' := hs.commit hcommit
  obtain ⟨s'', hcommit', hrun'⟩ :=
    exists_run_attachSpendableData (l := { l with store := s' }) hs' walletId outputs
  have hplain' : PlainOwners s' := hplain.commit hs (plainOwner_of_mem_batch hid outputs) hcommit
  have hcollected := Collected.of_commit hs hplain hid hcommit
  have hagain := Collected.of_commit hs' hplain' hid hcommit'
  have hsame : s'' = s' := hcollected.again hs' (hs'.commit hcommit') hagain
  exact ⟨s', hrun, hcollected, fun _ ho => hcollected.known ho,
    fun _ _ hnone hw => hcollected.path_of_new hnone hw,
    fun _ _ hnone hc => hcollected.spentBy_of_new hnone hc, by rw [hrun', hsame]⟩

theorem plainOwners_aliasLedger : PlainOwners aliasLedger.store :=
  plainOwners_empty.serve (.opened .regtest none) trivial

/-- A payment that is spent funds a channel, and the output of the transaction that spends it is
recorded. -/
theorem collected_of_attachSpendableData_spentPayment :
    ∃ l l' : Ledger, l = (aliasLedger.serveAll (spentPayment.map Report.request)).serve
        (.upsertChannel "alice" ⟨repeatedTxid 1, 0⟩ [1]) ∧
      l.run (attachSpendableData "alice" [⟨⟨repeatedTxid 2, 0⟩, ⟨900, aliasScript⟩, [2]⟩]) =
        (.ok (), l') ∧
      record? Channel l'.store ⟨"alice", ⟨repeatedTxid 1, 0⟩⟩ =
        some ⟨"alice", ⟨repeatedTxid 1, 0⟩, [1], some [2]⟩ := by
  have hreach : Reachable (aliasLedger.serveAll (spentPayment.map Report.request)) :=
    reachable_aliasLedger.serveAll _
  have hplain : PlainOwners (aliasLedger.serveAll (spentPayment.map Report.request)).store :=
    plainOwners_aliasLedger.serveAll reachable_aliasLedger (by decide)
  have hcoin : record? Coin (aliasLedger.serveAll (spentPayment.map Report.request)).store
      ⟨repeatedTxid 1, 0⟩ =
        some ⟨⟨repeatedTxid 1, 0⟩, aliasScript, 1000, some ⟨repeatedTxid 2, 0⟩⟩ := by
    rw [record?_coin_serveAll reachable_aliasLedger.wellFormed, record?_aliasLedger (by decide),
      heard_aliasLedger (by simp [spentPayment])]
    decide
  generalize aliasLedger.serveAll (spentPayment.map Report.request) = l₀ at hreach hplain hcoin
  have hs : WellFormed l₀.store := hreach.wellFormed
  let kept : Request := .upsertChannel "alice" ⟨repeatedTxid 1, 0⟩ [1]
  have hcoins : SameRows .coin l₀.store (l₀.serve kept).store := sameRows_serve hs.sound (by decide)
  have hid : 0 ∉ Bytes.utf8 "alice" := by decide
  obtain ⟨s', hrun, hcollected, -, -, -⟩ := collected_of_attachSpendableData (wellFormed_serve hs kept)
    (hplain.serve hreach hid) hid [⟨⟨repeatedTxid 2, 0⟩, ⟨900, aliasScript⟩, [2]⟩]
  refine ⟨_, _, rfl, hrun, ?_⟩
  rw [hcollected.channel, hcoins.record?_eq (α := Coin), hcoin,
    record?_serve_upsertChannel hs, if_pos rfl, Option.map_some, if_pos rfl]
  rfl

end CoinLedger
