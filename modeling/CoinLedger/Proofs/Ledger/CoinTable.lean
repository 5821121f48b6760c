import CoinLedger.Ledger.Ingest
import CoinLedger.Proofs.Store.Frame

/-! # The coin table under operations

`Operation.onCoin` says what an operation does to the coin with a given outpoint, looking at nothing
but that coin.  `record?_apply` says that the table obeys it, and `record?_commit` that it obeys a
whole batch, which therefore acts on each coin by itself. -/

namespace CoinLedger

/-- The coin after a transaction that may have spent it is gone. -/
def Coin.released (txid : Txid) (c : Coin) : Coin :=
  if c.isSpentByTransaction txid then { c with spentBy := none } else c

@[simp] theorem Coin.utxo_released (txid : Txid) (c : Coin) :
    (c.released txid).utxo = c.utxo := by
  unfold released
  split <;> rfl

theorem Coin.spentBy_released {txid : Txid} {c : Coin} {s : SpentBy} :
    (c.released txid).spentBy = some s ↔ c.spentBy = some s ∧ s.txid ≠ txid := by
  unfold released isSpentByTransaction
  cases hspent : c.spentBy with
  | none => simp [hspent]
  | some s' =>
      by_cases htxid : s'.txid = txid
      · simp only [htxid, beq_self_eq_true, if_true]
        constructor
        · rintro ⟨⟩
        · rintro ⟨h, hne⟩
          exact absurd (Option.some.inj h ▸ htxid) hne
      · simp only [beq_iff_eq, htxid, if_false, hspent]
        constructor
        · rintro h
          exact ⟨h, Option.some.inj h ▸ htxid⟩
        · exact fun h => h.1

theorem Coin.released_eq (txid : Txid) (c : Coin) :
    c.released txid = { c with spentBy := c.spentBy.filter fun s => s.txid ≠ txid } := by
  obtain ⟨outpoint, script, value, spentBy⟩ := c
  cases spentBy with
  | none => rfl
  | some s =>
      by_cases htxid : s.txid = txid <;>
        simp [released, isSpentByTransaction, Option.filter, htxid]

/-- A coin stays that the transaction does not spend. -/
theorem Coin.released_eq_self {txid : Txid} {c : Coin}
    (h : ∀ s, c.spentBy = some s → s.txid ≠ txid) : c.released txid = c := by
  obtain ⟨outpoint, script, value, spentBy⟩ := c
  cases spentBy with
  | none => rfl
  | some s => simp [released_eq, Option.filter, h s rfl]

theorem Coin.released_released (txid : Txid) (c : Coin) :
    (c.released txid).released txid = c.released txid := by
  simp [released_eq, Option.filter_filter]

theorem Coin.released_comm (txid other : Txid) (c : Coin) :
    (c.released txid).released other = (c.released other).released txid := by
  simp [released_eq, Option.filter_filter, Bool.and_comm]

/-! ### The coins of a sound table -/

theorem Sound.allCoins {s : Store} (hs : Sound Coin s) :
    allCoins s = .ok (recordsFrom Coin s (RowRange.kind .coin).start) :=
  hs.scanEntities rfl

theorem Sound.mem_coins {s : Store} (hs : Sound Coin s) {c : Coin} :
    c ∈ recordsFrom Coin s (RowRange.kind .coin).start ↔ record? Coin s c.outpoint = some c := by
  rw [hs.mem_recordsFrom rfl]
  exact ⟨fun h => h.1, fun h => ⟨h, rowKey_startsWith_kind (α := Coin) c.outpoint⟩⟩

theorem Sound.mem_coinsFundedBy {s : Store} (hs : Sound Coin s) {txid : Txid} {c : Coin} :
    c ∈ recordsFrom Coin s (RowRange.coinsFundedBy txid).start ↔
      record? Coin s c.outpoint = some c ∧ c.outpoint.txid = txid := by
  rw [hs.mem_recordsFrom rfl]
  exact and_congr Iff.rfl coinsFundedBy_start_prefix_iff

namespace Operation

/-- What an operation makes of the coin with this outpoint. -/
def onCoin (o : Outpoint) : Operation → Option Coin → Option Coin
  | retractTransaction txid, found => if o.txid = txid then none else found.map (Coin.released txid)
  | insertCoin c, found => if c.outpoint = o then found.or (some c) else found
  | mergeCoinSpend c, found =>
      if c.outpoint = o then some { found.getD c with spentBy := c.spentBy } else found
  | _, found => found

theorem onCoin_of_notMem_writes {op : Operation} (hop : EntityKind.coin ∉ op.writes) (o : Outpoint)
    (found : Option Coin) : op.onCoin o found = found := by
  cases op with
  | retractTransaction _ | insertCoin _ | mergeCoinSpend _ => simp [writes] at hop
  | _ => rfl

/-! ### Operations on the table -/

variable {s s' : Store}

theorem record?_insertCoin (hs : Sound Coin s) {c : Coin} (h : apply s (insertCoin c) = .ok s') :
    Sound Coin s' ∧ ∀ o, record? Coin s' o = (insertCoin c).onCoin o (record? Coin s o) := by
  have hkey : ∀ a, inserted c (record? Coin s c.outpoint) = some a → a.outpoint = c.outpoint := by
    intro a ha
    cases hfound : record? Coin s c.outpoint with
    | none =>
        rw [hfound] at ha
        rw [← Option.some.inj ha]
    | some known =>
        rw [hfound] at ha
        cases ha
  obtain ⟨hs', hrecord⟩ := hs.reviseEntity_comp_ok hkey h
  refine ⟨hs', ?_⟩
  intro o
  rw [hrecord, onCoin]
  split
  · cases record? Coin s o <;> rfl
  · rfl

theorem record?_mergeCoinSpend (hs : Sound Coin s) {c : Coin}
    (h : apply s (mergeCoinSpend c) = .ok s') :
    Sound Coin s' ∧ ∀ o, record? Coin s' o = (mergeCoinSpend c).onCoin o (record? Coin s o) := by
  have hkey : ∀ a, mergedSpend c (record? Coin s c.outpoint) = some a →
      a.outpoint = c.outpoint := by
    intro a ha
    cases hfound : record? Coin s c.outpoint with
    | none =>
        rw [hfound] at ha
        rw [← Option.some.inj ha]
    | some known =>
        have hknown : known.outpoint = c.outpoint := hs.key_eq hfound
        rw [hfound, mergedSpend] at ha
        split at ha
        · rw [← Option.some.inj ha]
          exact hknown
        · cases ha
  obtain ⟨hs', hrecord⟩ := hs.reviseEntity_comp_ok hkey h
  refine ⟨hs', ?_⟩
  intro o
  rw [hrecord, onCoin]
  split
  · cases record? Coin s o with
    | none => rfl
    | some known =>
        rw [mergedSpend]
        split
        · rfl
        · rename_i heq
          rw [Option.none_or, Option.getD_some, ← not_not.1 heq]
  · rfl

/-- The coins that a transaction made are those whose outpoints name it. -/
theorem record?_removeEntities_coinsFundedBy (hs : Sound Coin s) (hrows : SameRows .coin s s')
    (txid : Txid) (o : Outpoint) :
    record? Coin (removeEntities Coin s'
        ((recordsFrom Coin s (RowRange.coinsFundedBy txid).start).map Entity.key)) o =
      if o.txid = txid then none else record? Coin s o := by
  rw [record?_removeEntities_recordsFrom hs hrows rfl]
  simp only [coinsFundedBy_start_prefix_iff]

/-- The coins that a transaction may have spent are written anew, and the others stay. -/
theorem record?_putEntities_released (hs : Sound Coin s) (txid : Txid) (o : Outpoint) :
    record? Coin (putEntities s (((recordsFrom Coin s (RowRange.kind .coin).start).filter
        fun c => c.isSpentByTransaction txid).map fun c => { c with spentBy := none })) o =
      (record? Coin s o).map (Coin.released txid) := by
  rcases record?_putEntities s (((recordsFrom Coin s (RowRange.kind .coin).start).filter
      fun c => c.isSpentByTransaction txid).map fun c => { c with spentBy := none }) o with
    ⟨a, ha, hkey, hrecord⟩ | ⟨hnone, hrecord⟩
  · obtain ⟨c, hc, rfl⟩ := List.mem_map.1 ha
    obtain ⟨hmem, hspent⟩ := List.mem_filter.1 hc
    have hfound : record? Coin s o = some c :=
      (congrArg (record? Coin s) hkey).symm.trans (hs.mem_coins.1 hmem)
    rw [hrecord, hfound, Option.map_some, Coin.released, if_pos hspent]
  · rw [hrecord]
    cases hfound : record? Coin s o with
    | none => rfl
    | some c =>
        have hc : c.outpoint = o := hs.key_eq hfound
        have hmem : c ∈ recordsFrom Coin s (RowRange.kind .coin).start := by
          rw [hs.mem_coins, hc]
          exact hfound
        have hspent : ¬c.isSpentByTransaction txid = true := by
          intro hspent
          exact hnone _ (List.mem_map.2 ⟨c, List.mem_filter.2 ⟨hmem, hspent⟩, rfl⟩) hc
        rw [Option.map_some, Coin.released, if_neg hspent]

theorem record?_retract (hs : Sound Coin s) {txid : Txid} (h : retract txid s = .ok s') :
    Sound Coin s' ∧ ∀ o, record? Coin s' o = (retractTransaction txid).onCoin o (record? Coin s o) := by
  obtain ⟨funded, closed, scripts, coins, s₁, s₂, hfunded, -, hs₁, -, hs₂, hcoins, rfl⟩ :=
    retract_ok h
  have hclosed : SameRows .coin s (removeEntities Channel s (closed.map Entity.key)) :=
    .removeEntities (by decide) s _
  have hfunded' : funded = recordsFrom Coin s (RowRange.coinsFundedBy txid).start := by
    have hscan : coinsFundedBy s txid = .ok _ := hs.scanEntities rfl
    exact Except.ok.inj (hfunded.symm.trans hscan)
  have hsound₁ : Sound Coin s₁ := by
    rw [hs₁]
    exact (hclosed.sound hs).removeEntities _
  have htraces : SameRows .coin s₁ s₂ := by
    rw [hs₂]
    exact (SameRows.removeEntities (by decide) s₁ _).trans (.removeEntity (by decide) _ txid)
  have hsound₂ : Sound Coin s₂ := htraces.sound hsound₁
  have hgone : ∀ o, record? Coin s₂ o = if o.txid = txid then none else record? Coin s o := by
    intro o
    rw [htraces.record?_eq, hs₁, hfunded', record?_removeEntities_coinsFundedBy hs hclosed]
  have hcoins' : coins = recordsFrom Coin s₂ (RowRange.kind .coin).start :=
    Except.ok.inj (hcoins.symm.trans hsound₂.allCoins)
  refine ⟨hsound₂.putEntities _, ?_⟩
  intro o
  rw [hcoins', record?_putEntities_released hsound₂, hgone, onCoin]
  split <;> rfl

/-- The coin table obeys an operation coin by coin. -/
theorem record?_apply (hs : Sound Coin s) {op : Operation} (h : apply s op = .ok s') :
    Sound Coin s' ∧ ∀ o, record? Coin s' o = op.onCoin o (record? Coin s o) := by
  by_cases hop : EntityKind.coin ∈ op.writes
  · cases op with
    | retractTransaction txid => exact record?_retract hs h
    | insertCoin c => exact record?_insertCoin hs h
    | mergeCoinSpend c => exact record?_mergeCoinSpend hs h
    | _ => simp [writes] at hop
  · have hrows : SameRows .coin s s' := (writes_apply h).sameRows hop
    refine ⟨hrows.sound hs, ?_⟩
    intro o
    rw [onCoin_of_notMem_writes hop]
    exact hrows.record?_eq o

end Operation

/-- The coin table obeys a batch coin by coin. -/
theorem record?_commit {s s' : Store} {batch : Batch} (hs : Sound Coin s)
    (h : commit s batch = .ok s') :
    Sound Coin s' ∧ ∀ o, record? Coin s' o =
      batch.foldl (fun found op => op.onCoin o found) (record? Coin s o) := by
  rw [commit_eq_foldlM] at h
  induction batch generalizing s with
  | nil =>
      obtain rfl : s = s' := Except.ok.inj h
      exact ⟨hs, fun o => rfl⟩
  | cons op batch ih =>
      obtain ⟨t, hop, h⟩ := foldlM_ok h
      obtain ⟨ht, hrecord⟩ := Operation.record?_apply hs hop
      obtain ⟨hs', hrest⟩ := ih ht h
      refine ⟨hs', ?_⟩
      intro o
      rw [hrest, hrecord, List.foldl_cons]

end CoinLedger
