import CoinLedger.Proofs.Store.Batch
import CoinLedger.Proofs.Store.Table

/-! # What operations write

Whatever an operation does, it puts and removes records of a few kinds, `Operation.writes`.
`Writes` is the relation of the stores between which there are only such steps, and `writes_apply`
says that an operation stays in it.

Two consequences are drawn.  The rows of all other kinds stay as they are (`Writes.sameRows`), and a
store whose rows all hold records of the schema (`WellFormed`) is led to such a store
(`Writes.wellFormed`).  On well-formed stores only the operations that need a wallet, or its absence,
can fail: `exists_apply_eq_ok` says that the others are carried out. -/

namespace CoinLedger

/-! ### Well-formed stores -/

/-- The row holds a record of this kind under the record's own key. -/
def IsRowOf : EntityKind → Bytes → Bytes → Prop
  | .wallet => IsRow Wallet
  | .script => IsRow ScriptRecord
  | .walletScript => IsRow WalletScript
  | .transaction => IsRow TransactionRecord
  | .transactionScript => IsRow TransactionScript
  | .coin => IsRow Coin
  | .channel => IsRow Channel
  | .payment => IsRow Payment
  | .blob => IsRow Blob

/-- All rows hold records of the schema under their own keys. -/
def WellFormed (s : Store) : Prop :=
  ∀ key value, s.get? key = some value → ∃ kind, IsRowOf kind key value

/-- Records of this type are the records of their kind. -/
class Stored (α : Type) {κ : outParam Type} [Entity α κ] : Prop where
  isRowOf_kind : IsRowOf (Entity.kind α) = IsRow α

instance : Stored Wallet := ⟨rfl⟩

instance : Stored ScriptRecord := ⟨rfl⟩

instance : Stored WalletScript := ⟨rfl⟩

instance : Stored TransactionRecord := ⟨rfl⟩

instance : Stored TransactionScript := ⟨rfl⟩

instance : Stored Coin := ⟨rfl⟩

instance : Stored Channel := ⟨rfl⟩

instance : Stored Payment := ⟨rfl⟩

instance : Stored Blob := ⟨rfl⟩

theorem IsRow.head? {α κ : Type} [Entity α κ] {key value : Bytes} (h : IsRow α key value) :
    key.head? = some (Entity.kind α).byte := by
  obtain ⟨a, rfl, -⟩ := h
  rfl

theorem IsRowOf.head? {kind : EntityKind} {key value : Bytes} (h : IsRowOf kind key value) :
    key.head? = some kind.byte := by
  cases kind <;> exact IsRow.head? h

theorem wellFormed_empty : WellFormed ByteMap.empty := fun key value h => by simp at h

/-- A row of well-formed stores is of some kind, or there is none. -/
theorem WellFormed.get?_eq {s s' : Store} (hs : WellFormed s) (hs' : WellFormed s') {key : Bytes}
    (h : ∀ kind : EntityKind, key.head? = some kind.byte → s'.get? key = s.get? key) :
    s'.get? key = s.get? key := by
  cases hget : s.get? key with
  | some value =>
      obtain ⟨kind, hrow⟩ := hs key value hget
      rw [h kind hrow.head?, hget]
  | none =>
      cases hget' : s'.get? key with
      | none => rfl
      | some value =>
          obtain ⟨kind, hrow⟩ := hs' key value hget'
          rw [← hget, ← h kind hrow.head?, hget']

/-- Well-formed stores are the same if they have the same rows of each kind. -/
theorem WellFormed.ext {s s' : Store} (hs : WellFormed s) (hs' : WellFormed s')
    (h : ∀ kind, SameRows kind s s') : s = s' :=
  ByteMap.ext_get? fun key => (hs.get?_eq hs' fun kind hkey => h kind key hkey).symm

section

variable {α κ : Type} [Entity α κ] [Stored α] {s : Store}

/-- The tables of a well-formed store are sound. -/
theorem WellFormed.sound (hs : WellFormed s) : Sound α s := by
  intro key value hvalue hkey
  obtain ⟨kind, hrow⟩ := hs key value hvalue
  have hbyte : kind.byte = (Entity.kind α).byte :=
    Option.some.inj (hrow.head?.symm.trans hkey)
  obtain rfl : kind = Entity.kind α := EntityKind.byte_injective hbyte
  rwa [Stored.isRowOf_kind] at hrow

theorem WellFormed.putEntity (hs : WellFormed s) (a : α) : WellFormed (putEntity s a) := by
  intro key value hvalue
  rw [get?_putEntity] at hvalue
  split at hvalue
  · rename_i hkey
    refine ⟨Entity.kind α, ?_⟩
    rw [Stored.isRowOf_kind]
    exact ⟨a, hkey, Option.some.inj hvalue⟩
  · exact hs key value hvalue

omit [Stored α] in
theorem WellFormed.removeEntity (hs : WellFormed s) (k : κ) : WellFormed (removeEntity α s k) := by
  intro key value hvalue
  rw [get?_removeEntity] at hvalue
  split at hvalue
  · cases hvalue
  · exact hs key value hvalue

end

/-! ### Steps that write records of some kinds -/

/-- The second store is reached from the first by putting and removing records of these kinds. -/
inductive Writes (kinds : List EntityKind) (s : Store) : Store → Prop where
  | refl : Writes kinds s s
  | put {α κ : Type} [Entity α κ] [Stored α] {s' : Store} (a : α)
      (hkind : Entity.kind α ∈ kinds) (h : Writes kinds s s') : Writes kinds s (putEntity s' a)
  | remove {α κ : Type} [Entity α κ] {s' : Store} (key : κ)
      (hkind : Entity.kind α ∈ kinds) (h : Writes kinds s s') :
      Writes kinds s (removeEntity α s' key)

namespace Writes

variable {kinds more : List EntityKind} {s s' s'' : Store}

theorem trans (h : Writes kinds s s') (h' : Writes kinds s' s'') : Writes kinds s s'' := by
  induction h' with
  | refl => exact h
  | put a hkind _ ih => exact .put a hkind ih
  | remove key hkind _ ih => exact .remove key hkind ih

theorem mono (hsub : kinds ⊆ more) (h : Writes kinds s s') : Writes more s s' := by
  induction h with
  | refl => exact .refl
  | put a hkind _ ih => exact .put a (hsub hkind) ih
  | remove key hkind _ ih => exact .remove key (hsub hkind) ih

/-- The rows of all other kinds stay as they are. -/
theorem sameRows {kind : EntityKind} (hkind : kind ∉ kinds) (h : Writes kinds s s') :
    SameRows kind s s' := by
  induction h with
  | refl => exact .refl kind s
  | put a ha _ ih =>
      refine ih.trans (.putEntity ?_ _ a)
      rintro rfl
      exact hkind ha
  | remove key hkey _ ih =>
      refine ih.trans (.removeEntity ?_ _ key)
      rintro rfl
      exact hkind hkey

theorem wellFormed (h : Writes kinds s s') (hs : WellFormed s) : WellFormed s' := by
  induction h with
  | refl => exact hs
  | put a _ _ ih => exact ih.putEntity a
  | remove key _ _ ih => exact ih.removeEntity key

section

variable {α κ : Type} [Entity α κ]

/-- A sound table stays sound, whichever records are written. -/
theorem sound [Stored α] (h : Writes kinds s s') (hs : Sound α s) : Sound α s' := by
  induction h with
  | refl => exact hs
  | @put β _ _ _ t b _ _ ih =>
      intro key value hvalue hkey
      rw [get?_putEntity] at hvalue
      split at hvalue
      · rename_i hb
        have hrow : IsRow β key value := ⟨b, hb, Option.some.inj hvalue⟩
        have hbyte : (Entity.kind β).byte = (Entity.kind α).byte :=
          Option.some.inj (hrow.head?.symm.trans hkey)
        rwa [← Stored.isRowOf_kind, EntityKind.byte_injective hbyte, Stored.isRowOf_kind] at hrow
      · exact ih key value hvalue hkey
  | remove key _ _ ih =>
      intro key' value hvalue hkey
      rw [get?_removeEntity] at hvalue
      split at hvalue
      · cases hvalue
      · exact ih key' value hvalue hkey

theorem reviseEntity [Stored α] (hkind : Entity.kind α ∈ kinds) {key : κ}
    {f : Option α → Except Error (Option α)} (h : reviseEntity α s key f = .ok s') :
    Writes kinds s s' := by
  obtain ⟨-, made, -, -, rfl⟩ := reviseEntity_ok h
  cases made with
  | none => exact .refl
  | some a => exact .put a hkind .refl

theorem putEntities [Stored α] (hkind : Entity.kind α ∈ kinds) :
    ∀ (s : Store) (as : List α), Writes kinds s (putEntities s as)
  | _, [] => .refl
  | s, a :: as => (Writes.put a hkind .refl).trans (putEntities hkind (putEntity s a) as)

theorem removeEntities (hkind : Entity.kind α ∈ kinds) :
    ∀ (s : Store) (keys : List κ), Writes kinds s (removeEntities α s keys)
  | _, [] => .refl
  | s, k :: keys =>
      (Writes.remove k hkind .refl).trans (removeEntities hkind (removeEntity α s k) keys)

end

end Writes

theorem WellFormed.removeEntities {α κ : Type} [Entity α κ] {s : Store} (hs : WellFormed s)
    (keys : List κ) : WellFormed (removeEntities α s keys) :=
  (Writes.removeEntities (List.mem_singleton.2 rfl) s keys).wellFormed hs

/-! ### Operations -/

/-- The kinds of records that an operation may write. -/
def Operation.writes : Operation → List EntityKind
  | insertWallet _ | raiseIndex _ _ | addAliases _ _ => [.wallet]
  | insertScript _ => [.script]
  | insertWalletScript _ | mergeWalletScript _ => [.walletScript]
  | upsertTransaction _ | setBlock _ _ => [.transaction]
  | retractTransaction _ => [.channel, .coin, .transactionScript, .transaction]
  | insertTransactionScript _ => [.transactionScript]
  | insertCoin _ | mergeCoinSpend _ => [.coin]
  | upsertChannel _ | attachSpendableData _ _ _ => [.channel]
  | upsertPayment _ | updatePayment _ _ _ => [.payment]
  | putBlob _ | deleteBlob _ => [.blob]

namespace Operation

variable {s s' : Store}

theorem attachTo_ok {spending : Outpoint} {data : Bytes} {c : Channel}
    (h : attachTo spending data s c = .ok s') :
    s' = s ∨ s' = putEntity s { c with spendableData := some data } := by
  obtain ⟨found, -, h⟩ := bind_ok h
  cases found with
  | none => exact .inl (Except.ok.inj h).symm
  | some coin =>
      simp only at h
      split at h
      · exact .inr (Except.ok.inj h).symm
      · exact .inl (Except.ok.inj h).symm

/-- The steps of a retraction, and what is read between them. -/
theorem retract_ok {txid : Txid} (h : retract txid s = .ok s') :
    ∃ funded closed scripts coins s₁ s₂, coinsFundedBy s txid = .ok funded ∧
      channelsFundedBy s funded = .ok closed ∧
      s₁ = removeEntities Coin (removeEntities Channel s (closed.map Entity.key))
        (funded.map Entity.key) ∧
      transactionScripts s₁ txid = .ok scripts ∧
      s₂ = removeEntity TransactionRecord
        (removeEntities TransactionScript s₁ (scripts.map Entity.key)) txid ∧
      allCoins s₂ = .ok coins ∧
      s' = putEntities s₂ ((coins.filter fun c => c.isSpentByTransaction txid).map
        fun c => { c with spentBy := none }) := by
  obtain ⟨funded, hfunded, h⟩ := bind_ok h
  obtain ⟨closed, hclosed, h⟩ := bind_ok h
  obtain ⟨scripts, hscripts, h⟩ := bind_ok h
  obtain ⟨coins, hcoins, h⟩ := bind_ok h
  exact ⟨funded, closed, scripts, coins, _, _, hfunded, hclosed, rfl, hscripts, rfl, hcoins,
    (Except.ok.inj h).symm⟩

theorem writes_retract {txid : Txid} (h : retract txid s = .ok s') :
    Writes (retractTransaction txid).writes s s' := by
  obtain ⟨funded, closed, scripts, coins, s₁, s₂, -, -, rfl, -, rfl, -, rfl⟩ := retract_ok h
  have hchannel : Entity.kind Channel ∈ (retractTransaction txid).writes := .head _
  have hcoin : Entity.kind Coin ∈ (retractTransaction txid).writes := .tail _ (.head _)
  have hscript : Entity.kind TransactionScript ∈ (retractTransaction txid).writes :=
    .tail _ (.tail _ (.head _))
  have hrecord : Entity.kind TransactionRecord ∈ (retractTransaction txid).writes :=
    .tail _ (.tail _ (.tail _ (.head _)))
  have hcoins := (Writes.removeEntities hchannel s (closed.map Entity.key)).trans
    (Writes.removeEntities hcoin _ (funded.map Entity.key))
  have hscripts := hcoins.trans (Writes.removeEntities hscript _ (scripts.map Entity.key))
  exact (Writes.remove txid hrecord hscripts).trans (Writes.putEntities hcoin _ _)

/-- An operation puts and removes records of its own kinds. -/
theorem writes_apply {op : Operation} (h : apply s op = .ok s') : Writes op.writes s s' := by
  cases op with
  | retractTransaction txid => exact writes_retract h
  | attachSpendableData walletId spending data =>
      obtain ⟨channels, -, h⟩ := bind_ok h
      refine foldlM_rel (Writes _) (fun _ => .refl) Writes.trans ?_ h
      intro s s' c _ hc
      rcases attachTo_ok hc with rfl | rfl
      · exact .refl
      · exact .put _ (by simp [writes, Entity.kind]) .refl
  | upsertPayment payment =>
      obtain rfl : putEntity s payment = s' := Except.ok.inj h
      exact .put _ (by simp [writes, Entity.kind]) .refl
  | putBlob blob =>
      obtain rfl : putEntity s blob = s' := Except.ok.inj h
      exact .put _ (by simp [writes, Entity.kind]) .refl
  | deleteBlob key =>
      obtain rfl : removeEntity Blob s key = s' := Except.ok.inj h
      exact .remove _ (by simp [writes, Entity.kind]) .refl
  | insertWallet _ | raiseIndex _ _ | addAliases _ _ | insertScript _ | insertWalletScript _
  | mergeWalletScript _ | upsertTransaction _ | setBlock _ _ | insertTransactionScript _
  | insertCoin _ | mergeCoinSpend _ | upsertChannel _ | updatePayment _ _ _ =>
      exact Writes.reviseEntity (by simp [writes, Entity.kind]) h

/-! ### Operations that are carried out -/

/-- Whether the operation asks for a wallet, or for its absence. -/
def needsWallet : Operation → Bool
  | insertWallet _ | raiseIndex _ _ | addAliases _ _ => true
  | _ => false

theorem exists_reviseEntity_eq_ok {α κ : Type} [Entity α κ] [LawfulEntity α] (hs : Sound α s)
    (key : κ) (f : Option α → Option α) : ∃ s', reviseEntity α s key (.ok ∘ f) = .ok s' := by
  unfold reviseEntity
  rw [hs.getEntity]
  cases hmade : f (record? α s key) with
  | none => exact ⟨s, by simp [bind, Except.bind, hmade]; rfl⟩
  | some a => exact ⟨putEntity s a, by simp [bind, Except.bind, hmade]; rfl⟩

theorem exists_attachTo_eq_ok (hs : WellFormed s) (spending : Outpoint) (data : Bytes)
    (c : Channel) : ∃ s', attachTo spending data s c = .ok s' := by
  unfold attachTo
  rw [hs.sound.getEntity]
  cases record? Coin s c.funding with
  | none => exact ⟨s, rfl⟩
  | some coin =>
      simp only [bind, Except.bind]
      split
      · exact ⟨_, rfl⟩
      · exact ⟨s, rfl⟩

theorem exists_foldlM_attachTo_eq_ok (spending : Outpoint) (data : Bytes) :
    ∀ {s : Store} (channels : List Channel), WellFormed s →
      ∃ s', channels.foldlM (attachTo spending data) s = .ok s'
  | s, [], _ => ⟨s, rfl⟩
  | s, c :: channels, hs => by
      obtain ⟨s', hs'⟩ := exists_attachTo_eq_ok hs spending data c
      have hwf : WellFormed s' := by
        rcases attachTo_ok hs' with rfl | rfl
        · exact hs
        · exact hs.putEntity _
      obtain ⟨s'', hs''⟩ := exists_foldlM_attachTo_eq_ok spending data channels hwf
      exact ⟨s'', by rw [List.foldlM_cons, hs']; exact hs''⟩

theorem exists_channelsFundedBy_eq_ok (hs : WellFormed s) (coins : List Coin) :
    ∃ closed, channelsFundedBy s coins = .ok closed := by
  have hall : channelsOf s none = .ok (recordsFrom Channel s (RowRange.kind .channel).start) :=
    hs.sound.scanEntities rfl
  unfold channelsFundedBy
  split
  · exact ⟨[], rfl⟩
  · rw [hall]
    exact ⟨_, rfl⟩

theorem exists_retract_eq_ok (hs : WellFormed s) (txid : Txid) :
    ∃ s', retract txid s = .ok s' := by
  have hfunded : coinsFundedBy s txid = .ok _ := hs.sound.scanEntities rfl
  obtain ⟨closed, hclosed⟩ := exists_channelsFundedBy_eq_ok hs
    (recordsFrom Coin s (RowRange.coinsFundedBy txid).start)
  unfold retract
  rw [hfunded]
  simp only [bind, Except.bind, hclosed]
  have hwf : WellFormed (removeEntities Coin (removeEntities Channel s (closed.map Entity.key))
      ((recordsFrom Coin s (RowRange.coinsFundedBy txid).start).map Entity.key)) :=
    (hs.removeEntities _).removeEntities _
  revert hwf
  generalize removeEntities Coin (removeEntities Channel s _) _ = s₁
  intro hwf
  have hscripts : transactionScripts s₁ txid = .ok _ := hwf.sound.scanEntities rfl
  simp only [hscripts]
  have hwf₂ := (hwf.removeEntities (α := TransactionScript)
    ((recordsFrom TransactionScript s₁ (RowRange.transactionScripts txid).start).map
      Entity.key)).removeEntity (α := TransactionRecord) txid
  have hcoins : allCoins _ = .ok _ := hwf₂.sound.scanEntities rfl
  rw [hcoins]
  exact ⟨_, rfl⟩

/-- On a well-formed store only operations that ask for a wallet or for its absence can fail. -/
theorem exists_apply_eq_ok (hs : WellFormed s) {op : Operation} (hop : op.needsWallet = false) :
    ∃ s', apply s op = .ok s' := by
  cases op with
  | insertWallet _ | raiseIndex _ _ | addAliases _ _ => cases hop
  | retractTransaction txid => exact exists_retract_eq_ok hs txid
  | attachSpendableData walletId spending data =>
      have hchannels : channelsOf s (some walletId) = .ok _ := hs.sound.scanEntities rfl
      simp only [apply, hchannels]
      exact exists_foldlM_attachTo_eq_ok spending data _ hs
  | upsertPayment _ | putBlob _ | deleteBlob _ => exact ⟨_, rfl⟩
  | upsertChannel channel => exact exists_reviseEntity_eq_ok hs.sound _ (some ∘ mergedChannel channel)
  | insertScript _ | insertWalletScript _ | mergeWalletScript _ | upsertTransaction _
  | setBlock _ _ | insertTransactionScript _ | insertCoin _ | mergeCoinSpend _
  | updatePayment _ _ _ => exact exists_reviseEntity_eq_ok hs.sound _ _

end Operation

/-- A batch puts and removes records of the kinds of its operations. -/
theorem writes_commit {s s' : Store} {batch : Batch} (h : commit s batch = .ok s') :
    Writes (batch.flatMap Operation.writes) s s' := by
  rw [commit_eq_foldlM] at h
  refine foldlM_rel (Writes _) (fun _ => .refl) Writes.trans ?_ h
  intro s s' op hop hs
  exact (Operation.writes_apply hs).mono fun kind hkind =>
    List.mem_flatMap.2 ⟨op, hop, hkind⟩

theorem WellFormed.commit {s s' : Store} {batch : Batch} (hs : WellFormed s)
    (h : commit s batch = .ok s') : WellFormed s' :=
  (writes_commit h).wellFormed hs

/-- A batch that writes records of one kind keeps each row whose record it keeps. -/
theorem get?_commit {α κ : Type} [Entity α κ] [LawfulEntity α] [Stored α] {s s' : Store}
    {batch : Batch} (hs : WellFormed s) (h : commit s batch = .ok s')
    (hwrites : ∀ op ∈ batch, op.writes ⊆ [Entity.kind α]) {key : Bytes}
    (hkey : ∀ k, rowKey α k = key → record? α s' k = record? α s k) : s'.get? key = s.get? key := by
  have hs' := hs.commit h
  refine hs.get?_eq hs' fun kind hkind => ?_
  by_cases hsame : kind = Entity.kind α
  · rw [hsame] at hkind
    exact hs.sound.get?_eq hs'.sound hkind hkey
  · refine (writes_commit h).sameRows (fun hmem => ?_) key hkind
    obtain ⟨op, hop, hwritten⟩ := List.mem_flatMap.1 hmem
    exact hsame (List.mem_singleton.1 (hwrites op hop hwritten))

/-- A batch is carried out if none of its operations asks for a wallet or for its absence. -/
theorem exists_commit_eq_ok {batch : Batch} :
    ∀ {s : Store}, WellFormed s → (∀ op ∈ batch, op.needsWallet = false) →
      ∃ s', commit s batch = .ok s' := by
  induction batch with
  | nil => exact fun {s} _ _ => ⟨s, rfl⟩
  | cons op batch ih =>
      intro s hs hbatch
      obtain ⟨s', hs'⟩ := Operation.exists_apply_eq_ok hs (hbatch op List.mem_cons_self)
      obtain ⟨s'', hs''⟩ := ih ((Operation.writes_apply hs').wellFormed hs) fun o ho =>
        hbatch o (List.mem_cons_of_mem _ ho)
      refine ⟨s'', ?_⟩
      rw [commit_eq_foldlM] at hs'' ⊢
      rw [List.foldlM_cons, hs']
      exact hs''

end CoinLedger
