import Mathlib.Data.List.Basic
import CoinLedger.Ledger.Basic
import CoinLedger.Proofs.Results

/-! # Batches as runs of single operations

An overlay stands for the store that it settles to.  Every reader gives the same answer on both
(`getEntity_settle`, `scanEntities_settle`), every writer changes both alike (`settle_putEntity`,
`settle_removeEntity`), and so an operation carried out on an overlay is the operation carried out
on the plain store (`map_settle_apply`).

`commit_eq_foldlM` says therefore that a batch is a run of its operations on the plain store, which
is the form in which the rest of the theory reads it.  `commit_eq_commitEach` compares a batch with
the batches of its single operations. -/

namespace CoinLedger

/-! ### Readers and writers on an overlay -/

section

variable {α κ : Type} [Entity α κ] (o : Overlay)

theorem getEntity_settle (key : κ) : getEntity α o.settle key = getEntity α o key := by
  have hrow : RowSource.row? o.settle (rowKey α key) = RowSource.row? o (rowKey α key) :=
    o.get?_settle _
  unfold getEntity
  rw [hrow]

theorem scanEntities_settle (range : RowRange) :
    scanEntities α o.settle range = scanEntities α o range := by
  have hrows : RowSource.rowsFrom o range.start = RowSource.rowsFrom o.settle range.start :=
    o.rowsFrom_eq_scan_settle _
  unfold scanEntities
  rw [hrows]

theorem channelsOf_settle (walletId : Option String) :
    channelsOf o.settle walletId = channelsOf o walletId := by
  cases walletId <;> exact scanEntities_settle o _

theorem settle_putEntity (a : α) : (putEntity o a).settle = putEntity o.settle a :=
  o.settle_setRow _ _

theorem settle_removeEntity (key : κ) :
    (removeEntity α o key).settle = removeEntity α o.settle key :=
  o.settle_setRow _ _

theorem map_settle_reviseEntity (key : κ) (f : Option α → Except Error (Option α)) :
    (reviseEntity α o key f).map Overlay.settle = reviseEntity α o.settle key f := by
  unfold reviseEntity
  rw [getEntity_settle]
  cases getEntity α o key with
  | error e => rfl
  | ok found =>
      simp only [bind, Except.bind]
      cases f found with
      | error e => rfl
      | ok revised =>
          cases revised with
          | none => rfl
          | some a => exact congrArg Except.ok (settle_putEntity o a)

end

theorem settle_putEntities {α κ : Type} [Entity α κ] (o : Overlay) (as : List α) :
    (putEntities o as).settle = putEntities o.settle as :=
  (List.foldl_hom Overlay.settle fun o a => (settle_putEntity o a).symm).symm

theorem settle_removeEntities {α κ : Type} [Entity α κ] (o : Overlay) (keys : List κ) :
    (removeEntities α o keys).settle = removeEntities α o.settle keys :=
  (List.foldl_hom Overlay.settle fun o key => (settle_removeEntity o key).symm).symm

/-! ### Operations on an overlay -/

namespace Operation

theorem map_settle_attachTo (spending : Outpoint) (data : Bytes) (o : Overlay) (c : Channel) :
    (attachTo spending data o c).map Overlay.settle = attachTo spending data o.settle c := by
  unfold attachTo
  rw [getEntity_settle]
  cases getEntity Coin o c.funding with
  | error e => rfl
  | ok found =>
      cases found with
      | none => rfl
      | some coin =>
          simp only [bind, Except.bind]
          split
          · exact congrArg Except.ok (settle_putEntity o _)
          · rfl

theorem channelsFundedBy_settle (o : Overlay) (coins : List Coin) :
    channelsFundedBy o.settle coins = channelsFundedBy o coins := by
  unfold channelsFundedBy
  rw [channelsOf_settle]

theorem map_settle_retract (txid : Txid) (o : Overlay) :
    (retract txid o).map Overlay.settle = retract txid o.settle := by
  unfold retract
  have hfunded : coinsFundedBy o.settle txid = coinsFundedBy o txid := scanEntities_settle o _
  rw [hfunded]
  cases coinsFundedBy o txid with
  | error e => rfl
  | ok funded =>
      simp only [bind, Except.bind, channelsFundedBy_settle]
      cases channelsFundedBy o funded with
      | error e => rfl
      | ok closed =>
          -- the scripts are read when the channels and the coins are gone
          simp only [← settle_removeEntities]
          generalize removeEntities Coin (removeEntities Channel o _) _ = o'
          have hscripts : transactionScripts o'.settle txid = transactionScripts o' txid :=
            scanEntities_settle o' _
          rw [hscripts]
          cases transactionScripts o' txid with
          | error e => rfl
          | ok scripts =>
              -- the coins are read when the scripts and the record are gone, too
              simp only [← settle_removeEntity]
              generalize removeEntity TransactionRecord (removeEntities TransactionScript o' _) txid = o''
              have hcoins : allCoins o''.settle = allCoins o'' := scanEntities_settle o'' _
              rw [hcoins]
              cases allCoins o'' with
              | error e => rfl
              | ok coins => exact congrArg Except.ok (settle_putEntities o'' _)

/-- An operation on an overlay is the operation on the store that the overlay settles to. -/
theorem map_settle_apply (o : Overlay) (op : Operation) :
    (apply o op).map Overlay.settle = apply o.settle op := by
  cases op with
  | retractTransaction txid => exact map_settle_retract txid o
  | attachSpendableData walletId spending data =>
      simp only [apply, channelsOf_settle]
      cases channelsOf o (some walletId) with
      | error e => rfl
      | ok channels => exact map_foldlM (map_settle_attachTo spending data) channels o
  | upsertPayment payment => exact congrArg Except.ok (settle_putEntity o payment)
  | putBlob blob => exact congrArg Except.ok (settle_putEntity o blob)
  | deleteBlob key => exact congrArg Except.ok (settle_removeEntity o key)
  | insertWallet _ | raiseIndex _ _ | addAliases _ _ | insertScript _ | insertWalletScript _
  | mergeWalletScript _ | upsertTransaction _ | setBlock _ _ | insertTransactionScript _
  | insertCoin _ | mergeCoinSpend _ | upsertChannel _ | updatePayment _ _ _ =>
      exact map_settle_reviseEntity o _ _

end Operation

/-! ### Batches -/

/-- A batch does to a store what its operations do to it one after the other. -/
theorem commit_eq_foldlM (s : Store) (batch : Batch) :
    commit s batch = batch.foldlM Operation.apply s :=
  map_foldlM Operation.map_settle_apply batch (Overlay.ofStore s)

theorem commit_singleton (s : Store) (op : Operation) : commit s [op] = op.apply s := by
  rw [commit_eq_foldlM, List.foldlM_cons]
  cases op.apply s <;> rfl

theorem commit_append (s : Store) (batch more : Batch) :
    commit s (batch ++ more) = commit s batch >>= fun s' => commit s' more := by
  simp only [commit_eq_foldlM, List.foldlM_append]

/-- Commits each operation as a batch of its own, and stops at the first one that fails. -/
def commitEach (s : Store) : Batch → Except Error Store
  | [] => .ok s
  | op :: rest =>
      match commit s [op] with
      | .ok s' => commitEach s' rest
      | .error e => .error e

theorem commitEach_eq_foldlM : ∀ (s : Store) (batch : Batch),
    commitEach s batch = batch.foldlM Operation.apply s
  | _, [] => rfl
  | s, op :: rest => by
      rw [commitEach, commit_singleton, List.foldlM_cons]
      cases op.apply s with
      | error e => rfl
      | ok s' => exact commitEach_eq_foldlM s' rest

/-! ### Reads through pending changes -/

theorem settle_foldl_setRow (changes : List (Bytes × Option Bytes)) (o : Overlay) :
    (changes.foldl (fun o c => o.setRow c.1 c.2) o).settle = o.settle.setAll changes :=
  (List.foldl_hom Overlay.settle fun o c => (o.settle_setRow c.1 c.2).symm).symm

theorem rowsFrom_sorted (o : Overlay) (start : Bytes) :
    (o.rowsFrom start).Pairwise fun a b => a.1 < b.1 :=
  ((o.base.restrict start).setAll (o.changes.scan start)).sorted

/-- **A batch behaves like its operations committed one by one, all or nothing.**  Committing a
batch is committing its operations as batches of their own, up to the first error, which is carrying
them out on the plain store; and a batch can be split anywhere.  A failing batch leaves the ledger as
it was.  Staging ends with an overlay on which every row and every group of rows reads as on the
store that the single commits lead to, and at any moment the pending changes made so far read as if
they were made, in the order of the keys. -/
theorem commit_eq_commitEach (s : Store) (batch : Batch) :
    commit s batch = commitEach s batch ∧
      commitEach s batch = batch.foldlM Operation.apply s ∧
      (∀ more : Batch, commit s (batch ++ more) = commit s batch >>= fun s' => commit s' more) ∧
      (∀ l : Ledger, ({ l with store := s } : Ledger).run (Ledger.write batch) =
        match commitEach s batch with
        | .ok s' => (.ok (), { l with store := s' })
        | .error e => (.error e, { l with store := s })) ∧
      ((stage s batch).map fun o => (o.row?, o.rowsFrom)) =
        ((commitEach s batch).map fun s' => (s'.get?, s'.scan)) ∧
      ∀ (changes : List (Bytes × Option Bytes)) (key start : Bytes),
        let o := changes.foldl (fun o c => o.setRow c.1 c.2) (Overlay.ofStore s)
        o.row? key = (s.setAll changes).get? key ∧
          o.rowsFrom start = (s.setAll changes).scan start ∧
          (o.rowsFrom start).Pairwise fun a b => a.1 < b.1 := by
  have hbatch : commit s batch = commitEach s batch := by
    rw [commit_eq_foldlM, commitEach_eq_foldlM]
  refine ⟨hbatch, commitEach_eq_foldlM s batch, commit_append s batch, ?_, ?_, ?_⟩
  · intro l
    rw [← hbatch]
    exact Ledger.run_write { l with store := s } batch
  · rw [← hbatch, commit]
    cases stage s batch with
    | error e => rfl
    | ok o =>
        have hrow : o.row? = o.settle.get? := funext fun key => (o.get?_settle key).symm
        have hrows : o.rowsFrom = o.settle.scan := funext o.rowsFrom_eq_scan_settle
        exact congrArg Except.ok (Prod.ext hrow hrows)
  · intro changes key start o
    have hsettle : o.settle = s.setAll changes := settle_foldl_setRow changes (Overlay.ofStore s)
    rw [← hsettle]
    exact ⟨(o.get?_settle key).symm, o.rowsFrom_eq_scan_settle start, rowsFrom_sorted o start⟩

end CoinLedger
