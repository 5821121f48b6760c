import CoinLedger.Ledger.Query
import CoinLedger.Proofs.Ledger.Steps

/-! # Whatever is stored can be read

A row of a reachable store is written as its record is written, and it decodes to that record
(`DecodesAs`).  So there is only one way in which a text of the store can be no good: it was kept by
the user, and the user asks for a value of a type that it does not hold.

No request comes across such a text (`legible_serve`), and of the queries only that one can
(`Query.exists_answer_eq_ok`, `decodedBlob_eq_error_iff`).  The service that watches the chain may read
texts of its own, which are not the ledger's.  If it complains of one of them, the ledger says so too,
and this is the only other source of that error (`ServiceGives`). -/

namespace CoinLedger

open Ledger

/-! ### Rows that decode -/

/-- The text of the row is read as a record, which stands under this key and is written as this
text. -/
def Decodes (α : Type) {κ : Type} [Entity α κ] (key value : Bytes) : Prop :=
  ∃ a : α, decodeEntity? α value = some a ∧ rowKey α (Entity.key a) = key ∧ encodeEntity a = value

/-- The text of the row is read as a record of this kind. -/
def DecodesAs : EntityKind → Bytes → Bytes → Prop
  | .wallet => Decodes Wallet
  | .script => Decodes ScriptRecord
  | .walletScript => Decodes WalletScript
  | .transaction => Decodes TransactionRecord
  | .transactionScript => Decodes TransactionScript
  | .coin => Decodes Coin
  | .channel => Decodes Channel
  | .payment => Decodes Payment
  | .blob => Decodes Blob

theorem IsRow.decodes {α κ : Type} [Entity α κ] [LawfulEntity α] {key value : Bytes}
    (h : IsRow α key value) : Decodes α key value := by
  obtain ⟨a, hkey, rfl⟩ := h
  exact ⟨a, decodeEntity?_encodeEntity a, hkey, rfl⟩

theorem IsRowOf.decodesAs {kind : EntityKind} {key value : Bytes} (h : IsRowOf kind key value) :
    DecodesAs kind key value := by
  cases kind <;> exact IsRow.decodes h

/-- A record that was put is the one that is found, whatever was there before. -/
theorem getEntity_putEntity {α κ : Type} [Entity α κ] [LawfulEntity α] (s : Store) (a : α) :
    getEntity α (putEntity s a) (Entity.key a) = .ok (some a) := by
  have hrow : RowSource.row? (putEntity s a) (rowKey α (Entity.key a)) = some (encodeEntity a) :=
    (get?_putEntity s a _).trans (if_pos rfl)
  unfold getEntity
  rw [hrow]
  simp only [readRow, decodeEntity?_encodeEntity]
  rfl

/-- So it is before the changes are made. -/
theorem getEntity_putEntity_overlay {α κ : Type} [Entity α κ] [LawfulEntity α] (o : Overlay)
    (a : α) : getEntity α (putEntity o a) (Entity.key a) = .ok (some a) := by
  rw [← getEntity_settle, settle_putEntity, getEntity_putEntity]

/-! ### Queries -/

namespace Ledger

section

variable {s : Store}

theorem blobBytes_eq (hs : Sound Blob s) (walletId : Option String) (name : String) :
    blobBytes s walletId name =
      .ok ((record? Blob s (Blob.composeKey walletId name)).map (·.value)) := by
  rw [blobBytes, hs.getEntity]
  rfl

theorem exists_blobsOf_eq_ok (hs : Sound Blob s) (walletId : Option String) :
    ∃ blobs, blobsOf s walletId = .ok blobs := by
  have hall : allBlobs s = .ok _ := hs.scanEntities rfl
  unfold blobsOf
  rw [hall]
  exact ⟨_, rfl⟩

/-- A value of some type is not read just if the text is not written as one of this type. -/
theorem decodedBlob_eq_error_iff (hs : Sound Blob s) {α : Type} {f : Json → Option α}
    {walletId : Option String} {name : String} {e : Error} :
    decodedBlob f s walletId name = .error e ↔
      e = .json ∧ ∃ bytes, blobBytes s walletId name = .ok (some bytes) ∧
        (Json.parse? bytes).bind f = none := by
  unfold decodedBlob
  rw [blobBytes_eq hs]
  cases (record? Blob s (Blob.composeKey walletId name)).map (·.value) with
  | none => exact ⟨nofun, fun ⟨_, _, hbytes, _⟩ => by cases hbytes⟩
  | some bytes =>
      rw [ok_bind]
      dsimp only
      cases hvalue : (Json.parse? bytes).bind f with
      | none =>
          refine ⟨fun h => ⟨(Except.error.inj h).symm, bytes, rfl, hvalue⟩, fun ⟨he, _⟩ => ?_⟩
          rw [he]
          rfl
      | some a =>
          refine ⟨nofun, fun ⟨_, bytes', hbytes, hnone⟩ => ?_⟩
          obtain rfl : bytes = bytes' := Option.some.inj (Except.ok.inj hbytes)
          cases hvalue.symm.trans hnone

end

/-- Everything is answered that is not a value of some type. -/
theorem Query.exists_answer_eq_ok {α : Type} {s : Store} (hs : WellFormed s) {q : Query α}
    (hq : q.isTyped = false) : ∃ a, q.answer s = .ok a := by
  cases q with
  | wallet name => exact exists_findWallet_eq_ok hs.sound name
  | wallets | transactionScripts | channels | payments => exact ⟨_, hs.sound.scanEntities rfl⟩
  | transaction txid => exact ⟨_, hs.sound.getEntity txid⟩
  | coin outpoint => exact ⟨_, hs.sound.getEntity outpoint⟩
  | unspentCoins walletId =>
      have hscripts : walletScripts s walletId = .ok _ := hs.sound.scanEntities rfl
      obtain ⟨unspent, hunspent, -⟩ := exists_unspentCoins_eq_ok hs.sound hscripts
      exact ⟨unspent, hunspent⟩
  | spendableGroups walletId =>
      obtain ⟨groups, hgroups, -⟩ := exists_groupsOf hs walletId
      exact ⟨groups, hgroups⟩
  | pendingTransactions => exact exists_pendingTransactions_eq_ok hs.sound
  | blob walletId name => exact ⟨_, blobBytes_eq hs.sound walletId name⟩
  | blobs walletId => exact exists_blobsOf_eq_ok hs.sound walletId
  | value => cases hq

/-- Whatever is stored in a ledger can be read. -/
structure ReadsAll (l : Ledger) : Prop where
  /-- Each row is a record of a kind, in its place and in its words. -/
  rows (key value : Bytes) : l.store.get? key = some value →
    ∃ kind : EntityKind, key.head? = some kind.byte ∧ DecodesAs kind key value
  /-- What is put is found. -/
  put {α κ : Type} [Entity α κ] [LawfulEntity α] (a : α) :
    getEntity α (putEntity l.store a) (Entity.key a) = .ok (some a)
  /-- So it is among changes that are still to be made. -/
  pending {α κ : Type} [Entity α κ] [LawfulEntity α] (changes : ByteMap (Option Bytes)) (a : α) :
    getEntity α (putEntity (⟨l.store, changes⟩ : Overlay) a) (Entity.key a) = .ok (some a)
  /-- No request, whatever its outcome, comes across a text that cannot be read, unless the service
  that watches the chain does. -/
  requests (r : Request) : ¬ ServiceGives l.chain .json → (l.run r.action).1 ≠ .error .json
  values (walletId : Option String) (name : String) (value : Value) :
    (l.run (putValue walletId name value)).1 ≠ .error .json
  queries {α : Type} (q : Query α) : q.isTyped = false → ∃ a, q.answer l.store = .ok a
  /-- Only what users keep as text may be something else than what is asked for. -/
  typed {α : Type} (f : Json → Option α) (walletId : Option String) (name : String) (e : Error) :
    (Query.value f walletId name).answer l.store = .error e ↔
      e = .json ∧ ∃ bytes, (Query.blob walletId name).answer l.store = .ok (some bytes) ∧
        (Json.parse? bytes).bind f = none

end Ledger

/-- **Every stored row is well formed and can be read**, along every run. -/
theorem Reachable.readsAll {l : Ledger} (h : Reachable l) : ReadsAll l where
  rows key value hvalue := by
    obtain ⟨kind, hrow⟩ := h.wellFormed key value hvalue
    exact ⟨kind, hrow.head?, hrow.decodesAs⟩
  put := getEntity_putEntity l.store
  pending changes := getEntity_putEntity_overlay ⟨l.store, changes⟩
  requests := legible_serve h.wellFormed
  values _ _ _ := legible_write h.wellFormed _
  queries q := q.exists_answer_eq_ok h.wellFormed
  typed f walletId name e := decodedBlob_eq_error_iff h.wellFormed.sound

/-- A service that tracks nothing for one wallet, and does not answer for one transaction. -/
def refusingTable : ChainTable where
  failTrack := ["73c5da0a"]
  failStatus := [Hash256.zero]
  statuses := []
  tracked := []

/-- A note is kept that is no document.  It is there, but not as a value.  The ledger is watched, and
although the service refuses some requests, none fails because of a text that cannot be read. -/
theorem readsAll_of_note :
    ∃ (l : Ledger) (key value : Bytes), ReadsAll l ∧ l.store.get? key = some value ∧
      (∃ kind : EntityKind, key.head? = some kind.byte ∧ DecodesAs kind key value) ∧
      (Query.blob none "note").answer l.store = .ok (some [0x7b]) ∧
      (Query.value some none "note").answer l.store = .error .json ∧
      l.chain = some refusingTable ∧ ¬ ServiceGives l.chain .json ∧
      ∀ r : Request, (l.run r.action).1 ≠ .error .json := by
  let note : Blob := ⟨Blob.composeKey none "note", none, [0x7b]⟩
  let opened := ofStore .empty .regtest (some refusingTable)
  let l := opened.serve (.putBlob none "note" (some [0x7b]))
  have hreads : ReadsAll l := Reachable.readsAll (.served (.opened .regtest (some refusingTable)) _)
  have hcommit : commit opened.store [.putBlob note] = .ok (putEntity ByteMap.empty note) := by
    rw [commit_singleton]
    rfl
  have hl : l = { opened with store := putEntity ByteMap.empty note } := by
    show (opened.run (Ledger.write [.putBlob note])).2 = _
    rw [run_write, hcommit]
  have hstore : l.store = putEntity ByteMap.empty note := congrArg Ledger.store hl
  have hchain : l.chain = some refusingTable := congrArg Ledger.chain hl
  have hgives : ¬ ServiceGives l.chain .json := by
    rw [hchain]
    intro h
    obtain ⟨text, htext⟩ := h.generic_of_texts rfl rfl
    cases htext
  have hrow : l.store.get? (rowKey Blob (Entity.key note)) = some (encodeEntity note) := by
    rw [hstore, get?_putEntity, if_pos rfl]
  have hblob : (Query.blob none "note").answer l.store = .ok (some [0x7b]) := by
    show blobBytes l.store none "note" = _
    rw [hstore, blobBytes, show Blob.composeKey none "note" = Entity.key note from rfl,
      getEntity_putEntity]
    rfl
  have hvalue : (Query.value some none "note").answer l.store = .error .json :=
    (hreads.typed some none "note" .json).2 ⟨rfl, _, hblob, by decide⟩
  exact ⟨l, _, _, hreads, hrow, hreads.rows _ _ hrow, hblob, hvalue, hchain, hgives,
    fun r => hreads.requests r hgives⟩

end CoinLedger
