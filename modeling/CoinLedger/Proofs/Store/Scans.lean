import CoinLedger.Proofs.Entity.Layout
import CoinLedger.Proofs.Store.Frame

/-! # What scans list

A scan seeks the first key that is not below the bytes of a group and reads on as long as the keys
start with them, and by `ByteMap.scan_eq_filter` these are all such keys.  If the names in the keys of
the store are plain (`PlainNames`), they are the keys of the group, and no others: the name of one
wallet may well begin with the name of another one.

`Lists` says what an answer lists: the stored records with some property, each once and in the order
of their keys.  `Sound.lists` is the step from the bytes of a group to such a property, and
`mem_scan_iff` is the same step for rows of any kind.  `scans_exactly` puts the groups together. -/

namespace CoinLedger

/-! ### Stored records -/

section

variable {α κ : Type} [Entity α κ]

/-- The record is stored, under its own key. -/
def HasRow (s : Store) (a : α) : Prop :=
  s.get? (rowKey α (Entity.key a)) = some (encodeEntity a)

theorem hasRow_putEntity_self (s : Store) (a : α) : HasRow (putEntity s a) a := by
  rw [HasRow, get?_putEntity, if_pos rfl]

/-- A record stays stored when one with another key is written. -/
theorem HasRow.put {β κ' : Type} [Entity β κ'] {s : Store} {a : α} (h : HasRow s a) {b : β}
    (hkey : rowKey β (Entity.key b) ≠ rowKey α (Entity.key a)) : HasRow (putEntity s b) a := by
  rw [HasRow, get?_putEntity, if_neg hkey]
  exact h

theorem HasRow.of_putEntity_of_ne {β κ' : Type} [Entity β κ'] {s : Store} {a : α} {b : β}
    (hkind : Entity.kind β ≠ Entity.kind α) (h : HasRow (putEntity s b) a) : HasRow s a := by
  have hrows : SameRows (Entity.kind α) s (putEntity s b) := .putEntity hkind s b
  exact (hrows _ (head?_rowKey _)).symm.trans h

/-- Records in the order of their keys are all different. -/
theorem nodup_of_sorted {as : List α}
    (h : as.Pairwise fun a b => rowKey α (Entity.key a) < rowKey α (Entity.key b)) : as.Nodup :=
  h.imp fun hlt heq => by
    rw [heq] at hlt
    exact List.lt_irrefl _ hlt

variable [LawfulEntity α] {s : Store}

theorem Sound.hasRow_iff (hs : Sound α s) {a : α} :
    HasRow s a ↔ record? α s (Entity.key a) = some a := by
  rw [HasRow, hs.get?_rowKey, Option.map_eq_some_iff]
  constructor
  · rintro ⟨b, hb, htext⟩
    rw [hb, encodeEntity_injective htext]
  · intro ha
    exact ⟨a, ha, rfl⟩

/-- A record that is found under some key is stored under its own one. -/
theorem Sound.hasRow_of_record? (hs : Sound α s) {key : κ} {a : α}
    (h : record? α s key = some a) : HasRow s a := by
  rw [HasRow, hs.rowKey_eq h, hs.get?_rowKey, h]
  rfl

theorem HasRow.of_putEntity {a b : α} (h : HasRow (putEntity s b) a) : a = b ∨ HasRow s a := by
  rw [HasRow, get?_putEntity] at h
  split at h
  · exact .inl (encodeEntity_injective (Option.some.inj h)).symm
  · exact .inr h

/-! ### Lists of records -/

/-- The answer lists the stored records with this property, each once, in the order of their keys. -/
def Lists (s : Store) (answer : Except Error (List α)) (p : α → Prop) : Prop :=
  ∃ as, answer = .ok as ∧ (∀ a, a ∈ as ↔ HasRow s a ∧ p a) ∧
    as.Pairwise fun a b => rowKey α (Entity.key a) < rowKey α (Entity.key b)

/-- A scan lists the records with a property that tells, among stored records, whether a key starts
like the group. -/
theorem Sound.lists (hs : Sound α s) {range : RowRange}
    (hstart : range.start.head? = some (Entity.kind α).byte) {p : α → Prop}
    (hp : ∀ a, HasRow s a → (range.start <+: rowKey α (Entity.key a) ↔ p a)) :
    Lists s (CoinLedger.scanEntities α s range) p := by
  refine ⟨_, hs.scanEntities hstart, fun a => ?_, hs.recordsFrom_sorted hstart⟩
  rw [hs.mem_recordsFrom hstart, ← hs.hasRow_iff]
  exact and_congr_right (hp a)

end

/-! ### Plain names -/

/-- The names of wallets that are followed by something else in a stored key have no zero byte.  The
names in the keys of payments are left out. -/
structure PlainOwners (s : Store) : Prop where
  walletScript {w : WalletScript} : HasRow s w → 0 ∉ Bytes.utf8 w.walletId
  channel {c : Channel} : HasRow s c → 0 ∉ Bytes.utf8 c.walletId

/-- The texts that a zero byte ends in a stored key have no zero byte. -/
structure PlainNames (s : Store) : Prop extends PlainOwners s where
  payment {p : Payment} : HasRow s p → 0 ∉ Bytes.utf8 p.walletId ∧ 0 ∉ Bytes.utf8 p.paymentHash

/-- Every stored row has a plain key of some kind. -/
theorem PlainNames.exists_typedKey {s : Store} (hs : WellFormed s) (hplain : PlainNames s)
    {key value : Bytes} (h : s.get? key = some value) :
    ∃ k : TypedKey, k.Plain ∧ k.bytes = key := by
  obtain ⟨kind, hrow⟩ := hs key value h
  -- the row holds a record of the kind, and this record has a key
  have hhas : ∀ {α κ : Type} [Entity α κ] {a : α}, rowKey α (Entity.key a) = key →
      encodeEntity a = value → HasRow s a := by
    rintro α κ _ a rfl rfl
    exact h
  cases kind with
  | wallet => obtain ⟨w, hkey, -⟩ := hrow; exact ⟨.wallet w.id, trivial, hkey⟩
  | script => obtain ⟨r, hkey, -⟩ := hrow; exact ⟨.script r.script, trivial, hkey⟩
  | walletScript =>
      obtain ⟨w, hkey, hvalue⟩ := hrow
      exact ⟨.walletScript (Entity.key w), hplain.walletScript (hhas hkey hvalue), hkey⟩
  | transaction => obtain ⟨t, hkey, -⟩ := hrow; exact ⟨.transaction t.txid, trivial, hkey⟩
  | transactionScript =>
      obtain ⟨t, hkey, -⟩ := hrow
      exact ⟨.transactionScript (Entity.key t), trivial, hkey⟩
  | coin => obtain ⟨c, hkey, -⟩ := hrow; exact ⟨.coin c.outpoint, trivial, hkey⟩
  | channel =>
      obtain ⟨c, hkey, hvalue⟩ := hrow
      exact ⟨.channel (Entity.key c), hplain.channel (hhas hkey hvalue), hkey⟩
  | payment =>
      obtain ⟨p, hkey, hvalue⟩ := hrow
      exact ⟨.payment (Entity.key p), hplain.payment (hhas hkey hvalue), hkey⟩
  | blob => obtain ⟨b, hkey, -⟩ := hrow; exact ⟨.blob b.key, trivial, hkey⟩

/-- The rows of a group are the stored rows with a key that the group covers. -/
theorem mem_scan_iff {s : Store} (hs : WellFormed s) (hplain : PlainNames s) {range : RowRange}
    (hrange : range.Plain) {key value : Bytes} :
    (key, value) ∈ s.scan range.start ↔
      s.get? key = some value ∧ ∃ k : TypedKey, k.Plain ∧ k.bytes = key ∧ range.Covers k := by
  rw [ByteMap.mem_scan]
  refine and_congr_right fun hget => ⟨fun hstart => ?_, ?_⟩
  · obtain ⟨k, hk, rfl⟩ := hplain.exists_typedKey hs hget
    exact ⟨k, hk, rfl, (RowRange.start_prefix_iff hrange hk).1 hstart⟩
  · rintro ⟨k, hk, rfl, hcovers⟩
    exact (RowRange.start_prefix_iff hrange hk).2 hcovers

/-! ### The readers -/

/-- Each scan of the store lists what it is meant to list. -/
structure ScansExactly (s : Store) : Prop where
  scriptsOfWallet (walletId : String) : 0 ∉ Bytes.utf8 walletId →
    Lists s (walletScripts s walletId) fun w => w.walletId = walletId
  channelsOfWallet (walletId : String) : 0 ∉ Bytes.utf8 walletId →
    Lists s (channelsOf s (some walletId)) fun c => c.walletId = walletId
  paymentsOfWallet (walletId : String) : 0 ∉ Bytes.utf8 walletId →
    Lists s (paymentsOf s walletId) fun p => p.walletId = walletId
  scriptsOfTransaction (txid : Txid) :
    Lists s (transactionScripts s txid) fun t => t.txid = txid
  coinsOfTransaction (txid : Txid) :
    Lists s (coinsFundedBy s txid) fun c => c.outpoint.txid = txid
  /-- The coins of a transaction stand in the order of their places, as numbers. -/
  places (txid : Txid) {coins : List Coin} : coinsFundedBy s txid = .ok coins →
    coins.Pairwise fun c d => c.outpoint.vout.toNat < d.outpoint.vout.toNat
  /-- All records of a kind are listed by the scan of the kind. -/
  kind {α κ : Type} [Entity α κ] [LawfulEntity α] [Stored α] :
    Lists s (scanEntities α s (.kind (Entity.kind α))) fun _ => True
  /-- What is said of records holds of the rows, of whatever kind. -/
  rows (range : RowRange) : range.Plain → ∀ key value : Bytes,
    (key, value) ∈ s.scan range.start ↔
      s.get? key = some value ∧ ∃ k : TypedKey, k.Plain ∧ k.bytes = key ∧ range.Covers k

theorem WellFormed.lists_coinsFundedBy {s : Store} (hs : WellFormed s) (txid : Txid) :
    Lists s (coinsFundedBy s txid) fun c => c.outpoint.txid = txid :=
  hs.sound.lists rfl fun _ _ => coinsFundedBy_start_prefix_iff

theorem WellFormed.coinsFundedBy_sorted {s : Store} (hs : WellFormed s) {txid : Txid}
    {coins : List Coin} (h : coinsFundedBy s txid = .ok coins) :
    coins.Pairwise fun c d => c.outpoint.vout.toNat < d.outpoint.vout.toNat := by
  obtain ⟨listed, hlisted, hmem, hsorted⟩ := hs.lists_coinsFundedBy txid
  obtain rfl : listed = coins := Except.ok.inj (hlisted.symm.trans h)
  refine hsorted.imp_of_mem fun {c d} hc hd hlt => vout_lt_of_rowKey_lt ?_ hlt
  rw [((hmem c).1 hc).2, ((hmem d).1 hd).2]

/-- **Keys are told apart, and scans list what they are meant to.**  Two plain keys of any kinds have
the same bytes just if they are of one kind and equal.  In a store whose rows are records of the
schema with plain names, under their own keys, each scan lists the records that it is asked for, each
once and in the order of their keys. -/
theorem scans_exactly {s : Store} (hs : WellFormed s) (hplain : PlainNames s) :
    (∀ a b : TypedKey, a.Plain → b.Plain → (a.bytes = b.bytes ↔ a = b)) ∧
      ScansExactly s := by
  refine ⟨fun a b => TypedKey.bytes_inj, ?_⟩
  exact {
    scriptsOfWallet := fun walletId hid => hs.sound.lists rfl fun _ hw =>
      walletScripts_start_prefix_iff hid (hplain.walletScript hw)
    channelsOfWallet := fun walletId hid => hs.sound.lists rfl fun _ hc =>
      channels_start_prefix_iff hid (hplain.channel hc)
    paymentsOfWallet := fun walletId hid => hs.sound.lists rfl fun _ hp =>
      payments_start_prefix_iff hid (hplain.payment hp).1
    scriptsOfTransaction := fun txid => hs.sound.lists rfl fun _ _ =>
      transactionScripts_start_prefix_iff
    coinsOfTransaction := hs.lists_coinsFundedBy
    places := fun _ _ h => hs.coinsFundedBy_sorted h
    kind := fun {α κ} _ _ _ => hs.sound.lists rfl fun a _ =>
      iff_of_true (rowKey_startsWith_kind (α := α) _) trivial
    rows := fun range hrange _ _ => mem_scan_iff hs hplain hrange }

/-- Scripts of two wallets of which one has a name that begins with the name of the other. -/
def twoNamesStore : Store :=
  putEntity (putEntity ByteMap.empty (⟨"ab", ⟨[0x51]⟩, none⟩ : WalletScript))
    (⟨"abc", ⟨[0x52]⟩, none⟩ : WalletScript)

theorem wellFormed_twoNamesStore : WellFormed twoNamesStore :=
  (wellFormed_empty.putEntity _).putEntity _

theorem plainNames_twoNamesStore : PlainNames twoNamesStore where
  walletScript {w} hw := by
    rcases hw.of_putEntity with rfl | hw
    · decide
    · rcases hw.of_putEntity with rfl | hw
      · decide
      · cases hw
  channel hc := by
    cases (hc.of_putEntity_of_ne (by decide)).of_putEntity_of_ne (by decide)
  payment hp := by
    cases (hp.of_putEntity_of_ne (by decide)).of_putEntity_of_ne (by decide)

/-- The scan for the shorter name finds the script of this wallet alone. -/
theorem scans_exactly_twoNames :
    WellFormed twoNamesStore ∧ PlainNames twoNamesStore ∧
      Lists twoNamesStore (walletScripts twoNamesStore "ab") (fun w => w.walletId = "ab") ∧
      (TypedKey.walletScript ⟨"ab", ⟨[0x63, 0, 0x52]⟩⟩).bytes ≠
        (TypedKey.walletScript ⟨"abc", ⟨[0x52]⟩⟩).bytes := by
  have hscans := scans_exactly wellFormed_twoNamesStore plainNames_twoNamesStore
  refine ⟨wellFormed_twoNamesStore, plainNames_twoNamesStore,
    hscans.2.scriptsOfWallet "ab" (by decide), fun h => ?_⟩
  exact absurd ((hscans.1 _ _ (by decide) (by decide)).1 h) (by decide)

end CoinLedger
