import Mathlib.Data.List.Basic
import CoinLedger.Proofs.Entity.Keys
import CoinLedger.Proofs.Entity.RoundTrip
import CoinLedger.Proofs.Results
import CoinLedger.Store.Basic

/-! # Tables of records

A store holds one table for each kind of records.  A table is sound (`Sound`) if all its rows hold
records of the kind under their own keys, and then `record?` gives the record under a key: readers
answer with it (`Sound.getEntity`, `Sound.scanEntities`), and what a writer does to it is told by
`record?_putEntity`, `record?_removeEntity` and `Sound.reviseEntity`.

`SameRows` says of two stores that their rows of one kind are the same.  Writers of one kind leave
the rows of the others as they are, and whatever is known of a table carries over to a store with
the same rows. -/

namespace CoinLedger

section

variable {α κ : Type} [Entity α κ]

/-- The row holds a record of this kind under the record's own key. -/
def IsRow (α : Type) {κ : Type} [Entity α κ] (key value : Bytes) : Prop :=
  ∃ a : α, rowKey α (Entity.key a) = key ∧ encodeEntity a = value

/-- All rows of a kind hold records of that kind under their own keys. -/
def Sound (α : Type) {κ : Type} [Entity α κ] (s : Store) : Prop :=
  ∀ key value, s.get? key = some value → key.head? = some (Entity.kind α).byte → IsRow α key value

/-- The record under a key. -/
def record? (α : Type) {κ : Type} [Entity α κ] (s : Store) (key : κ) : Option α :=
  (s.get? (rowKey α key)).bind (decodeEntity? α)

theorem Sound.isRow_of_mem_scan {s : Store} (hs : Sound α s) {start : Bytes}
    (hstart : start.head? = some (Entity.kind α).byte) {row : Bytes × Bytes}
    (hrow : row ∈ s.scan start) : IsRow α row.1 row.2 := by
  obtain ⟨hget, hstarts⟩ := ByteMap.mem_scan.1 hrow
  apply hs _ _ hget
  obtain ⟨rest, hrest⟩ := hstarts
  rw [← hrest, List.head?_append, hstart]
  rfl

/-! ### Writers -/

theorem get?_putEntity (s : Store) (a : α) (key : Bytes) :
    (putEntity s a).get? key =
      if rowKey α (Entity.key a) = key then some (encodeEntity a) else s.get? key :=
  ByteMap.get?_set s _ key _

theorem get?_removeEntity (s : Store) (k : κ) (key : Bytes) :
    (removeEntity α s k).get? key = if rowKey α k = key then none else s.get? key :=
  ByteMap.get?_set s _ key _

theorem reviseEntity_ok {s s' : Store} {key : κ} {f : Option α → Except Error (Option α)}
    (h : reviseEntity α s key f = .ok s') :
    ∃ found made, getEntity α s key = .ok found ∧ f found = .ok made ∧
      s' = made.elim s (putEntity s) := by
  obtain ⟨found, hfound, h⟩ := bind_ok h
  obtain ⟨made, hmade, h⟩ := bind_ok h
  refine ⟨found, made, hfound, hmade, ?_⟩
  cases made <;> exact (Except.ok.inj h).symm

theorem Sound.putEntity {s : Store} (hs : Sound α s) (a : α) : Sound α (putEntity s a) := by
  intro key value hvalue hkind
  rw [get?_putEntity] at hvalue
  split at hvalue
  · rename_i hkey
    exact ⟨a, hkey, Option.some.inj hvalue⟩
  · exact hs key value hvalue hkind

theorem Sound.removeEntity {s : Store} (hs : Sound α s) (k : κ) : Sound α (removeEntity α s k) := by
  intro key value hvalue hkind
  rw [get?_removeEntity] at hvalue
  split at hvalue
  · cases hvalue
  · exact hs key value hvalue hkind

theorem Sound.putEntities {s : Store} (hs : Sound α s) (as : List α) :
    Sound α (putEntities s as) := by
  induction as generalizing s with
  | nil => exact hs
  | cons a as ih => exact ih (hs.putEntity a)

theorem Sound.removeEntities {s : Store} (hs : Sound α s) (keys : List κ) :
    Sound α (removeEntities α s keys) := by
  induction keys generalizing s with
  | nil => exact hs
  | cons key keys ih => exact ih (hs.removeEntity key)

/-! ### The tables of other kinds -/

/-- The rows of this kind are the same in both stores. -/
def SameRows (kind : EntityKind) (s s' : Store) : Prop :=
  ∀ key : Bytes, key.head? = some kind.byte → s'.get? key = s.get? key

namespace SameRows

variable {kind : EntityKind} {s s' s'' : Store}

theorem refl (kind : EntityKind) (s : Store) : SameRows kind s s := fun _ _ => rfl

theorem trans (h : SameRows kind s s') (h' : SameRows kind s' s'') : SameRows kind s s'' :=
  fun key hkey => (h' key hkey).trans (h key hkey)

theorem putEntity (h : Entity.kind α ≠ kind) (s : Store) (a : α) :
    SameRows kind s (putEntity s a) := by
  intro key hkey
  have hne : rowKey α (Entity.key a) ≠ key := by
    rintro rfl
    exact h (EntityKind.byte_injective (Option.some.inj hkey))
  rw [get?_putEntity, if_neg hne]

theorem removeEntity (h : Entity.kind α ≠ kind) (s : Store) (k : κ) :
    SameRows kind s (removeEntity α s k) := by
  intro key hkey
  have hne : rowKey α k ≠ key := by
    rintro rfl
    exact h (EntityKind.byte_injective (Option.some.inj hkey))
  rw [get?_removeEntity, if_neg hne]

theorem putEntities (h : Entity.kind α ≠ kind) :
    ∀ (s : Store) (as : List α), SameRows kind s (putEntities s as)
  | s, [] => refl kind s
  | s, a :: as => (putEntity h s a).trans (putEntities h _ as)

theorem removeEntities (h : Entity.kind α ≠ kind) :
    ∀ (s : Store) (keys : List κ), SameRows kind s (removeEntities α s keys)
  | s, [] => refl kind s
  | s, k :: keys => (removeEntity h s k).trans (removeEntities h _ keys)

theorem reviseEntity (h : Entity.kind α ≠ kind) {key : κ}
    {f : Option α → Except Error (Option α)} (hrevise : reviseEntity α s key f = .ok s') :
    SameRows kind s s' := by
  obtain ⟨-, made, -, -, rfl⟩ := reviseEntity_ok hrevise
  cases made with
  | none => exact refl kind s
  | some a => exact putEntity h s a

theorem record?_eq (h : SameRows (Entity.kind α) s s') (key : κ) :
    record? α s' key = record? α s key := by
  rw [record?, h _ (head?_rowKey key), record?]

theorem sound (h : SameRows (Entity.kind α) s s') (hs : Sound α s) : Sound α s' := by
  intro key value hvalue hkey
  rw [h key hkey] at hvalue
  exact hs key value hvalue hkey

end SameRows

section

variable [InjectiveKey α] [DecidableEq κ]

theorem record?_removeEntity (s : Store) (k key : κ) :
    record? α (removeEntity α s k) key = if k = key then none else record? α s key := by
  simp only [record?, get?_removeEntity, rowKey_inj]
  split <;> simp

theorem record?_removeEntities (s : Store) (keys : List κ) (key : κ) :
    record? α (removeEntities α s keys) key = if key ∈ keys then none else record? α s key := by
  induction keys generalizing s with
  | nil => simp [removeEntities]
  | cons k keys ih =>
      have hcons : removeEntities α s (k :: keys) = removeEntities α (removeEntity α s k) keys := rfl
      rw [hcons, ih, record?_removeEntity]
      by_cases hkeys : key ∈ keys
      · simp [hkeys]
      · by_cases hk : k = key
        · simp [hk]
        · simp [hkeys, hk, Ne.symm hk]

end

/-! ### Readers of sound tables -/

variable [LawfulEntity α]

theorem Sound.get?_rowKey {s : Store} (hs : Sound α s) (key : κ) :
    s.get? (rowKey α key) = (record? α s key).map encodeEntity := by
  cases hrow : s.get? (rowKey α key) with
  | none => simp [record?, hrow]
  | some value =>
      obtain ⟨a, -, rfl⟩ := hs _ _ hrow (head?_rowKey key)
      simp [record?, hrow]

/-- A row of a kind is the same in sound tables that agree on the records with its key. -/
theorem Sound.get?_eq {s s' : Store} (hs : Sound α s) (hs' : Sound α s') {key : Bytes}
    (hkey : key.head? = some (Entity.kind α).byte)
    (h : ∀ k, rowKey α k = key → record? α s' k = record? α s k) : s'.get? key = s.get? key := by
  by_cases hrow : ∃ k, rowKey α k = key
  · obtain ⟨k, rfl⟩ := hrow
    rw [hs.get?_rowKey, hs'.get?_rowKey, h k rfl]
  · have hnone : ∀ {t : Store}, Sound α t → t.get? key = none := by
      intro t ht
      cases hget : t.get? key with
      | none => rfl
      | some value =>
          obtain ⟨a, ha, -⟩ := ht key value hget hkey
          exact absurd ⟨_, ha⟩ hrow
    rw [hnone hs, hnone hs']

/-- Sound tables with the same records have the same rows. -/
theorem Sound.sameRows {s s' : Store} (hs : Sound α s) (hs' : Sound α s')
    (h : ∀ key, record? α s' key = record? α s key) : SameRows (Entity.kind α) s s' :=
  fun _ hkey => hs.get?_eq hs' hkey fun k _ => h k

/-- Stores are the same if the records of one kind and the rows of all others are. -/
theorem Sound.ext {s s' : Store} (hs : Sound α s) (hs' : Sound α s')
    (hrecords : ∀ key, record? α s key = record? α s' key)
    (hrows : ∀ key, key.head? ≠ some (Entity.kind α).byte → s.get? key = s'.get? key) : s = s' := by
  apply ByteMap.ext_get?
  intro key
  by_cases hkey : key.head? = some (Entity.kind α).byte
  · exact hs'.sameRows hs hrecords key hkey
  · exact hrows key hkey

theorem Sound.rowKey_eq {s : Store} (hs : Sound α s) {key : κ} {a : α}
    (ha : record? α s key = some a) : rowKey α (Entity.key a) = rowKey α key := by
  have hrow : s.get? (rowKey α key) = some (encodeEntity a) := by rw [hs.get?_rowKey, ha]; rfl
  obtain ⟨b, hb, heq⟩ := hs _ _ hrow (head?_rowKey key)
  rw [← encodeEntity_injective heq, hb]

theorem Sound.getEntity {s : Store} (hs : Sound α s) (key : κ) :
    getEntity α s key = .ok (record? α s key) := by
  have hrow : RowSource.row? s (rowKey α key) = (record? α s key).map encodeEntity :=
    hs.get?_rowKey key
  unfold CoinLedger.getEntity
  rw [hrow]
  cases record? α s key with
  | none => rfl
  | some a => simp [readRow]; rfl

/-- The records whose keys start with these bytes, in the order of the keys. -/
def recordsFrom (α : Type) {κ : Type} [Entity α κ] (s : Store) (start : Bytes) : List α :=
  (s.scan start).filterMap fun row => decodeEntity? α row.2

theorem mapM_readRow {rows : List (Bytes × Bytes)}
    (h : ∀ row ∈ rows, ∃ a : α, row.2 = encodeEntity a) :
    rows.mapM (fun row => readRow α row.2) =
      .ok (rows.filterMap fun row => decodeEntity? α row.2) := by
  induction rows with
  | nil => rfl
  | cons row rows ih =>
      obtain ⟨a, ha⟩ := h row List.mem_cons_self
      have htail := ih fun r hr => h r (List.mem_cons_of_mem _ hr)
      rw [List.mapM_cons, htail, ha, List.filterMap_cons, ha, decodeEntity?_encodeEntity]
      simp [readRow]
      rfl

theorem Sound.scanEntities {s : Store} (hs : Sound α s) {range : RowRange}
    (hstart : range.start.head? = some (Entity.kind α).byte) :
    scanEntities α s range = .ok (recordsFrom α s range.start) := by
  apply mapM_readRow
  intro row hrow
  obtain ⟨a, -, ha⟩ := hs.isRow_of_mem_scan hstart hrow
  exact ⟨a, ha.symm⟩

theorem Sound.mem_recordsFrom {s : Store} (hs : Sound α s) {start : Bytes}
    (hstart : start.head? = some (Entity.kind α).byte) {a : α} :
    a ∈ recordsFrom α s start ↔
      record? α s (Entity.key a) = some a ∧ start <+: rowKey α (Entity.key a) := by
  rw [recordsFrom, List.mem_filterMap]
  constructor
  · rintro ⟨⟨key, value⟩, hrow, hdecode⟩
    obtain ⟨b, hkey, hvalue⟩ := hs.isRow_of_mem_scan hstart hrow
    obtain ⟨hget, hstarts⟩ := ByteMap.mem_scan.1 hrow
    obtain rfl : b = a := by
      rw [← hvalue, decodeEntity?_encodeEntity] at hdecode
      exact Option.some.inj hdecode
    simp only at hkey hvalue
    rw [← hkey] at hget hstarts
    refine ⟨?_, hstarts⟩
    rw [record?, hget, ← hvalue]
    simp
  · rintro ⟨hrecord, hstarts⟩
    refine ⟨(rowKey α (Entity.key a), encodeEntity a), ByteMap.mem_scan.2 ⟨?_, hstarts⟩, by simp⟩
    rw [hs.get?_rowKey, hrecord]
    rfl

theorem Sound.recordsFrom_sorted {s : Store} (hs : Sound α s) {start : Bytes}
    (hstart : start.head? = some (Entity.kind α).byte) :
    (recordsFrom α s start).Pairwise fun a b =>
      rowKey α (Entity.key a) < rowKey α (Entity.key b) := by
  have hkey : ∀ row ∈ s.scan start, ∀ a, decodeEntity? α row.2 = some a →
      rowKey α (Entity.key a) = row.1 := by
    intro row hrow a ha
    obtain ⟨b, hb, hvalue⟩ := hs.isRow_of_mem_scan hstart hrow
    rw [← hvalue, decodeEntity?_encodeEntity] at ha
    rw [← Option.some.inj ha, hb]
  rw [recordsFrom, List.pairwise_filterMap]
  apply (s.scan_sorted start).imp_of_mem
  intro row row' hrow hrow' hlt a ha b hb
  rw [hkey row hrow a ha, hkey row' hrow' b hb]
  exact hlt

/-- No two records of a group have the same key. -/
theorem Sound.nodup_keys {s : Store} (hs : Sound α s) {start : Bytes}
    (hstart : start.head? = some (Entity.kind α).byte) :
    ((recordsFrom α s start).map (Entity.key (α := α))).Nodup := by
  rw [List.Nodup, List.pairwise_map]
  apply (hs.recordsFrom_sorted hstart).imp
  intro a b hlt heq
  rw [heq] at hlt
  exact List.lt_irrefl _ hlt

/-! ### Writers of sound tables -/

/-- A revision that cannot fail does to each row with the bytes of its key what it does to the
record, also if several keys are written as these bytes. -/
theorem Sound.record?_reviseEntity {s s' : Store} (hs : Sound α s) {key : κ}
    {g : Option α → Option α}
    (hkey : ∀ a, g (record? α s key) = some a → rowKey α (Entity.key a) = rowKey α key)
    (h : reviseEntity α s key (.ok ∘ g) = .ok s') (k : κ) :
    record? α s' k =
      if rowKey α key = rowKey α k then (g (record? α s k)).or (record? α s k)
      else record? α s k := by
  obtain ⟨found, made, hfound, hmade, rfl⟩ := reviseEntity_ok h
  obtain rfl : record? α s key = found := by
    rw [hs.getEntity] at hfound
    exact Except.ok.inj hfound
  obtain rfl : g (record? α s key) = made := Except.ok.inj hmade
  by_cases hk : rowKey α key = rowKey α k
  · have hsame : record? α s key = record? α s k := by rw [record?, record?, hk]
    rw [if_pos hk]
    cases hg : g (record? α s key) with
    | none =>
        rw [hsame] at hg
        rw [hg]
        rfl
    | some a =>
        have ha := (hkey a hg).trans hk
        rw [hsame] at hg
        rw [hg, Option.elim_some, record?, get?_putEntity, if_pos ha]
        simp
  · rw [if_neg hk]
    cases hg : g (record? α s key) with
    | none => rfl
    | some a =>
        have ha : rowKey α (Entity.key a) ≠ rowKey α k := fun heq => hk ((hkey a hg).symm.trans heq)
        rw [Option.elim_some, record?, get?_putEntity, if_neg ha, record?]

variable [InjectiveKey α]

theorem Sound.key_eq {s : Store} (hs : Sound α s) {key : κ} {a : α}
    (ha : record? α s key = some a) : Entity.key a = key :=
  rowKey_inj.1 (hs.rowKey_eq ha)

variable [DecidableEq κ]

theorem record?_putEntity (s : Store) (a : α) (key : κ) :
    record? α (putEntity s a) key = if Entity.key a = key then some a else record? α s key := by
  simp only [record?, get?_putEntity, rowKey_inj]
  split <;> simp

/-- After records are written, a key has one of those that have it, or what it had if none has. -/
theorem record?_putEntities (s : Store) (as : List α) (key : κ) :
    (∃ a ∈ as, Entity.key a = key ∧ record? α (putEntities s as) key = some a) ∨
      (∀ a ∈ as, Entity.key a ≠ key) ∧ record? α (putEntities s as) key = record? α s key := by
  induction as generalizing s with
  | nil => exact .inr ⟨by simp, rfl⟩
  | cons a as ih =>
      have hcons : putEntities s (a :: as) = putEntities (putEntity s a) as := rfl
      rw [hcons]
      rcases ih (putEntity s a) with ⟨b, hb, hkey, hrecord⟩ | ⟨hnone, hrecord⟩
      · exact .inl ⟨b, List.mem_cons_of_mem _ hb, hkey, hrecord⟩
      · rw [record?_putEntity] at hrecord
        by_cases hkey : Entity.key a = key
        · rw [if_pos hkey] at hrecord
          exact .inl ⟨a, List.mem_cons_self, hkey, hrecord⟩
        · rw [if_neg hkey] at hrecord
          exact .inr ⟨List.forall_mem_cons.2 ⟨hkey, hnone⟩, hrecord⟩

/-- Removing a group of records leaves the records outside of the group. -/
theorem record?_removeEntities_recordsFrom {s s' : Store} (hs : Sound α s)
    (hrows : SameRows (Entity.kind α) s s') {start : Bytes}
    (hstart : start.head? = some (Entity.kind α).byte) (key : κ) :
    record? α (removeEntities α s' ((recordsFrom α s start).map Entity.key)) key =
      if start <+: rowKey α key then none else record? α s key := by
  rw [record?_removeEntities, hrows.record?_eq]
  by_cases hkey : start <+: rowKey α key
  · rw [if_pos hkey]
    cases hfound : record? α s key with
    | none => simp
    | some a =>
        have ha : Entity.key a = key := hs.key_eq hfound
        have hmem : a ∈ recordsFrom α s start := by
          rw [hs.mem_recordsFrom hstart, ha]
          exact ⟨hfound, hkey⟩
        exact if_pos (List.mem_map.2 ⟨a, hmem, ha⟩)
  · rw [if_neg hkey]
    apply if_neg
    intro hmem
    obtain ⟨a, ha, rfl⟩ := List.mem_map.1 hmem
    exact hkey ((hs.mem_recordsFrom hstart).1 ha).2

/-- A revision writes what is made of the record under the key, and leaves the others. -/
theorem Sound.reviseEntity {s s' : Store} (hs : Sound α s) {key : κ}
    {f : Option α → Except Error (Option α)}
    (hkey : ∀ a, f (record? α s key) = .ok (some a) → Entity.key a = key)
    (h : reviseEntity α s key f = .ok s') :
    Sound α s' ∧ ∃ made, f (record? α s key) = .ok made ∧
      ∀ k, record? α s' k = if key = k then made.or (record? α s k) else record? α s k := by
  obtain ⟨found, made, hfound, hmade, rfl⟩ := reviseEntity_ok h
  obtain rfl : record? α s key = found := by
    rw [hs.getEntity] at hfound
    exact Except.ok.inj hfound
  cases made with
  | none => exact ⟨hs, none, hmade, by simp⟩
  | some a =>
      refine ⟨hs.putEntity a, some a, hmade, ?_⟩
      intro k
      rw [Option.elim_some, record?_putEntity, hkey a hmade]
      simp

/-- A revision that cannot fail. -/
theorem Sound.reviseEntity_comp_ok {s s' : Store} (hs : Sound α s) {key : κ}
    {g : Option α → Option α} (hkey : ∀ a, g (record? α s key) = some a → Entity.key a = key)
    (h : CoinLedger.reviseEntity α s key (.ok ∘ g) = .ok s') :
    Sound α s' ∧ ∀ k, record? α s' k =
      if key = k then (g (record? α s k)).or (record? α s k) else record? α s k := by
  have hkey' : ∀ a, (Except.ok (ε := Error) ∘ g) (record? α s key) = .ok (some a) →
      Entity.key a = key := fun a ha => hkey a (Except.ok.inj ha)
  obtain ⟨hs', made, hmade, hrecord⟩ := hs.reviseEntity hkey' h
  obtain rfl : g (record? α s key) = made := Except.ok.inj hmade
  refine ⟨hs', ?_⟩
  intro k
  rw [hrecord]
  by_cases hk : key = k
  · subst hk
    rfl
  · rw [if_neg hk, if_neg hk]

end

end CoinLedger
