import CoinLedger.Proofs.Entity.Keys

/-! # All keys in one space of bytes

A `TypedKey` is a key of any kind, and `TypedKey.bytes` are its bytes in the store.  It is plain if
the texts that a zero byte ends have no zero byte themselves: the name of a wallet in front of the
keys of its scripts, channels and payments, and the hash of a payment.

Plain keys are told apart by their bytes (`TypedKey.bytes_inj`).  A group of rows covers the keys
that it is meant to list (`RowRange.Covers`), and among plain keys these are the ones that start with
the bytes of the group (`RowRange.start_prefix_iff`).

The order of the bytes is the order of the numbers where a key ends with one (`Bytes.beBytes_lt`), so
that the coins of a transaction stand in the order of their places (`vout_lt_of_rowKey_lt`). -/

namespace CoinLedger

/-! ### Keys of any kind -/

/-- A key of any kind. -/
inductive TypedKey where
  | wallet (id : String)
  | script (script : Script)
  | walletScript (key : WalletScriptKey)
  | transaction (txid : Txid)
  | transactionScript (key : TransactionScriptKey)
  | coin (outpoint : Outpoint)
  | channel (key : ChannelKey)
  | payment (key : PaymentKey)
  | blob (key : String)
deriving DecidableEq

namespace TypedKey

/-- The kind of records that the key belongs to. -/
def kind : TypedKey → EntityKind
  | wallet _ => .wallet
  | script _ => .script
  | walletScript _ => .walletScript
  | transaction _ => .transaction
  | transactionScript _ => .transactionScript
  | coin _ => .coin
  | channel _ => .channel
  | payment _ => .payment
  | blob _ => .blob

/-- The key of the row. -/
def bytes : TypedKey → Bytes
  | wallet id => rowKey Wallet id
  | script s => rowKey ScriptRecord s
  | walletScript key => rowKey WalletScript key
  | transaction txid => rowKey TransactionRecord txid
  | transactionScript key => rowKey TransactionScript key
  | coin outpoint => rowKey Coin outpoint
  | channel key => rowKey Channel key
  | payment key => rowKey Payment key
  | blob key => rowKey Blob key

/-- The texts that are ended by a zero byte have no zero byte. -/
def Plain : TypedKey → Prop
  | walletScript key => 0 ∉ Bytes.utf8 key.walletId
  | channel key => 0 ∉ Bytes.utf8 key.walletId
  | payment key => 0 ∉ Bytes.utf8 key.walletId ∧ 0 ∉ Bytes.utf8 key.paymentHash
  | _ => True

instance : DecidablePred Plain
  | walletScript key => inferInstanceAs (Decidable (0 ∉ Bytes.utf8 key.walletId))
  | channel key => inferInstanceAs (Decidable (0 ∉ Bytes.utf8 key.walletId))
  | payment key => inferInstanceAs
      (Decidable (0 ∉ Bytes.utf8 key.walletId ∧ 0 ∉ Bytes.utf8 key.paymentHash))
  | wallet _ | script _ | transaction _ | transactionScript _ | coin _ | blob _ => .isTrue trivial

theorem head?_bytes (k : TypedKey) : k.bytes.head? = some k.kind.byte := by
  cases k <;> rfl

theorem kind_eq_of_bytes_eq {a b : TypedKey} (h : a.bytes = b.bytes) : a.kind = b.kind := by
  have hhead : some a.kind.byte = some b.kind.byte := by rw [← head?_bytes, h, head?_bytes]
  exact EntityKind.byte_injective (Option.some.inj hhead)

end TypedKey

/-- A script is what is left of a key behind the name of its wallet. -/
theorem walletScript_keyBytes_inj {k k' : WalletScriptKey} (hk : 0 ∉ Bytes.utf8 k.walletId)
    (hk' : 0 ∉ Bytes.utf8 k'.walletId)
    (h : Entity.keyBytes WalletScript k = Entity.keyBytes WalletScript k') : k = k' := by
  obtain ⟨walletId, script⟩ := k
  obtain ⟨walletId', script'⟩ := k'
  obtain ⟨hid, hbytes⟩ := terminated_append_inj hk hk' h
  obtain rfl : walletId = walletId' := hid
  obtain rfl : script = script' := Script.bytes_injective hbytes
  rfl

/-- The id of a payment is what is left of a key behind two texts and one byte. -/
theorem payment_keyBytes_inj {k k' : PaymentKey}
    (hk : 0 ∉ Bytes.utf8 k.walletId ∧ 0 ∉ Bytes.utf8 k.paymentHash)
    (hk' : 0 ∉ Bytes.utf8 k'.walletId ∧ 0 ∉ Bytes.utf8 k'.paymentHash)
    (h : Entity.keyBytes Payment k = Entity.keyBytes Payment k') : k = k' := by
  obtain ⟨walletId, paymentHash, inbound, paymentId⟩ := k
  obtain ⟨walletId', paymentHash', inbound', paymentId'⟩ := k'
  simp only [Entity.keyBytes, List.append_assoc] at h
  obtain ⟨rfl, hrest⟩ := terminated_append_inj hk.1 hk'.1 h
  obtain ⟨rfl, htail⟩ := terminated_append_inj hk.2 hk'.2 hrest
  obtain ⟨hflag, hid⟩ := List.cons.inj htail
  obtain rfl : paymentId = paymentId' := Bytes.utf8_injective hid
  obtain rfl : inbound = inbound' := by
    cases inbound <;> cases inbound' <;> simp_all
  rfl

/-- Plain keys have the same bytes just if they are of the same kind and the same. -/
theorem TypedKey.bytes_inj {a b : TypedKey} (ha : a.Plain) (hb : b.Plain) :
    a.bytes = b.bytes ↔ a = b := by
  refine ⟨fun h => ?_, congrArg bytes⟩
  have hkind := kind_eq_of_bytes_eq h
  -- keys of the same kind are compared as the kind has it
  cases a with
  | wallet _ => cases b with
    | wallet _ => exact congrArg wallet (rowKey_inj.1 h)
    | _ => cases hkind
  | script _ => cases b with
    | script _ => exact congrArg script (rowKey_inj.1 h)
    | _ => cases hkind
  | walletScript _ => cases b with
    | walletScript _ =>
        exact congrArg walletScript (walletScript_keyBytes_inj ha hb (List.cons.inj h).2)
    | _ => cases hkind
  | transaction _ => cases b with
    | transaction _ => exact congrArg transaction (rowKey_inj.1 h)
    | _ => cases hkind
  | transactionScript _ => cases b with
    | transactionScript _ => exact congrArg transactionScript (rowKey_inj.1 h)
    | _ => cases hkind
  | coin _ => cases b with
    | coin _ => exact congrArg coin (rowKey_inj.1 h)
    | _ => cases hkind
  | channel _ => cases b with
    | channel _ => exact congrArg channel (rowKey_inj.1 h)
    | _ => cases hkind
  | payment _ => cases b with
    | payment _ => exact congrArg payment (payment_keyBytes_inj ha hb (List.cons.inj h).2)
    | _ => cases hkind
  | blob _ => cases b with
    | blob _ => exact congrArg blob (rowKey_inj.1 h)
    | _ => cases hkind

/-! ### Groups of rows -/

namespace RowRange

/-- The keys that a group of rows is meant to list. -/
def Covers : RowRange → TypedKey → Prop
  | kind k, key => key.kind = k
  | walletScripts walletId, .walletScript key => key.walletId = walletId
  | transactionScripts txid, .transactionScript key => key.txid = txid
  | coinsFundedBy txid, .coin outpoint => outpoint.txid = txid
  | channels walletId, .channel key => key.walletId = walletId
  | payments walletId, .payment key => key.walletId = walletId
  | _, _ => False

/-- The name of the wallet that a group of rows is asked for has no zero byte. -/
def Plain : RowRange → Prop
  | walletScripts walletId | channels walletId | payments walletId => 0 ∉ Bytes.utf8 walletId
  | _ => True

/-- A group of rows lists keys of one kind. -/
theorem head?_start_eq {range : RowRange} {key : TypedKey} (h : range.start <+: key.bytes) :
    range.start.head? = some key.kind.byte := by
  obtain ⟨rest, hrest⟩ := h
  rw [← key.head?_bytes, ← hrest]
  cases range <;> rfl

/-- Among plain keys, those that start like a group of rows are those that belong to it. -/
theorem start_prefix_iff {range : RowRange} (hrange : range.Plain) {key : TypedKey}
    (hkey : key.Plain) : range.start <+: key.bytes ↔ range.Covers key := by
  -- a key of another kind starts with another byte
  have hother : range.start.head? ≠ some key.kind.byte → ¬range.start <+: key.bytes :=
    fun hne h => hne (head?_start_eq h)
  cases range with
  | kind k =>
      constructor
      · intro h
        exact EntityKind.byte_injective (Option.some.inj (head?_start_eq h).symm)
      · rintro rfl
        cases key <;> exact ⟨_, rfl⟩
  | walletScripts walletId => cases key with
    | walletScript key => exact walletScripts_start_prefix_iff hrange hkey
    | _ => exact iff_of_false (hother (by simp [start, TypedKey.kind, EntityKind.byte])) id
  | transactionScripts txid => cases key with
    | transactionScript key => exact transactionScripts_start_prefix_iff
    | _ => exact iff_of_false (hother (by simp [start, TypedKey.kind, EntityKind.byte])) id
  | coinsFundedBy txid => cases key with
    | coin outpoint => exact coinsFundedBy_start_prefix_iff
    | _ => exact iff_of_false (hother (by simp [start, TypedKey.kind, EntityKind.byte])) id
  | channels walletId => cases key with
    | channel key => exact channels_start_prefix_iff hrange hkey
    | _ => exact iff_of_false (hother (by simp [start, TypedKey.kind, EntityKind.byte])) id
  | payments walletId => cases key with
    | payment key => exact payments_start_prefix_iff hrange hkey.1
    | _ => exact iff_of_false (hother (by simp [start, TypedKey.kind, EntityKind.byte])) id

end RowRange

/-! ### The order of places -/

theorem Bytes.append_lt_append {xs ys : Bytes} (hlength : xs.length = ys.length) (h : xs < ys)
    (as bs : Bytes) : xs ++ as < ys ++ bs := by
  induction xs generalizing ys with
  | nil =>
      obtain rfl : ys = [] := List.length_eq_zero_iff.1 hlength.symm
      exact absurd h (List.lt_irrefl _)
  | cons x xs ih =>
      cases ys with
      | nil => cases hlength
      | cons y ys =>
          rw [List.cons_append, List.cons_append, List.cons_lt_cons_iff]
          rcases List.cons_lt_cons_iff.1 h with hlt | ⟨rfl, hlt⟩
          · exact .inl hlt
          · exact .inr ⟨rfl, ih (Nat.succ.inj hlength) hlt⟩

theorem Bytes.beBytes_succ (n v : Nat) :
    beBytes (n + 1) v = beBytes n (v / 256) ++ [UInt8.ofNat v] := by
  simp [beBytes, leBytes]

/-- Numbers that are written most significant byte first are ordered like their bytes. -/
theorem Bytes.beBytes_lt {n v w : Nat} (hw : w < 256 ^ n) (h : v < w) :
    beBytes n v < beBytes n w := by
  induction n generalizing v w with
  | zero => omega
  | succ n ih =>
      rw [beBytes_succ, beBytes_succ]
      have hhigh : w / 256 < 256 ^ n := by
        rw [Nat.div_lt_iff_lt_mul (by omega)]
        omega
      rcases Nat.lt_or_ge (v / 256) (w / 256) with hlt | hge
      · exact append_lt_append (by simp) (ih hhigh hlt) _ _
      · -- the numbers differ in the last byte only
        have hsame : v / 256 = w / 256 := by omega
        rw [hsame]
        refine List.append_left_lt (List.cons_lt_cons_iff.2 (.inl ?_))
        rw [UInt8.lt_iff_toNat_lt]
        simp only [UInt8.toNat_ofNat']
        omega

/-- The coins of a transaction stand in the order of their places. -/
theorem vout_lt_of_rowKey_lt {o o' : Outpoint} (htxid : o.txid = o'.txid)
    (h : rowKey Coin o < rowKey Coin o') : o.vout.toNat < o'.vout.toNat := by
  by_contra hle
  rcases Nat.lt_or_eq_of_le (Nat.not_lt.1 hle) with hlt | heq
  · have hbytes := Bytes.beBytes_lt (n := 4) o.vout.toNat_lt hlt
    have hrows : rowKey Coin o' < rowKey Coin o := by
      refine List.cons_lt_cons_iff.2 (.inr ⟨rfl, ?_⟩)
      show o'.txid.bytes ++ _ < o.txid.bytes ++ _
      rw [htxid]
      exact List.append_left_lt hbytes
    exact List.lt_irrefl _ (List.lt_trans h hrows)
  · obtain rfl : o = o' := by
      cases o
      cases o'
      simp_all [UInt32.toNat_inj]
    exact List.lt_irrefl _ h

end CoinLedger
