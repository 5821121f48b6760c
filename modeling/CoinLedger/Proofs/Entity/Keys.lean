import Mathlib.Algebra.Group.Nat.Defs
import Mathlib.Logic.Function.Basic
import CoinLedger.Entity.Basic

/-! # Keys tell records apart

`InjectiveKey` says of a kind of records that different keys are written as different bytes, so
that a row belongs to one key.  It holds of the kinds whose keys are a single text, a script, a
hash, or parts of known lengths but one.  The keys that join a text to something else of any length
are not among them: a text may contain the zero byte that is to end it.  Texts that do not contain it
are told apart by `terminated_append_inj`, and hexadecimal texts are such texts.

The rows of a group are recognised by their keys: `coinsFundedBy_start_prefix_iff` says so for the
coins that a transaction makes, `transactionScripts_start_prefix_iff` for the scripts of a
transaction, and `walletScripts_start_prefix_iff` and its siblings for the rows of a wallet.
`rowKey_ne` keeps the kinds apart. -/

namespace CoinLedger

/-! ### Numbers and texts in keys -/

theorem Bytes.leBytes_injective :
    ∀ {n v w : Nat}, v < 256 ^ n → w < 256 ^ n → leBytes n v = leBytes n w → v = w
  | 0, v, w, hv, hw, _ => by omega
  | n + 1, v, w, hv, hw, h => by
      obtain ⟨hhead, htail⟩ := List.cons.inj h
      have hlow : v % 256 = w % 256 := by
        have hbytes := congrArg UInt8.toNat hhead
        simpa using hbytes
      have hhigh : v / 256 = w / 256 := by
        refine leBytes_injective ?_ ?_ htail
        · rw [Nat.div_lt_iff_lt_mul (by omega)]
          omega
        · rw [Nat.div_lt_iff_lt_mul (by omega)]
          omega
      omega

theorem Bytes.utf8_injective : Function.Injective Bytes.utf8 := fun s t h => by
  have htexts := congrArg Bytes.toText? h
  simpa using htexts

theorem Hash256.bytes_injective : Function.Injective Hash256.bytes := fun
  | ⟨_, _⟩, ⟨_, _⟩, rfl => rfl

theorem Script.bytes_injective : Function.Injective Script.bytes := fun
  | ⟨_⟩, ⟨_⟩, rfl => rfl

/-- A hash in front of other bytes is read off from their first 32. -/
theorem Hash256.bytes_append_inj {a b : Hash256} {xs ys : Bytes}
    (h : a.bytes ++ xs = b.bytes ++ ys) : a = b ∧ xs = ys := by
  have hlength : a.bytes.length = b.bytes.length := by rw [a.length_eq, b.length_eq]
  obtain ⟨hab, hxs⟩ := List.append_inj h hlength
  exact ⟨bytes_injective hab, hxs⟩

theorem Outpoint.keyBytes_injective : Function.Injective Outpoint.keyBytes := by
  rintro ⟨txid, vout⟩ ⟨txid', vout'⟩ h
  obtain ⟨htxid, hplace⟩ := Hash256.bytes_append_inj h
  have hvout : vout.toNat = vout'.toNat :=
    Bytes.leBytes_injective (n := 4) vout.toNat_lt vout'.toNat_lt (List.reverse_inj.1 hplace)
  simp only at htxid
  rw [htxid, UInt32.toNat_inj.1 hvout]

theorem Outpoint.length_keyBytes (o : Outpoint) : o.keyBytes.length = 36 := by
  simp [keyBytes, o.txid.length_eq]

/-! ### Texts without a zero byte -/

theorem Bytes.utf8_ofList (cs : List Char) :
    Bytes.utf8 (String.ofList cs) = cs.flatMap String.utf8EncodeChar := by
  simp [Bytes.utf8, String.toByteArray_ofList, List.utf8Encode]

theorem Bytes.zero_notMem_hexDigit :
    ∀ n < 16, (0 : UInt8) ∉ String.utf8EncodeChar (Bytes.hexDigit n) := by decide

theorem Bytes.zero_notMem_hex (bs : Bytes) : 0 ∉ Bytes.utf8 (Bytes.hex bs) := by
  rw [Bytes.hex, Bytes.utf8_ofList]
  induction bs with
  | nil => simp [Bytes.hexChars]
  | cons b bs ih =>
      have hlt : b.toNat < 256 := b.toNat_lt
      have hhigh := Bytes.zero_notMem_hexDigit (b.toNat / 16) (by omega)
      have hlow := Bytes.zero_notMem_hexDigit (b.toNat % 16) (by omega)
      simp only [Bytes.hexChars, List.flatMap_cons, List.mem_append, not_or]
      exact ⟨hhigh, hlow, ih⟩

theorem takeWhile_terminated {s : String} (hs : 0 ∉ Bytes.utf8 s) (xs : Bytes) :
    (terminated s ++ xs).takeWhile (· ≠ 0) = Bytes.utf8 s := by
  have hkeep : ∀ b ∈ Bytes.utf8 s, decide (b ≠ 0) = true := by
    rintro b hb
    simp only [ne_eq, decide_eq_true_eq]
    rintro rfl
    exact hs hb
  rw [terminated, List.append_assoc, List.takeWhile_append_of_pos hkeep]
  simp

/-- Texts without a zero byte are read off in front of what follows them in a key. -/
theorem terminated_append_inj {s t : String} {xs ys : Bytes} (hs : 0 ∉ Bytes.utf8 s)
    (ht : 0 ∉ Bytes.utf8 t) (h : terminated s ++ xs = terminated t ++ ys) : s = t ∧ xs = ys := by
  have hbytes : Bytes.utf8 s = Bytes.utf8 t := by
    rw [← takeWhile_terminated hs xs, h, takeWhile_terminated ht ys]
  obtain rfl : s = t := Bytes.utf8_injective hbytes
  exact ⟨rfl, List.append_cancel_left h⟩

/-- A text in front of a key is the first part of the key, and not only the beginning of it. -/
theorem terminated_prefix_iff {s t : String} {xs : Bytes} (hs : 0 ∉ Bytes.utf8 s)
    (ht : 0 ∉ Bytes.utf8 t) : terminated s <+: terminated t ++ xs ↔ t = s := by
  constructor
  · rintro ⟨rest, hrest⟩
    exact (terminated_append_inj hs ht hrest).1.symm
  · rintro rfl
    exact List.prefix_append _ _

/-! ### Rows and keys -/

/-- Different keys of this kind are written differently. -/
class InjectiveKey (α : Type) {κ : outParam Type} [Entity α κ] : Prop where
  keyBytes_injective : Function.Injective (Entity.keyBytes α)

instance : InjectiveKey Wallet := ⟨Bytes.utf8_injective⟩

instance : InjectiveKey ScriptRecord := ⟨Script.bytes_injective⟩

instance : InjectiveKey TransactionRecord := ⟨Hash256.bytes_injective⟩

instance : InjectiveKey TransactionScript where
  keyBytes_injective := by
    rintro ⟨txid, script⟩ ⟨txid', script'⟩ h
    obtain ⟨htxid, hscript⟩ := Hash256.bytes_append_inj h
    simp only at htxid hscript
    rw [htxid, Script.bytes_injective hscript]

instance : InjectiveKey Coin := ⟨Outpoint.keyBytes_injective⟩

/-- The outpoint at the end of the key has a known length, so the name in front of it does not have
to be free of zero bytes. -/
instance : InjectiveKey Channel where
  keyBytes_injective := by
    rintro ⟨walletId, funding⟩ ⟨walletId', funding'⟩ h
    have hlength : funding.keyBytes.length = funding'.keyBytes.length := by
      rw [funding.length_keyBytes, funding'.length_keyBytes]
    obtain ⟨hid, hfunding⟩ := List.append_inj' h hlength
    obtain rfl : walletId = walletId' := Bytes.utf8_injective (List.append_inj_left' hid rfl)
    obtain rfl : funding = funding' := Outpoint.keyBytes_injective hfunding
    rfl

instance : InjectiveKey Blob := ⟨Bytes.utf8_injective⟩

section

variable {α κ : Type} [Entity α κ]

theorem head?_rowKey (key : κ) : (rowKey α key).head? = some (Entity.kind α).byte := rfl

theorem rowKey_inj [InjectiveKey α] {k k' : κ} : rowKey α k = rowKey α k' ↔ k = k' := by
  constructor
  · intro h
    exact InjectiveKey.keyBytes_injective (List.cons.inj h).2
  · rintro rfl
    rfl

/-- Rows of different kinds have different keys. -/
theorem rowKey_ne {β κ' : Type} [Entity β κ'] (h : Entity.kind α ≠ Entity.kind β) (k : κ)
    (k' : κ') : rowKey α k ≠ rowKey β k' := fun heq =>
  h (EntityKind.byte_injective (List.cons.inj heq).1)

theorem rowKey_startsWith_kind (key : κ) : (RowRange.kind (Entity.kind α)).start <+: rowKey α key :=
  ⟨Entity.keyBytes α key, rfl⟩

end

/-- The coins that a transaction makes are the ones whose outpoints name it. -/
theorem coinsFundedBy_start_prefix_iff {txid : Txid} {o : Outpoint} :
    (RowRange.coinsFundedBy txid).start <+: rowKey Coin o ↔ o.txid = txid := by
  constructor
  · rintro ⟨rest, hrest⟩
    have hbytes : txid.bytes ++ rest = o.txid.bytes ++ Bytes.beBytes 4 o.vout.toNat :=
      (List.cons.inj hrest).2
    exact (Hash256.bytes_append_inj hbytes).1.symm
  · rintro rfl
    exact ⟨Bytes.beBytes 4 o.vout.toNat, rfl⟩

/-- The scripts of a transaction are the ones whose keys name it. -/
theorem transactionScripts_start_prefix_iff {txid : Txid} {k : TransactionScriptKey} :
    (RowRange.transactionScripts txid).start <+: rowKey TransactionScript k ↔ k.txid = txid := by
  constructor
  · rintro ⟨rest, hrest⟩
    have hbytes : txid.bytes ++ rest = k.txid.bytes ++ k.script.bytes := (List.cons.inj hrest).2
    exact (Hash256.bytes_append_inj hbytes).1.symm
  · rintro rfl
    exact ⟨k.script.bytes, rfl⟩

/-- Scripts of one length are told apart by their keys, along with their wallets. -/
theorem walletScript_rowKey_inj {id id' : String} {script script' : Script}
    (hlength : script.bytes.length = script'.bytes.length)
    (h : rowKey WalletScript ⟨id, script⟩ = rowKey WalletScript ⟨id', script'⟩) :
    id = id' ∧ script = script' := by
  have hbytes : terminated id ++ script.bytes = terminated id' ++ script'.bytes :=
    (List.cons.inj h).2
  obtain ⟨hids, hscripts⟩ := List.append_inj' hbytes hlength
  exact ⟨Bytes.utf8_injective (List.append_inj_left' hids rfl), Script.bytes_injective hscripts⟩

/-! ### The rows of a wallet

The rows of a wallet are the ones whose keys name it, among keys that have no zero byte in the name
of the wallet. -/

section

variable {id : String} (hid : 0 ∉ Bytes.utf8 id)

include hid

theorem walletScripts_start_prefix_iff {k : WalletScriptKey} (hk : 0 ∉ Bytes.utf8 k.walletId) :
    (RowRange.walletScripts id).start <+: rowKey WalletScript k ↔ k.walletId = id :=
  List.prefix_cons_inj _ |>.trans (terminated_prefix_iff hid hk)

theorem channels_start_prefix_iff {k : ChannelKey} (hk : 0 ∉ Bytes.utf8 k.walletId) :
    (RowRange.channels id).start <+: rowKey Channel k ↔ k.walletId = id :=
  List.prefix_cons_inj _ |>.trans (terminated_prefix_iff hid hk)

theorem payments_start_prefix_iff {k : PaymentKey} (hk : 0 ∉ Bytes.utf8 k.walletId) :
    (RowRange.payments id).start <+: rowKey Payment k ↔ k.walletId = id := by
  have hbytes : Entity.keyBytes Payment k = terminated k.walletId ++ (terminated k.paymentHash ++
      (if k.inbound then 1 else 0) :: Bytes.utf8 k.paymentId) := List.append_assoc _ _ _
  rw [rowKey, hbytes]
  exact List.prefix_cons_inj _ |>.trans (terminated_prefix_iff hid hk)

end

end CoinLedger
