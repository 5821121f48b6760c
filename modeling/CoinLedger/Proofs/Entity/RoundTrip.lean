import Mathlib.Data.List.Nodup
import CoinLedger.Entity.Basic
import CoinLedger.Proofs.Json.RoundTrip

/-! # Records are read back from their rows

`LawfulEntity` is the law of the schema: the document of a record is plain, and the record is read
back from it.  All nine kinds of records obey it, and so `decodeEntity?_encodeEntity` reads a record
back from the text that it is stored as.

Each reader of a part undoes the writer of the part (`text?_ofText`, `uint32?_ofNat`,
`outpoint?_ofOutpoint` and so on), and `fields?_record` finds the parts in the document of a
record. -/

namespace CoinLedger

/-! ### Texts of outpoints -/

theorem Bytes.colon_notMem_hexChars : ∀ bs : Bytes, ':' ∉ Bytes.hexChars bs
  | [] => by simp [hexChars]
  | b :: bs => by
      have hdigit : ∀ n < 16, ':' ≠ hexDigit n := by decide
      have hhigh := hdigit (b.toNat / 16) (by have := b.toNat_lt; omega)
      have hlow := hdigit (b.toNat % 16) (by omega)
      rw [hexChars, List.mem_cons, List.mem_cons]
      rintro (h | h | h)
      · exact hhigh h
      · exact hlow h
      · exact colon_notMem_hexChars bs h

theorem Outpoint.place?_toDigits (vout : UInt32) :
    Outpoint.place? (Nat.toDigits 10 vout.toNat) = some vout := by
  have hdigits : (Nat.toDigits 10 vout.toNat).all Char.isDigit = true := by
    rw [List.all_eq_true]
    exact fun c hc => Nat.isDigit_of_mem_toDigits (by omega) (by omega) hc
  have hhead : ¬(1 < (Nat.toDigits 10 vout.toNat).length ∧
      (Nat.toDigits 10 vout.toNat).head? = some '0') := by
    rintro ⟨hlength, hzero⟩
    by_cases hvout : vout.toNat = 0
    · simp [hvout] at hlength
    · obtain ⟨d, cs, heq, hlt, hd⟩ := Json.head_toDigits hvout
      have hne : ∀ d < 10, d ≠ 0 → Nat.digitChar d ≠ '0' := by decide
      rw [heq] at hzero
      exact hne d hlt hd (Option.some.inj hzero)
  rw [place?, if_neg (by simp only [hdigits]; simpa using hhead)]
  simp [Nat.ofDigitChars_ten_toDigits, vout.toNat_lt]

theorem Outpoint.ofText?_text (o : Outpoint) : Outpoint.ofText? o.text = some o := by
  have hcolon : ∀ c ∈ o.txid.text.toList, (c != ':') = true := by
    intro c hc
    rw [Hash256.text, Bytes.hex, String.toList_ofList] at hc
    rw [bne_iff_ne]
    rintro rfl
    exact Bytes.colon_notMem_hexChars _ hc
  have hchars : o.text.toList = o.txid.text.toList ++ ':' :: Nat.toDigits 10 o.vout.toNat := by
    simp [text, String.toList_append]
  have htake : o.text.toList.takeWhile (· ≠ ':') = o.txid.text.toList := by
    rw [hchars, List.takeWhile_append_of_pos (by simpa using hcolon)]
    simp
  have hdrop : o.text.toList.dropWhile (· ≠ ':') = ':' :: Nat.toDigits 10 o.vout.toNat := by
    rw [hchars, List.dropWhile_append_of_pos (by simpa using hcolon)]
    simp
  rw [ofText?]
  simp only [hdrop, htake, String.ofList_toList, Hash256.ofText?_text, place?_toDigits]

/-! ### Parts of documents -/

namespace Json

@[simp] theorem text?_ofText (s : String) : text? (ofText s) = some s := bodyText?_textBody s

@[simp] theorem hash256?_ofHash256 (h : Hash256) : hash256? (ofHash256 h) = some h := by
  simp [hash256?, ofHash256]

@[simp] theorem script?_ofScript (s : Script) : script? (ofScript s) = some s := by
  simp [script?, ofScript]

@[simp] theorem outpoint?_ofOutpoint (o : Outpoint) : outpoint? (ofOutpoint o) = some o := by
  simp [outpoint?, ofOutpoint, Outpoint.ofText?_text]

theorem natBelow?_ofNat {bound n : Nat} (h : n < bound) : natBelow? bound (ofNat n) = some n := by
  simp [natBelow?, ofNat, Nat.ofDigitChars_ten_toDigits, h]

@[simp] theorem uint8?_ofNat (u : UInt8) : uint8? (ofNat u.toNat) = some u := by
  simp [uint8?, natBelow?_ofNat u.toNat_lt]

@[simp] theorem uint32?_ofNat (u : UInt32) : uint32? (ofNat u.toNat) = some u := by
  simp [uint32?, natBelow?_ofNat u.toNat_lt]

@[simp] theorem uint64?_ofNat (u : UInt64) : uint64? (ofNat u.toNat) = some u := by
  simp [uint64?, natBelow?_ofNat u.toNat_lt]

@[simp] theorem bool?_bool (b : Bool) : bool? (bool b) = some b := rfl

@[simp] theorem paymentStatus?_ofText (p : PaymentStatus) :
    paymentStatus? (ofText p.name) = some p := by
  have hchoice : choice? (ofText p.name) = some p.name := bodyText?_textBody _
  rw [paymentStatus?, hchoice]
  exact PaymentStatus.ofName?_name p

theorem mapM_map {α β : Type} {f : α → β} {g : β → Option α} (h : ∀ a, g (f a) = some a) :
    ∀ as : List α, (as.map f).mapM g = some as
  | [] => rfl
  | a :: as => by simp [h, mapM_map h as]

theorem listOf?_array {α : Type} {f : α → Json} {g : Json → Option α}
    (h : ∀ a, g (f a) = some a) (as : List α) : listOf? g (array (as.map f)) = some as :=
  mapM_map h as

@[simp] theorem bytes?_ofBytes (bs : Bytes) : bytes? (ofBytes bs) = some bs :=
  listOf?_array uint8?_ofNat bs

theorem nullOr?_ofOption {α : Type} {f : α → Json} {g : Json → Option α}
    (h : ∀ a, g (f a) = some a) (hnull : ∀ a, f a ≠ null) (a : Option α) :
    nullOr? g (ofOption f a) = some a := by
  cases a with
  | none => rfl
  | some a =>
      have hvalue : nullOr? g (f a) = (g (f a)).map some := by
        rw [nullOr?]
        exact hnull a
      rw [ofOption, hvalue, h, Option.map_some]

@[simp] theorem required_some {α : Type} (f : Json → Option α) (j : Json) :
    required f (some j) = f j := rfl

@[simp] theorem optional_some {α : Type} (f : Json → Option α) (j : Json) :
    optional f (some j) = nullOr? f j := rfl

/-! ### Fields -/

theorem members?_map (members : List (String × Json)) :
    members? (members.map fun m => (textBody m.1, m.2)) = some members :=
  mapM_map (fun m => by simp) members

theorem field?_of_mem {members : List (String × Json)} (hnames : (members.map (·.1)).Nodup)
    {m : String × Json} (hm : m ∈ members) : field? members m.1 = some (some m.2) := by
  have hvalues : valuesOf m.1 members = [m.2] := by
    induction members with
    | nil => simp at hm
    | cons n ns ih =>
        rw [List.map_cons, List.nodup_cons] at hnames
        rcases List.mem_cons.1 hm with rfl | hm
        · have hrest : valuesOf m.1 ns = [] := by
            rw [valuesOf, List.map_eq_nil_iff, List.filter_eq_nil_iff]
            intro n hn heq
            exact hnames.1 (List.mem_map.2 ⟨n, hn, by simpa using heq⟩)
          have hcons : valuesOf m.1 (m :: ns) = m.2 :: valuesOf m.1 ns := by simp [valuesOf]
          rw [hcons, hrest]
        · have hne : (n.1 == m.1) = false := by
            rw [beq_eq_false_iff_ne]
            intro heq
            exact hnames.1 (heq ▸ List.mem_map_of_mem hm)
          have hcons : valuesOf m.1 (n :: ns) = valuesOf m.1 ns := by simp [valuesOf, hne]
          rw [hcons]
          exact ih hnames.2 hm
  rw [field?, hvalues]

/-- The fields of the document of a record are found in it. -/
theorem fields?_record {names : List String} {members : List (String × Json)}
    (heq : members.map (·.1) = names) (hnames : names.Nodup) :
    fields? names (record members) = some (members.map fun m => some m.2) := by
  subst heq
  have hfields : ∀ ms : List (String × Json), (∀ m ∈ ms, m ∈ members) →
      (ms.map (·.1)).mapM (field? members) = some (ms.map fun m => some m.2) := by
    intro ms hms
    induction ms with
    | nil => rfl
    | cons m ms ih =>
        have htail := ih fun n hn => hms n (List.mem_cons_of_mem _ hn)
        simp [field?_of_mem hnames (hms m List.mem_cons_self), htail]
  rw [record, fields?, members?_map]
  exact hfields members fun m hm => hm

/-! ### Plain documents -/

theorem plain_ofText (s : String) : (ofText s).Plain := .string _

theorem plain_ofHash256 (h : Hash256) : (ofHash256 h).Plain := plain_ofText _

theorem plain_ofScript (s : Script) : (ofScript s).Plain := plain_ofText _

theorem plain_ofOutpoint (o : Outpoint) : (ofOutpoint o).Plain := plain_ofText _

theorem plain_array {α : Type} {f : α → Json} (h : ∀ a, (f a).Plain) (as : List α) :
    (array (as.map f)).Plain := by
  refine .array ?_
  intro v hv
  obtain ⟨a, -, rfl⟩ := List.mem_map.1 hv
  exact h a

theorem plain_ofBytes (bs : Bytes) : (ofBytes bs).Plain := plain_array (fun _ => .nat _) bs

theorem plain_ofOption {α : Type} {f : α → Json} (h : ∀ a, (f a).Plain) (a : Option α) :
    (ofOption f a).Plain := by
  cases a with
  | none => exact .null
  | some a => exact h a

theorem plain_record {members : List (String × Json)} (h : ∀ m ∈ members, m.2.Plain) :
    (record members).Plain := by
  refine .object ?_ ?_
  · intro m hm
    obtain ⟨n, -, rfl⟩ := List.mem_map.1 hm
    exact ⟨_, rfl⟩
  · intro m hm
    obtain ⟨n, hn, rfl⟩ := List.mem_map.1 hm
    exact h n hn

theorem plain_ofSpentBy (s : SpentBy) : (ofSpentBy s).Plain :=
  plain_record (by simp [plain_ofHash256, Plain.nat])

@[simp] theorem spentBy?_ofSpentBy (s : SpentBy) : spentBy? (ofSpentBy s) = some s := by
  simp [spentBy?, ofSpentBy, fields?_record]

end Json

/-! ### The law of the schema -/

/-- Records of this kind are read back from their documents, and these are plain. -/
class LawfulEntity (α : Type) {κ : outParam Type} [Entity α κ] : Prop where
  plain (a : α) : (Entity.toJson a).Plain
  ofJson?_toJson (a : α) : Entity.ofJson? (Entity.toJson a) = some a

/-- A record is read back from the text that it is stored as. -/
@[simp] theorem decodeEntity?_encodeEntity {α κ : Type} [Entity α κ] [LawfulEntity α] (a : α) :
    decodeEntity? α (encodeEntity a) = some a := by
  rw [decodeEntity?, encodeEntity, Json.parse?_render (LawfulEntity.plain a), Option.bind_some,
    LawfulEntity.ofJson?_toJson]

/-- The text of a record tells the record. -/
theorem encodeEntity_injective {α κ : Type} [Entity α κ] [LawfulEntity α] {a b : α}
    (h : encodeEntity a = encodeEntity b) : a = b := by
  have hread := congrArg (decodeEntity? α) h
  simpa using hread

open Json

/-- An optional part that is never written as null is read back. -/
theorem optional_ofOption {α : Type} {f : α → Json} {g : Json → Option α}
    (h : ∀ a, g (f a) = some a) (hnull : ∀ a, f a ≠ null) (a : Option α) :
    optional g (some (ofOption f a)) = some a :=
  nullOr?_ofOption h hnull a

instance : LawfulEntity Wallet where
  plain w := plain_record (by
    simp [plain_ofText, plain_ofHash256, plain_array plain_ofText, Plain.nat])
  ofJson?_toJson w := by
    simp [Entity.ofJson?, Entity.toJson, fields?_record,
      listOf?_array text?_ofText]

instance : LawfulEntity ScriptRecord where
  plain s := plain_record (by simp [plain_ofScript])
  ofJson?_toJson s := by
    simp [Entity.ofJson?, Entity.toJson, fields?_record]

instance : LawfulEntity WalletScript where
  plain w := plain_record (by simp [plain_ofText, plain_ofScript, plain_ofOption plain_ofText])
  ofJson?_toJson w := by
    simp [Entity.ofJson?, Entity.toJson, fields?_record,
      optional_ofOption text?_ofText (fun _ => Json.noConfusion)]

instance : LawfulEntity TransactionRecord where
  plain t := plain_record (by simp [plain_ofHash256, plain_ofOption plain_ofHash256])
  ofJson?_toJson t := by
    simp [Entity.ofJson?, Entity.toJson, fields?_record,
      optional_ofOption hash256?_ofHash256 (fun _ => Json.noConfusion)]

instance : LawfulEntity TransactionScript where
  plain t := plain_record (by simp [plain_ofHash256, plain_ofScript, Plain.bool])
  ofJson?_toJson t := by
    simp [Entity.ofJson?, Entity.toJson, fields?_record]

instance : LawfulEntity Coin where
  plain c := plain_record (by
    simp [plain_ofOutpoint, plain_ofScript, Plain.nat, plain_ofOption plain_ofSpentBy])
  ofJson?_toJson c := by
    simp [Entity.ofJson?, Entity.toJson, fields?_record,
      optional_ofOption spentBy?_ofSpentBy (fun _ => Json.noConfusion)]

instance : LawfulEntity Channel where
  plain c := plain_record (by
    simp [plain_ofText, plain_ofOutpoint, plain_ofBytes, plain_ofOption plain_ofBytes])
  ofJson?_toJson c := by
    simp [Entity.ofJson?, Entity.toJson, fields?_record,
      optional_ofOption bytes?_ofBytes (fun _ => Json.noConfusion)]

instance : LawfulEntity Payment where
  plain p := plain_record (by
    simp [plain_ofText, Plain.bool, Plain.nat, plain_ofOption plain_ofText])
  ofJson?_toJson p := by
    simp [Entity.ofJson?, Entity.toJson, fields?_record,
      optional_ofOption text?_ofText (fun _ => Json.noConfusion)]

instance : LawfulEntity Blob where
  plain b := plain_record (by simp [plain_ofText, plain_ofBytes, plain_ofOption plain_ofText])
  ofJson?_toJson b := by
    simp [Entity.ofJson?, Entity.toJson, fields?_record,
      optional_ofOption text?_ofText (fun _ => Json.noConfusion)]

end CoinLedger
