/-! # Byte strings

`Bytes` is a list of bytes, ordered lexicographically.  This module holds what the rest of the
library writes and reads in bytes:

* `leBytes n v` and `beBytes n v` write the number `v` in `n` bytes, least or most significant
  byte first; `ofBe` reads a number written most significant byte first;
* `hexChars` writes two lowercase digits a byte and `ofHexChars?` reads digits of either case
  back, so that `ofHexChars?_hexChars` holds;
* `hex` and `ofHex?` are the same two functions on strings;
* `utf8` is the byte string of a text, and `toText?` reads it back. -/

namespace CoinLedger

/-- A byte string. -/
abbrev Bytes := List UInt8

namespace Bytes

/-- The bytes of a text. -/
def utf8 (s : String) : Bytes := s.toUTF8.data.toList

/-- The text that these bytes encode, if they are valid. -/
def toText? (bs : Bytes) : Option String := String.fromUTF8? ⟨bs.toArray⟩

@[simp] theorem toText?_utf8 (s : String) : toText? (utf8 s) = some s := by
  have harray : (⟨(utf8 s).toArray⟩ : ByteArray) = s.toByteArray := by simp [utf8]
  rw [toText?, harray, String.fromUTF8?, dif_pos s.isValidUTF8]
  rfl

/-! ### Numbers in bytes -/

/-- The low `n` bytes of a number, least significant first. -/
def leBytes : Nat → Nat → Bytes
  | 0, _ => []
  | n + 1, v => UInt8.ofNat v :: leBytes n (v / 256)

/-- The low `n` bytes of a number, most significant first. -/
def beBytes (n v : Nat) : Bytes := (leBytes n v).reverse

/-- The number written most significant byte first. -/
def ofBe (bs : Bytes) : Nat := bs.foldl (fun acc b => acc * 256 + b.toNat) 0

@[simp] theorem length_leBytes : ∀ n v : Nat, (leBytes n v).length = n
  | 0, _ => rfl
  | n + 1, v => by simp [leBytes, length_leBytes n]

@[simp] theorem length_beBytes (n v : Nat) : (beBytes n v).length = n := by simp [beBytes]

/-! ### Hexadecimal text -/

/-- The lowercase digit of a number below sixteen. -/
def hexDigit (n : Nat) : Char := if n < 10 then Char.ofNat (48 + n) else Char.ofNat (87 + n)

/-- The value of a hexadecimal digit of either case. -/
def hexValue? (c : Char) : Option Nat :=
  if '0' ≤ c ∧ c ≤ '9' then some (c.toNat - 48)
  else if 'a' ≤ c ∧ c ≤ 'f' then some (c.toNat - 87)
  else if 'A' ≤ c ∧ c ≤ 'F' then some (c.toNat - 55)
  else none

/-- Two lowercase digits a byte, the high half first. -/
def hexChars : Bytes → List Char
  | [] => []
  | b :: bs => hexDigit (b.toNat / 16) :: hexDigit (b.toNat % 16) :: hexChars bs

/-- Reads an even number of digits of either case. -/
def ofHexChars? : List Char → Option Bytes
  | [] => some []
  | hi :: lo :: rest =>
      match hexValue? hi, hexValue? lo with
      | some h, some l => (ofHexChars? rest).map (UInt8.ofNat (16 * h + l) :: ·)
      | _, _ => none
  | [_] => none

theorem hexValue?_hexDigit : ∀ n < 16, hexValue? (hexDigit n) = some n := by decide

@[simp] theorem ofHexChars?_hexChars : ∀ bs : Bytes, ofHexChars? (hexChars bs) = some bs
  | [] => rfl
  | b :: bs => by
      have hb := b.toNat_lt
      have hsum : 16 * (b.toNat / 16) + b.toNat % 16 = b.toNat := by omega
      simp only [hexChars, ofHexChars?, hexValue?_hexDigit _ (show b.toNat / 16 < 16 by omega),
        hexValue?_hexDigit _ (show b.toNat % 16 < 16 by omega), ofHexChars?_hexChars bs,
        Option.map_some, hsum, UInt8.ofNat_toNat]

@[simp] theorem length_hexChars : ∀ bs : Bytes, (hexChars bs).length = 2 * bs.length
  | [] => rfl
  | _ :: bs => by simp [hexChars, length_hexChars bs]; omega

/-- The hexadecimal text of a byte string. -/
def hex (bs : Bytes) : String := String.ofList (hexChars bs)

/-- The byte string of a hexadecimal text. -/
def ofHex? (s : String) : Option Bytes := ofHexChars? s.toList

@[simp] theorem ofHex?_hex (bs : Bytes) : ofHex? (hex bs) = some bs := by simp [ofHex?, hex]

end Bytes

/-! ### Hashes of 32 bytes -/

/-- A hash of 32 bytes, as used to identify transactions and blocks. -/
structure Hash256 where
  bytes : Bytes
  length_eq : bytes.length = 32
deriving DecidableEq

namespace Hash256

/-- The hash of 32 zero bytes, which identifies nothing. -/
def zero : Hash256 := ⟨List.replicate 32 0, by simp⟩

instance : Inhabited Hash256 := ⟨zero⟩

/-- The hash with these bytes, if there are 32 of them. -/
def ofBytes? (bs : Bytes) : Option Hash256 :=
  if h : bs.length = 32 then some ⟨bs, h⟩ else none

/-- People read and write these hashes with the last byte first. -/
def text (h : Hash256) : String := Bytes.hex h.bytes.reverse

/-- Reads 64 digits, the last byte first. -/
def ofText? (s : String) : Option Hash256 := (Bytes.ofHex? s).bind fun bs => ofBytes? bs.reverse

@[simp] theorem ofBytes?_bytes (h : Hash256) : ofBytes? h.bytes = some h := by
  simp [ofBytes?, h.length_eq]

@[simp] theorem ofText?_text (h : Hash256) : ofText? h.text = some h := by simp [ofText?, text]

end Hash256

/-- The hash that identifies a transaction. -/
abbrev Txid := Hash256

/-- The hash that identifies a block. -/
abbrev BlockHash := Hash256

end CoinLedger
