import CoinLedger.Bytes

/-! # JSON documents

`Json` is a document as it is written: numbers keep their digits (`Numeral`) and strings keep
their escapes, so that nothing is lost or refused before it is known what a part of a document is
read as.  `Json.render` writes a document without white space.

Strings are written in two steps.  `escape` turns the bytes of a text into the body between the
quotes, and `unescape?` turns a body back, refusing halves of surrogate pairs;
`unescape?_escape` says that the second undoes the first, and `bodyText?_textBody` says the same of
texts. -/

namespace CoinLedger

/-- A number as it is written: digits, with an optional fraction and an optional exponent, whose
first part says whether it is negative. -/
structure Numeral where
  negative : Bool
  whole : List Char
  /-- The digits behind the point; without digits there is no point. -/
  fraction : List Char
  exponent : Option (Bool × List Char)
deriving DecidableEq

/-- A document.  Strings and names of members are bodies with their escapes. -/
inductive Json where
  | null
  | bool (b : Bool)
  | number (n : Numeral)
  | string (body : Bytes)
  | array (items : List Json)
  | object (members : List (Bytes × Json))
deriving Inhabited

namespace Json

/-! ### Bodies of strings -/

/-- The letter of the short escape of a byte, if there is one. -/
def shortLetter? (b : UInt8) : Option UInt8 :=
  if b = 0x22 ∨ b = 0x5c then some b
  else if b = 0x08 then some 0x62
  else if b = 0x0c then some 0x66
  else if b = 0x0a then some 0x6e
  else if b = 0x0d then some 0x72
  else if b = 0x09 then some 0x74
  else none

/-- The byte of a hexadecimal digit. -/
def hexDigitByte (n : Nat) : UInt8 := UInt8.ofNat (Bytes.hexDigit n).toNat

/-- The escape of one byte: short where there is a short form, numeric for the other control
characters, none for all other bytes. -/
def escapeByte (b : UInt8) : Bytes :=
  match shortLetter? b with
  | some e => [0x5c, e]
  | none =>
      if b < 0x20 then
        [0x5c, 0x75, 0x30, 0x30, hexDigitByte (b.toNat / 16), hexDigitByte (b.toNat % 16)]
      else [b]

/-- The body of a string that stands for these bytes. -/
def escape (bs : Bytes) : Bytes := bs.flatMap escapeByte

/-- The number that four hexadecimal digits stand for. -/
def hexFour? (a b c d : UInt8) : Option Nat :=
  match Bytes.hexValue? (Char.ofNat a.toNat), Bytes.hexValue? (Char.ofNat b.toNat),
    Bytes.hexValue? (Char.ofNat c.toNat), Bytes.hexValue? (Char.ofNat d.toNat) with
  | some a, some b, some c, some d => some (((a * 16 + b) * 16 + c) * 16 + d)
  | _, _, _, _ => none

/-- The byte that a short escape stands for. -/
def shortEscape? (e : UInt8) : Option UInt8 :=
  if e = 0x22 ∨ e = 0x5c ∨ e = 0x2f then some e
  else if e = 0x62 then some 0x08
  else if e = 0x66 then some 0x0c
  else if e = 0x6e then some 0x0a
  else if e = 0x72 then some 0x0d
  else if e = 0x74 then some 0x09
  else none

/-- The bytes of a character by its number. -/
def codePoint (n : Nat) : Bytes := String.utf8EncodeChar (Char.ofNat n)

/-- The bytes that a body stands for.  The first half of a surrogate pair must be followed by a
second half, and a second half must follow a first one. -/
def unescape? : Bytes → Option Bytes
  | [] => some []
  | 0x5c :: 0x75 :: a :: b :: c :: d :: rest =>
      match hexFour? a b c d with
      | none => none
      | some n =>
          if 0xdc00 ≤ n ∧ n ≤ 0xdfff then none
          else if 0xd800 ≤ n ∧ n ≤ 0xdbff then
            match rest with
            | 0x5c :: 0x75 :: a :: b :: c :: d :: rest =>
                match hexFour? a b c d with
                | none => none
                | some m =>
                    if 0xdc00 ≤ m ∧ m ≤ 0xdfff then
                      (unescape? rest).map
                        (codePoint (0x10000 + (n - 0xd800) * 0x400 + (m - 0xdc00)) ++ ·)
                    else none
            | _ => none
          else (unescape? rest).map (codePoint n ++ ·)
  | 0x5c :: e :: rest =>
      match shortEscape? e with
      | some b => (unescape? rest).map (b :: ·)
      | none => none
  | b :: rest => (unescape? rest).map (b :: ·)

theorem hexFour?_hexDigitByte :
    ∀ n < 32, hexFour? 0x30 0x30 (hexDigitByte (n / 16)) (hexDigitByte (n % 16)) = some n := by
  decide

theorem codePoint_of_lt : ∀ n < 32, codePoint n = [UInt8.ofNat n] := by decide

theorem unescape?_plain {b : UInt8} (h : b ≠ 0x5c) (rest : Bytes) :
    unescape? (b :: rest) = (unescape? rest).map (b :: ·) := by
  rw [unescape?] <;> simp_all

theorem unescape?_short {e b : UInt8} (h : shortEscape? e = some b) (he : e ≠ 0x75)
    (rest : Bytes) : unescape? (0x5c :: e :: rest) = (unescape? rest).map (b :: ·) := by
  rw [unescape?, h]
  simp_all

theorem unescape?_control {n : Nat} (h : n < 32) (rest : Bytes) :
    unescape? (0x5c :: 0x75 :: 0x30 :: 0x30 :: hexDigitByte (n / 16) :: hexDigitByte (n % 16) ::
      rest) = (unescape? rest).map (UInt8.ofNat n :: ·) := by
  have hlow : ¬(0xdc00 ≤ n ∧ n ≤ 0xdfff) := by omega
  have hhigh : ¬(0xd800 ≤ n ∧ n ≤ 0xdbff) := by omega
  rw [unescape?, hexFour?_hexDigitByte n h]
  simp [hlow, hhigh, codePoint_of_lt n h]

theorem shortEscape?_of_shortLetter? {b e : UInt8} (h : shortLetter? b = some e) :
    shortEscape? e = some b ∧ e ≠ 0x75 := by
  unfold shortLetter? at h
  split at h
  · rename_i hb
    simp only [Option.some.injEq] at h
    subst h
    rcases hb with rfl | rfl <;> decide
  · repeat (split at h; · simp_all; subst h; decide)
    simp at h

theorem unescape?_escapeByte (b : UInt8) (rest : Bytes) :
    unescape? (escapeByte b ++ rest) = (unescape? rest).map (b :: ·) := by
  unfold escapeByte
  split
  · rename_i e he
    have hshort := shortEscape?_of_shortLetter? he
    exact unescape?_short hshort.1 hshort.2 rest
  · rename_i hnone
    split
    · rename_i hlt
      simpa using unescape?_control (UInt8.lt_iff_toNat_lt.1 hlt) rest
    · have hne : b ≠ 0x5c := by grind [shortLetter?]
      exact unescape?_plain hne rest

@[simp] theorem unescape?_escape : ∀ bs : Bytes, unescape? (escape bs) = some bs
  | [] => rfl
  | b :: bs => by
      have hcons : escape (b :: bs) = escapeByte b ++ escape bs := rfl
      rw [hcons, unescape?_escapeByte, unescape?_escape bs, Option.map_some]

/-- The text that a body stands for, if its bytes encode one. -/
def bodyText? (body : Bytes) : Option String := (unescape? body).bind Bytes.toText?

/-- The body that stands for a text. -/
def textBody (s : String) : Bytes := escape (Bytes.utf8 s)

@[simp] theorem bodyText?_textBody (s : String) : bodyText? (textBody s) = some s := by
  simp [bodyText?, textBody]

/-! ### Writing -/

/-- The bytes of ASCII characters. -/
def ascii (cs : List Char) : Bytes := cs.map fun c => UInt8.ofNat c.toNat

end Json

/-- A number as it is written; an exponent has its sign, a plus sign too. -/
def Numeral.render (n : Numeral) : Bytes :=
  (if n.negative then [0x2d] else []) ++ Json.ascii n.whole ++
    (if n.fraction.isEmpty then [] else 0x2e :: Json.ascii n.fraction) ++
    match n.exponent with
    | none => []
    | some (negative, digits) =>
        0x65 :: (if negative then 0x2d else 0x2b) :: Json.ascii digits

namespace Json

mutual

/-- A document without white space. -/
def render : Json → Bytes
  | null => [0x6e, 0x75, 0x6c, 0x6c]
  | bool true => [0x74, 0x72, 0x75, 0x65]
  | bool false => [0x66, 0x61, 0x6c, 0x73, 0x65]
  | number n => n.render
  | string body => 0x22 :: body ++ [0x22]
  | array [] => [0x5b, 0x5d]
  | array (v :: vs) => 0x5b :: render v ++ renderItems vs
  | object [] => [0x7b, 0x7d]
  | object ((name, v) :: ms) => 0x7b :: 0x22 :: name ++ 0x22 :: 0x3a :: render v ++ renderMembers ms

/-- The items behind the first one, each with a comma in front, and the closing bracket. -/
def renderItems : List Json → Bytes
  | [] => [0x5d]
  | v :: vs => 0x2c :: render v ++ renderItems vs

/-- The members behind the first one, each with a comma in front, and the closing brace. -/
def renderMembers : List (Bytes × Json) → Bytes
  | [] => [0x7d]
  | (name, v) :: ms => 0x2c :: 0x22 :: name ++ 0x22 :: 0x3a :: render v ++ renderMembers ms

end

/-! ### Documents for values -/

/-- The document of a text. -/
def ofText (s : String) : Json := string (textBody s)

/-- The document of a natural number. -/
def ofNat (n : Nat) : Json := number ⟨false, Nat.toDigits 10 n, [], none⟩

/-- The document of a byte string: an array of numbers. -/
def ofBytes (bs : Bytes) : Json := array (bs.map fun b => ofNat b.toNat)

/-- The document of an optional value. -/
def ofOption {α : Type} (f : α → Json) : Option α → Json
  | some a => f a
  | none => null

/-- The document of a record, its members in the order of its fields. -/
def record (members : List (String × Json)) : Json :=
  object (members.map fun m => (textBody m.1, m.2))

end Json

end CoinLedger
