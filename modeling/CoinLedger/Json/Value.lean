import CoinLedger.Decimal.Shortest
import CoinLedger.Json.Decode

/-! # Documents of any shape

`Value` is what a document means when nothing is known about its shape: whole numbers of 64 bits
and doubles are told apart, and an object has each name once.  `Value.ofJson?` reads one and
`Value.toJson` writes it.

A number that is no whole number of 64 bits becomes a double.  It is computed from its leading
digits, as many as 64 bits hold, and a power of ten, which can differ from the nearest double in
the last place.  Numbers too large for a double are refused, and so are documents that are nested
too deeply. -/

namespace CoinLedger

/-- A document of any shape; the names of an object are in the order of their bytes. -/
inductive Value where
  | null
  | bool (b : Bool)
  | natural (n : UInt64)
  | negative (n : Int64)
  | double (x : Float)
  | text (s : String)
  | list (items : List Value)
  | object (members : List (String × Value))
deriving Inhabited

namespace Value

/-! ### Numbers -/

/-- Ten to the power `e`, for exponents up to 308. -/
def powerOfTen (e : Nat) : Float := Float.ofScientific 1 false e

/-- Divides by ten to the power `e`, in steps of what a double can hold. -/
def scaleDown (x : Float) (e : Nat) : Float :=
  if e ≤ 308 then x / powerOfTen e
  else if x == 0 then x
  else scaleDown (x / powerOfTen 308) (e - 308)
termination_by e

/-- The double `significand · 10^e`, unless it is too large. -/
def scaled? (significand : Nat) (e : Int) : Option Float :=
  let x := (UInt64.ofNat significand).toFloat
  if e < 0 then some (scaleDown x (-e).toNat)
  else if e ≤ 308 then
    let y := x * powerOfTen e.toNat
    if y.isInf then none else some y
  else if x == 0 then some x
  else none

/-- Reads leading digits as long as the number fits in 64 bits; the digits behind them are left. -/
def leading (acc : Nat) : List Char → Nat × List Char
  | [] => (acc, [])
  | c :: cs =>
      let next := 10 * acc + (c.toNat - '0'.toNat)
      if next < UInt64.size then leading next cs else (acc, c :: cs)

/-- The size of the double that a number stands for.  An exponent beyond 31 bits is as good as an
infinite one, whatever the digits. -/
def magnitude? (n : Numeral) : Option Float :=
  let (high, cut) := leading 0 n.whole
  let (significand, rest) := leading high n.fraction
  let shift : Int := cut.length - (n.fraction.length - rest.length : Nat)
  match n.exponent with
  | none => scaled? significand shift
  | some (down, digits) =>
      let e := Nat.ofDigitChars 10 digits 0
      if e < 0x80000000 then
        let e := if down then shift - e else shift + e
        scaled? significand (max (-0x80000000) (min e 0x7FFFFFFF))
      else if significand ≠ 0 ∧ down = false then none
      else some 0

/-- The value of a number. -/
def ofNumeral? (n : Numeral) : Option Value :=
  let whole := Nat.ofDigitChars 10 n.whole 0
  let isWhole := n.fraction.isEmpty && n.exponent.isNone
  if isWhole && !n.negative && whole < UInt64.size then some (.natural (UInt64.ofNat whole))
  else if isWhole && n.negative && 0 < whole && whole ≤ 0x8000000000000000 then
    some (.negative (Int64.ofInt (-whole)))
  else (magnitude? n).map fun x => .double (if n.negative then -x else x)

/-- How a double is written: plainly where its decimal exponent is between -5 and 15, with a
fraction of at least one digit, and with an exponent otherwise, behind one digit and a fraction
that may be missing. -/
def numeralOfDouble (x : Float) : Numeral :=
  let negative := x.toBits >>> 63 == 1
  if x == 0 then ⟨negative, ['0'], ['0'], none⟩
  else
    let (n, scale) := Decimal.shortest x
    let digits := Nat.toDigits 10 n
    let point : Int := digits.length + scale
    if 0 ≤ scale ∧ point ≤ 16 then
      ⟨negative, digits ++ List.replicate scale.toNat '0', ['0'], none⟩
    else if 0 < point ∧ point ≤ 16 then
      ⟨negative, digits.take point.toNat, digits.drop point.toNat, none⟩
    else if -5 < point ∧ point ≤ 0 then
      ⟨negative, ['0'], List.replicate (-point).toNat '0' ++ digits, none⟩
    else
      let e := point - 1
      ⟨negative, digits.take 1, digits.drop 1, some (e < 0, Nat.toDigits 10 e.natAbs)⟩

/-! ### Reading and writing -/

/-- Puts a member in its place, instead of one with the same name. -/
def insertMember (name : String) (v : Value) : List (String × Value) → List (String × Value)
  | [] => [(name, v)]
  | (n, w) :: rest =>
      if n = name then (name, v) :: rest
      else if Bytes.utf8 name < Bytes.utf8 n then (name, v) :: (n, w) :: rest
      else (n, w) :: insertMember name v rest

mutual

/-- Reads a document that is nested less than `depth` deep. -/
def ofJson? (depth : Nat) : Json → Option Value
  | .null => some .null
  | .bool b => some (.bool b)
  | .number n => ofNumeral? n
  | .string body => (Json.bodyText? body).map .text
  | .array items => if depth ≤ 1 then none else (ofItems? (depth - 1) items).map .list
  | .object ms => if depth ≤ 1 then none else (ofMembers? (depth - 1) [] ms).map .object

/-- Reads the items of an array. -/
def ofItems? (depth : Nat) : List Json → Option (List Value)
  | [] => some []
  | j :: js =>
      match ofJson? depth j with
      | some v => (ofItems? depth js).map (v :: ·)
      | none => none

/-- Reads the members of an object; of two with one name the later one stays. -/
def ofMembers? (depth : Nat) (acc : List (String × Value)) :
    List (Bytes × Json) → Option (List (String × Value))
  | [] => some acc
  | (name, j) :: ms =>
      match Json.bodyText? name, ofJson? depth j with
      | some name, some v => ofMembers? depth (insertMember name v acc) ms
      | _, _ => none

end

/-- Reads a document that is nested at most 127 deep. -/
def read? (j : Json) : Option Value := ofJson? 128 j

mutual

/-- Writes a document. -/
def toJson : Value → Json
  | null => .null
  | bool b => .bool b
  | natural n => .ofNat n.toNat
  | negative n => .number ⟨true, Nat.toDigits 10 n.toInt.natAbs, [], none⟩
  | double x => .number (numeralOfDouble x)
  | text s => .ofText s
  | list items => .array (itemsToJson items)
  | object members => .object (membersToJson members)

/-- Writes the items of an array. -/
def itemsToJson : List Value → List Json
  | [] => []
  | v :: vs => toJson v :: itemsToJson vs

/-- Writes the members of an object. -/
def membersToJson : List (String × Value) → List (Bytes × Json)
  | [] => []
  | (name, v) :: ms => (Json.textBody name, toJson v) :: membersToJson ms

end

end Value

end CoinLedger
