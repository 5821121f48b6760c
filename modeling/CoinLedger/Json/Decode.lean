import CoinLedger.Json.Reader

/-! # Values out of documents

Each function reads one kind of value out of a document, or nothing if the document has another
shape.

A record can be written in two ways: as an object that has each field at most once, in any order
and possibly among other members, or as an array of the values of all fields in their order.
`Json.fields?` looks the fields up, and `required` and `optional` read them; an optional field may
be missing or null. -/

namespace CoinLedger.Json

/-- Reads a text. -/
def text? : Json → Option String
  | string body => bodyText? body
  | _ => none

/-- Reads a truth value. -/
def bool? : Json → Option Bool
  | bool b => some b
  | _ => none

/-- Reads a natural number below a bound.  It is written as digits only. -/
def natBelow? (bound : Nat) : Json → Option Nat
  | number ⟨false, whole, [], none⟩ =>
      let n := Nat.ofDigitChars 10 whole 0
      if n < bound then some n else none
  | _ => none

/-- Reads a byte. -/
def uint8? (j : Json) : Option UInt8 := (natBelow? UInt8.size j).map UInt8.ofNat

/-- Reads a number of 32 bits. -/
def uint32? (j : Json) : Option UInt32 := (natBelow? UInt32.size j).map UInt32.ofNat

/-- Reads a number of 64 bits. -/
def uint64? (j : Json) : Option UInt64 := (natBelow? UInt64.size j).map UInt64.ofNat

/-- Reads the items of an array. -/
def listOf? {α : Type} (f : Json → Option α) : Json → Option (List α)
  | array items => items.mapM f
  | _ => none

/-- Reads a byte string that is written as an array of numbers. -/
def bytes? (j : Json) : Option Bytes := listOf? uint8? j

/-- Reads a value that may be null. -/
def nullOr? {α : Type} (f : Json → Option α) : Json → Option (Option α)
  | null => some none
  | j => (f j).map some

/-- Reads a hash. -/
def hash256? (j : Json) : Option Hash256 := (text? j).bind Hash256.ofText?

/-! ### Records -/

/-- The values of one field among the members of an object. -/
def valuesOf (name : String) (members : List (String × Json)) : List Json :=
  (members.filter fun m => m.1 == name).map (·.2)

/-- The value of a field that stands there at most once. -/
def field? (members : List (String × Json)) (name : String) : Option (Option Json) :=
  match valuesOf name members with
  | [] => some none
  | [v] => some (some v)
  | _ => none

/-- The members of an object, their names read as texts. -/
def members? (members : List (Bytes × Json)) : Option (List (String × Json)) :=
  members.mapM fun m => (bodyText? m.1).map fun name => (name, m.2)

/-- The values of the fields with these names, in their order; a field that an object does not
have gives none. -/
def fields? (names : List String) : Json → Option (List (Option Json))
  | object ms => (members? ms).bind fun ms => names.mapM (field? ms)
  | array items => if items.length = names.length then some (items.map some) else none
  | _ => none

/-- Reads a field that must be there. -/
def required {α : Type} (f : Json → Option α) (j : Option Json) : Option α := j.bind f

/-- Reads a field that may be missing or null. -/
def optional {α : Type} (f : Json → Option α) : Option Json → Option (Option α)
  | some j => nullOr? f j
  | none => some none

/-! ### Choices -/

/-- The name of a choice that has no content: a text, or an object with the name and null. -/
def choice? : Json → Option String
  | string body => bodyText? body
  | object [(name, null)] => bodyText? name
  | _ => none

/-- The name and the content of a choice that has content. -/
def taggedChoice? : Json → Option (String × Json)
  | object [(name, content)] => (bodyText? name).map fun name => (name, content)
  | _ => none

end CoinLedger.Json
