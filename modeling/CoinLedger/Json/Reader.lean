import CoinLedger.Json.Basic

/-! # Reading documents

`Json.parse?` reads one document with nothing but white space around it.  It checks the grammar
alone: what the digits and escapes mean is looked at when a value is read out of the document.

The readers of parts take a byte string and return what they read together with the rest.  Those
of values and of lists of values take a bound on the depth of recursion, which `parse?` computes
from the length of the text. -/

namespace CoinLedger.Json

/-- The four bytes that count as white space. -/
def isBlank (b : UInt8) : Bool := b == 0x20 || b == 0x0a || b == 0x0d || b == 0x09

/-- Drops white space. -/
def skipBlank (bs : Bytes) : Bytes := bs.dropWhile isBlank

/-! ### Strings and numbers -/

/-- Whether the text starts with four hexadecimal digits. -/
def startsWithHexFour : Bytes → Bool
  | a :: b :: c :: d :: _ => (hexFour? a b c d).isSome
  | _ => false

/-- Reads the body of a string and its closing quote.  Control characters may not stand in it. -/
def readBody : Bytes → Option (Bytes × Bytes)
  | [] => none
  | b :: rest =>
      if b = 0x22 then some ([], rest)
      else if b = 0x5c then
        match rest with
        | e :: rest =>
            if (shortEscape? e).isSome || (e == 0x75 && startsWithHexFour rest) then
              (readBody rest).map fun p => (b :: e :: p.1, p.2)
            else none
        | [] => none
      else if b < 0x20 then none
      else (readBody rest).map fun p => (b :: p.1, p.2)

/-- Whether a byte is a decimal digit. -/
def isDigit (b : UInt8) : Bool := 0x30 ≤ b && b ≤ 0x39

/-- Reads as many digits as there are. -/
def readDigits (bs : Bytes) : List Char × Bytes :=
  ((bs.takeWhile isDigit).map fun b => Char.ofNat b.toNat, bs.dropWhile isDigit)

/-- Reads the digits in front of the point; a zero stands alone. -/
def readWhole : Bytes → Option (List Char × Bytes)
  | [] => none
  | b :: rest =>
      if b = 0x30 then some (['0'], rest)
      else if isDigit b then some (readDigits (b :: rest))
      else none

/-- Reads the point and the digits behind it, if there is a point. -/
def readFraction : Bytes → Option (List Char × Bytes)
  | [] => some ([], [])
  | b :: rest =>
      if b = 0x2e then
        match readDigits rest with
        | ([], _) => none
        | digits => some digits
      else some ([], b :: rest)

/-- Reads a sign; only a minus sign makes it negative. -/
def readSign : Bytes → Bool × Bytes
  | [] => (false, [])
  | b :: rest =>
      if b = 0x2d then (true, rest) else if b = 0x2b then (false, rest) else (false, b :: rest)

/-- Reads an exponent, if there is one. -/
def readExponent : Bytes → Option (Option (Bool × List Char) × Bytes)
  | [] => some (none, [])
  | b :: rest =>
      if b = 0x65 ∨ b = 0x45 then
        let (negative, rest) := readSign rest
        match readDigits rest with
        | ([], _) => none
        | (digits, rest) => some (some (negative, digits), rest)
      else some (none, b :: rest)

/-- Reads a number. -/
def readNumeral (bs : Bytes) : Option (Numeral × Bytes) :=
  let (negative, bs) := match bs with
    | b :: rest => if b = 0x2d then (true, rest) else (false, bs)
    | [] => (false, bs)
  (readWhole bs).bind fun (whole, bs) =>
    (readFraction bs).bind fun (fraction, bs) =>
      (readExponent bs).map fun (exponent, bs) => (⟨negative, whole, fraction, exponent⟩, bs)

/-- Reads a word, letter by letter. -/
def readWord (v : Json) : Bytes → Bytes → Option (Json × Bytes)
  | [], bs => some (v, bs)
  | w :: ws, b :: bs => if w = b then readWord v ws bs else none
  | _ :: _, [] => none

/-! ### Values -/

mutual

/-- Reads a value. -/
def readValue : Nat → Bytes → Option (Json × Bytes)
  | 0, _ => none
  | depth + 1, bs =>
      match skipBlank bs with
      | [] => none
      | b :: rest =>
          if b = 0x22 then (readBody rest).map fun p => (string p.1, p.2)
          else if b = 0x5b then
            match skipBlank rest with
            | c :: after =>
                if c = 0x5d then some (array [], after)
                else (readItems depth rest).map fun p => (array p.1, p.2)
            | [] => none
          else if b = 0x7b then
            match skipBlank rest with
            | c :: after =>
                if c = 0x7d then some (object [], after)
                else (readMembers depth rest).map fun p => (object p.1, p.2)
            | [] => none
          else if b = 0x6e then readWord null [0x75, 0x6c, 0x6c] rest
          else if b = 0x74 then readWord (bool true) [0x72, 0x75, 0x65] rest
          else if b = 0x66 then readWord (bool false) [0x61, 0x6c, 0x73, 0x65] rest
          else (readNumeral (b :: rest)).map fun p => (number p.1, p.2)

/-- Reads the items of an array, at least one, and the closing bracket. -/
def readItems : Nat → Bytes → Option (List Json × Bytes)
  | 0, _ => none
  | depth + 1, bs =>
      match readValue depth bs with
      | none => none
      | some (v, rest) =>
          match skipBlank rest with
          | [] => none
          | b :: rest =>
              if b = 0x2c then (readItems depth rest).map fun p => (v :: p.1, p.2)
              else if b = 0x5d then some ([v], rest)
              else none

/-- Reads the members of an object, at least one, and the closing brace. -/
def readMembers : Nat → Bytes → Option (List (Bytes × Json) × Bytes)
  | 0, _ => none
  | depth + 1, bs =>
      match skipBlank bs with
      | [] => none
      | q :: rest =>
          if q ≠ 0x22 then none
          else
            match readBody rest with
            | none => none
            | some (name, rest) =>
                match skipBlank rest with
                | [] => none
                | c :: rest =>
                    if c ≠ 0x3a then none
                    else
                      match readValue depth rest with
                      | none => none
                      | some (v, rest) =>
                          match skipBlank rest with
                          | [] => none
                          | b :: rest =>
                              if b = 0x2c then
                                (readMembers depth rest).map fun p => ((name, v) :: p.1, p.2)
                              else if b = 0x7d then some ([(name, v)], rest)
                              else none

end

/-- Reads one document.  Every two levels of recursion read at least one byte. -/
def parse? (bs : Bytes) : Option Json :=
  match readValue (2 * bs.length + 2) bs with
  | some (v, rest) => if (skipBlank rest).isEmpty then some v else none
  | none => none

end CoinLedger.Json
