import CoinLedger.Error

/-! # Derivation paths

A `Path` is the list of steps that lead from a master key to a key below it.  `Path.parse?` reads
its text and `Path.text` writes it; `parsePath` reports a text that is no path.

The text is a list of numbers below `2^31` that are separated by `/`, each with a mark `'` or `h`
behind it if the step is hardened; `m/` may stand in front, and the empty path is the empty text,
`m` or `m/`.

A template is a path text with one `*` in place of a number.  `fill` puts a text in place of every
`*`, and `checkTemplate` accepts the templates. -/

namespace CoinLedger.Key

/-! ### Steps -/

/-- One step of a path, to the child with this number. -/
structure Step where
  number : Nat
  hardened : Bool
  number_lt : number < 0x80000000
deriving DecidableEq

namespace Step

/-- The step as one number; hardened steps fill the upper half of the range. -/
def index (s : Step) : Nat := if s.hardened then s.number + 0x80000000 else s.number

/-- The text of a step. -/
def chars (s : Step) : List Char :=
  (toString s.number).toList ++ if s.hardened then ['\''] else []

/-- The step to the child with this number, if there is one. -/
def ofNumber? (number : Nat) (hardened : Bool) : Option Step :=
  if h : number < 0x80000000 then some ⟨number, hardened, h⟩ else none

end Step

/-- The value of decimal digits. -/
def decimal (cs : List Char) : Nat := cs.foldl (fun acc c => acc * 10 + (c.toNat - 48)) 0

/-- Whether the text is made of decimal digits, at least one. -/
def isDecimal (cs : List Char) : Bool :=
  !cs.isEmpty && cs.all fun c => '0' ≤ c && c ≤ '9'

/-- Reads a number: decimal digits, zeros in front allowed, behind at most one plus sign. -/
def number? (cs : List Char) : Option Nat :=
  let digits := match cs with
    | '+' :: rest => rest
    | _ => cs
  if isDecimal digits then some (decimal digits) else none

/-- Splits off the mark of a hardened step. -/
def splitMark (cs : List Char) : List Char × Bool :=
  match cs.getLast? with
  | some c => if c = '\'' ∨ c = 'h' then (cs.dropLast, true) else (cs, false)
  | none => (cs, false)

/-- Reads one step. -/
def Step.parse? (cs : List Char) : Option Step :=
  let (digits, hardened) := splitMark cs
  (number? digits).bind fun n => Step.ofNumber? n hardened

/-! ### Paths -/

/-- The steps from a key to a key below it. -/
abbrev Path := List Step

/-- The parts of a text between separators, one more than there are separators. -/
def pieces (sep : Char) : List Char → List (List Char)
  | [] => [[]]
  | c :: cs =>
      if c = sep then [] :: pieces sep cs
      else
        match pieces sep cs with
        | first :: rest => (c :: first) :: rest
        | [] => [[c]]

namespace Path

/-- Reads a path. -/
def parseChars? (cs : List Char) : Option Path :=
  if cs = [] ∨ cs = ['m'] ∨ cs = ['m', '/'] then some []
  else
    let body := match cs with
      | 'm' :: '/' :: rest => rest
      | _ => cs
    (pieces '/' body).mapM Step.parse?

/-- Reads a path. -/
def parse? (s : String) : Option Path := parseChars? s.toList

/-- The text of a path, without `m/` in front. -/
def text (p : Path) : String := String.ofList (List.intercalate ['/'] (p.map Step.chars))

end Path

/-- Reads a path, or reports its text. -/
def parsePath (s : String) : Except Error Path :=
  match Path.parse? s with
  | some p => .ok p
  | none => .error (.invalidDerivationPath s)

/-! ### Templates -/

/-- Puts a text in place of every `*`. -/
def fillChars (value : List Char) (template : List Char) : List Char :=
  template.flatMap fun c => if c = '*' then value else [c]

/-- Puts a text in place of every `*`. -/
def fill (template value : String) : String :=
  String.ofList (fillChars value.toList template.toList)

/-- Accepts a text with one `*` that is a path once a number takes its place. -/
def checkTemplate (template : String) : Except Error Unit :=
  if template.toList.count '*' = 1 ∧ (Path.parse? (fill template "0")).isSome then .ok ()
  else .error (.invalidDerivationPath template)

end CoinLedger.Key
