/-! # The shortest decimal of a double

A positive double is `m · 2^q` with natural `m`.  The real numbers that round to it form an
interval around it, and `shortest` finds the decimal `digits · 10^scale` in this interval that has
the fewest digits, and of several the one nearest to the double.

The search goes through the decimal grids from coarse to fine.  If a grid has a point in the
interval, one of the two neighbours of the double on this grid is such a point, so it is enough
to test those two.  All comparisons are exact: `Interval` keeps the double and the ends of its
interval as multiples of one fraction. -/

namespace CoinLedger.Decimal

/-- A double with its rounding interval, as numerators over one denominator. -/
structure Interval where
  low : Nat
  value : Nat
  high : Nat
  denominator : Nat
  /-- Whether the ends themselves round to the double. -/
  closed : Bool

namespace Interval

/-- The interval of `m · 2^q`.  Below a power of two the next double is only half as far away. -/
def ofBinary (m : Nat) (q : Int) : Interval :=
  let down := if m = 0x10000000000000 ∧ -1074 < q then 1 else 2
  let scale := if 2 ≤ q then 1 <<< (q - 2).toNat else 1
  let denominator := if 2 ≤ q then 1 else 1 <<< (2 - q).toNat
  ⟨(4 * m - down) * scale, 4 * m * scale, (4 * m + 2) * scale, denominator, m % 2 == 0⟩

/-- Whether the number `n / d` lies in the interval. -/
def contains (i : Interval) (n d : Nat) : Bool :=
  let x := n * i.denominator
  if i.closed then i.low * d ≤ x && x ≤ i.high * d else i.low * d < x && x < i.high * d

/-- The point of the grid of steps `step / d` that lies in the interval and is nearest to the
double, as a number of steps; of two equally near ones the even number. -/
def gridPoint? (i : Interval) (step d : Nat) : Option Nat :=
  let below := i.value * d / (step * i.denominator)
  let above := below + 1
  let inBelow := 0 < below && i.contains (below * step) d
  let inAbove := i.contains (above * step) d
  let toBelow := i.value * d - below * step * i.denominator
  let toAbove := above * step * i.denominator - i.value * d
  if inBelow && inAbove then
    if toBelow < toAbove || (toBelow == toAbove && below % 2 == 0) then some below else some above
  else if inBelow then some below
  else if inAbove then some above
  else none

/-- Tries `count` grids, the first with steps `10^scale`. -/
def search (i : Interval) : Nat → Int → Nat × Int
  | 0, scale => (0, scale)
  | count + 1, scale =>
      let step := if 0 ≤ scale then Nat.pow 10 scale.toNat else 1
      let d := if 0 ≤ scale then 1 else Nat.pow 10 (-scale).toNat
      match i.gridPoint? step d with
      | some digits => (digits, scale)
      | none => i.search count (scale - 1)

end Interval

/-- The significand and the exponent of a finite double without its sign. -/
def binaryParts (x : Float) : Nat × Int :=
  let bits := x.toBits.toNat
  let fraction : Nat := bits % 0x10000000000000
  let exponent : Nat := bits / 0x10000000000000 % 2048
  if exponent = 0 then (fraction, -1074) else (0x10000000000000 + fraction, (exponent : Int) - 1075)

/-- The shortest decimal `digits · 10^scale` of a finite double other than zero, without its
sign.  The coarsest grid that can have a point in an interval is that of `10^309`, and the finest
that is needed that of `10^-325`. -/
def shortest (x : Float) : Nat × Int :=
  let (m, q) := binaryParts x
  (Interval.ofBinary m q).search 640 309

end CoinLedger.Decimal
