import CoinLedger.Transaction.Encoding

/-! # Fee rates and weights

A `FeeRate` is a number of satoshi for each virtual byte, in single precision; a virtual byte is
four units of weight.  All sums of fees are sums in single precision, and `wholeSat` rounds one up
at the end.

`sumAmounts` adds amounts up, and `isDust` says which are too small for an output.  The rest are the
weights that a fee is charged for. -/

namespace CoinLedger

/-- Satoshi for each virtual byte. -/
structure FeeRate where
  satPerVb : Float32

namespace FeeRate

/-- The lowest rate that is relayed, and the rate where none is given. -/
def minimumRelay : FeeRate := ⟨1.0⟩

instance : Inhabited FeeRate := ⟨minimumRelay⟩

/-- A rate that is given in coins for each thousand virtual bytes. -/
def ofBtcPerKvb (rate : Float32) : FeeRate := ⟨rate * 100000.0⟩

/-- The fee for some units of weight, not rounded. -/
def feeFor (rate : FeeRate) (weight : Nat) : Float32 :=
  (UInt64.ofNat weight).toFloat32 * rate.satPerVb / 4.0

end FeeRate

/-- A fee rounded up to whole satoshi.  No number counts as zero, and so does a negative one; what
is too large for 64 bits counts as the largest amount. -/
def wholeSat (fee : Float32) : UInt64 :=
  let below := fee.toUInt64
  -- only fees below 2^24 have a fraction, and for these the comparison is exact
  if below.toFloat32 < fee ∧ below ≠ 0xFFFFFFFFFFFFFFFF then below + 1 else below

/-! ### Amounts -/

/-- The sum of amounts; it wraps around if it does not fit into 64 bits. -/
def sumAmounts (amounts : List UInt64) : UInt64 := amounts.foldr (· + ·) 0

/-- The largest amount that is too small for an output. -/
def dustLimit : UInt64 := 546

/-- Whether an amount is too small for an output. -/
def isDust (amount : UInt64) : Bool := amount ≤ dustLimit

/-! ### Weights -/

/-- Version, lock time and the two counts, ten bytes, and the two bytes that mark a transaction
with witnesses, which weigh one unit each. -/
def headerWeight : Nat := 10 * 4 + 2

/-- An input without what unlocks it: outpoint, length of an empty script and sequence, 41
bytes. -/
def inputWeight : Nat := 41 * 4

/-- What unlocks an output that is locked by the hash of a public key: a signature of at most 73
bytes with its mark, a key of 33 bytes, and their two lengths. -/
def keyHashSatisfactionWeight : Nat := 73 + 33 + 2

/-- The weight of an output. -/
def TxOut.weight (o : TxOut) : Nat := o.size * 4

end CoinLedger
