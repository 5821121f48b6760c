import CoinLedger.Error
import CoinLedger.Funding.FeeRate

/-! # Coin selection

A transaction must spend some coins and may spend others.  A `Selector` chooses: it is given both
lists, the fee rate, the amount to pay and the fee for the transaction without its inputs, and
answers with a `Selection` or an error.

`largestFirstBy` takes all the coins that must be spent and then, from the largest of the others to
the smallest, as many as are needed to pay the amount and the fee, which grows with every coin.  A
`Tally` is what the coins taken so far are worth and what fee has to be paid for them.

Which of two coins of one value comes first is not settled by this: it is left to the way in which the
coins are sorted (`FallingSort`).  `largestFirst` is the selector for one of these ways. -/

namespace CoinLedger

/-- A coin to spend and the weight of what unlocks it. -/
structure WeightedUtxo where
  satisfactionWeight : Nat
  utxo : Utxo
deriving DecidableEq, Inhabited

namespace WeightedUtxo

/-- A coin that is locked by the hash of a public key. -/
def ofKeyHash (utxo : Utxo) : WeightedUtxo := ⟨keyHashSatisfactionWeight, utxo⟩

/-- The value of the coin. -/
def value (w : WeightedUtxo) : UInt64 := w.utxo.txout.value

/-- The weight of the input that spends the coin. -/
def weight (w : WeightedUtxo) : Nat := inputWeight + w.satisfactionWeight

end WeightedUtxo

/-- The coins chosen, their value, and the fee for the transaction with these inputs. -/
structure Selection where
  selected : List Utxo
  amount : UInt64
  fee : Float32

/-- A way to choose coins: from those that must and those that may be spent, the fee rate, the
amount to pay and the fee so far. -/
abbrev Selector :=
  List WeightedUtxo → List WeightedUtxo → FeeRate → UInt64 → Float32 → Except Error Selection

/-! ### Tallies -/

/-- The value of the coins taken so far, and the fee so far. -/
structure Tally where
  amount : UInt64
  fee : Float32

namespace Tally

/-- Takes one more coin. -/
def take (rate : FeeRate) (t : Tally) (w : WeightedUtxo) : Tally :=
  ⟨t.amount + w.value, t.fee + rate.feeFor w.weight⟩

/-- What has to be paid in all. -/
def cost (needed : UInt64) (t : Tally) : UInt64 := needed + wholeSat t.fee

end Tally

/-! ### Falling orders -/

/-- The coins in an order in which none is worth more than one before it. -/
structure FallingOrder (coins order : List WeightedUtxo) : Prop where
  perm : order.Perm coins
  falling : order.Pairwise fun a b => b.value ≤ a.value

/-- A way to sort coins from the largest to the smallest. -/
structure FallingSort where
  sort : List WeightedUtxo → List WeightedUtxo
  fallingOrder (coins : List WeightedUtxo) : FallingOrder coins (sort coins)

namespace FallingSort

instance : CoeFun FallingSort fun _ => List WeightedUtxo → List WeightedUtxo := ⟨sort⟩

@[simp] theorem apply_nil (sort : FallingSort) : sort [] = [] :=
  List.perm_nil.1 (sort.fallingOrder []).perm

@[simp] theorem apply_singleton (sort : FallingSort) (w : WeightedUtxo) : sort [w] = [w] :=
  List.perm_singleton.1 (sort.fallingOrder [w]).perm

end FallingSort

/-- The coins from the largest to the smallest, those of one value from the last to the first. -/
def byValueDown (coins : List WeightedUtxo) : List WeightedUtxo :=
  (coins.mergeSort fun a b => a.value ≤ b.value).reverse

theorem byValueDown_perm (coins : List WeightedUtxo) : (byValueDown coins).Perm coins :=
  (List.reverse_perm _).trans (List.mergeSort_perm coins _)

theorem fallingOrder_byValueDown (coins : List WeightedUtxo) :
    FallingOrder coins (byValueDown coins) := by
  refine ⟨byValueDown_perm coins, ?_⟩
  have hrising : (coins.mergeSort fun a b => a.value ≤ b.value).Pairwise
      fun a b => decide (a.value ≤ b.value) = true := by
    refine List.pairwise_mergeSort (fun a b c hab hbc => ?_) (fun a b => ?_) coins
    · rw [decide_eq_true_eq] at hab hbc ⊢
      exact UInt64.le_trans hab hbc
    · rw [Bool.or_eq_true, decide_eq_true_eq, decide_eq_true_eq]
      exact UInt64.le_total a.value b.value
  rw [byValueDown, List.pairwise_reverse]
  exact hrising.imp of_decide_eq_true

/-- The way of sorting that `byValueDown` is. -/
def FallingSort.byValue : FallingSort := ⟨byValueDown, fallingOrder_byValueDown⟩

/-! ### The largest coins first -/

/-- Takes coins in their order until what is taken pays for everything. -/
def takeUntilPaid (rate : FeeRate) (needed : UInt64) :
    Tally → List WeightedUtxo → List WeightedUtxo × Tally
  | t, [] => ([], t)
  | t, w :: ws =>
      if t.amount < t.cost needed then
        let (more, t) := takeUntilPaid rate needed (t.take rate w) ws
        (w :: more, t)
      else ([], t)

/-- The value of a list of coins. -/
def totalValue (coins : List WeightedUtxo) : UInt64 := sumAmounts (coins.map (·.value))

/-- Takes all required coins, and optional ones from the largest down as long as more is needed. -/
def largestFirstBy (sort : FallingSort) : Selector := fun required optional rate needed fee =>
  let start := required.foldl (Tally.take rate) ⟨0, fee⟩
  let (more, total) := takeUntilPaid rate needed start (sort optional)
  if total.amount < total.cost needed then
    .error (.insufficientFunds (total.cost needed) (totalValue (required ++ optional)))
  else .ok ⟨(required ++ more).map (·.utxo), total.amount, total.fee⟩

/-- The selector that takes the largest coins first, those of one value as `FallingSort.byValue` has
them. -/
def largestFirst : Selector := largestFirstBy .byValue

end CoinLedger
