import Mathlib.Algebra.Ring.Nat
import Mathlib.Data.List.Perm.Subperm
import CoinLedger.Funding.Selection

/-! # What the selector chooses

`largestFirstBy_ok` is what is known of coins that `largestFirstBy` chose: all the required ones, then
the first ones of the others in falling order of value, with their value and their fee added up one
coin after the other, and the value is enough for the amount and the fee.

If all coins together are enough, something is chosen (`exists_largestFirstBy_eq_ok`).

Sums of 64-bit amounts wrap around; `toNat_sumAmounts` says what they are as natural numbers. -/

namespace CoinLedger

/-! ### Sums of amounts -/

theorem sumAmounts_cons (x : UInt64) (xs : List UInt64) :
    sumAmounts (x :: xs) = x + sumAmounts xs := rfl

theorem toNat_sumAmounts (xs : List UInt64) :
    (sumAmounts xs).toNat = (xs.map UInt64.toNat).sum % UInt64.size := by
  induction xs with
  | nil => rfl
  | cons x xs ih =>
      rw [sumAmounts_cons, UInt64.toNat_add, ih, List.map_cons, List.sum_cons]
      exact Nat.add_mod_mod _ _ _

/-! ### Tallies -/

/-- The fee after these coins are taken. -/
def feeAfter (rate : FeeRate) (fee : Float32) (coins : List WeightedUtxo) : Float32 :=
  coins.foldl (fun fee w => fee + rate.feeFor w.weight) fee

theorem foldl_take (rate : FeeRate) :
    ∀ (coins : List WeightedUtxo) (t : Tally),
      coins.foldl (Tally.take rate) t = ⟨t.amount + totalValue coins, feeAfter rate t.fee coins⟩
  | [], t => by
      have hzero : t.amount + totalValue [] = t.amount := UInt64.add_zero _
      rw [hzero]
      rfl
  | w :: ws, t => by
      have hcons : totalValue (w :: ws) = w.value + totalValue ws := rfl
      rw [List.foldl_cons, foldl_take rate ws, hcons, ← UInt64.add_assoc]
      rfl

/-- The tally of required coins and then some others. -/
theorem foldl_take_append (rate : FeeRate) (fee : Float32) (required more : List WeightedUtxo) :
    more.foldl (Tally.take rate) (required.foldl (Tally.take rate) ⟨0, fee⟩) =
      ⟨totalValue (required ++ more), feeAfter rate fee (required ++ more)⟩ := by
  have hzero : 0 + totalValue (required ++ more) = totalValue (required ++ more) :=
    UInt64.zero_add _
  rw [← List.foldl_append, foldl_take, hzero]

/-- The coins that are taken are the first ones, and the tally is theirs. -/
theorem takeUntilPaid_spec (rate : FeeRate) (needed : UInt64) :
    ∀ (t : Tally) (ws : List WeightedUtxo),
      (takeUntilPaid rate needed t ws).1 <+: ws ∧
        (takeUntilPaid rate needed t ws).2 =
          (takeUntilPaid rate needed t ws).1.foldl (Tally.take rate) t
  | t, [] => ⟨List.prefix_refl [], rfl⟩
  | t, w :: ws => by
      rw [takeUntilPaid]
      split
      · obtain ⟨hstarts, htally⟩ := takeUntilPaid_spec rate needed (t.take rate w) ws
        exact ⟨(List.prefix_cons_inj w).2 hstarts, htally⟩
      · exact ⟨⟨w :: ws, rfl⟩, rfl⟩

/-- Coins are taken until they pay for everything, or until there are no more. -/
theorem takeUntilPaid_pays (rate : FeeRate) (needed : UInt64) :
    ∀ (t : Tally) (ws : List WeightedUtxo),
      (takeUntilPaid rate needed t ws).2.cost needed ≤ (takeUntilPaid rate needed t ws).2.amount ∨
        (takeUntilPaid rate needed t ws).1 = ws
  | t, [] => .inr rfl
  | t, w :: ws => by
      rw [takeUntilPaid]
      split
      · exact (takeUntilPaid_pays rate needed (t.take rate w) ws).imp_right (congrArg (w :: ·))
      · rename_i hpaid
        exact .inl (UInt64.not_lt.1 hpaid)

variable {sort : FallingSort}

/-- What is chosen is enough, or else choosing fails. -/
theorem largestFirstBy_ok {required optional : List WeightedUtxo} {rate : FeeRate}
    {needed : UInt64} {fee : Float32} {selection : Selection}
    (h : largestFirstBy sort required optional rate needed fee = .ok selection) :
    ∃ taken, taken <+: sort optional ∧
      selection.selected = (required ++ taken).map (·.utxo) ∧
      selection.amount = totalValue (required ++ taken) ∧
      selection.fee = feeAfter rate fee (required ++ taken) ∧
      needed + wholeSat selection.fee ≤ selection.amount := by
  unfold largestFirstBy at h
  dsimp only at h
  generalize hstart : required.foldl (Tally.take rate) ⟨0, fee⟩ = start at h
  obtain ⟨hstarts, htally⟩ := takeUntilPaid_spec rate needed start (sort optional)
  cases htaken : takeUntilPaid rate needed start (sort optional) with
  | mk taken total =>
      rw [htaken] at h hstarts htally
      simp only at h hstarts htally
      split at h
      · cases h
      · rename_i hpaid
        have htotal : total =
            ⟨totalValue (required ++ taken), feeAfter rate fee (required ++ taken)⟩ := by
          rw [htally, ← hstart, foldl_take_append]
        obtain rfl := Except.ok.inj h
        refine ⟨taken, hstarts, rfl, congrArg Tally.amount htotal, congrArg Tally.fee htotal, ?_⟩
        exact UInt64.not_lt.1 hpaid

/-- If all coins together pay for everything, coins are chosen. -/
theorem exists_largestFirstBy_eq_ok (required optional : List WeightedUtxo) {rate : FeeRate}
    {needed : UInt64} {fee : Float32}
    (h : needed + wholeSat (feeAfter rate fee (required ++ sort optional)) ≤
      totalValue (required ++ sort optional)) :
    ∃ selection, largestFirstBy sort required optional rate needed fee = .ok selection := by
  unfold largestFirstBy
  dsimp only
  generalize hstart : required.foldl (Tally.take rate) ⟨0, fee⟩ = start
  obtain ⟨-, htally⟩ := takeUntilPaid_spec rate needed start (sort optional)
  have hpays := takeUntilPaid_pays rate needed start (sort optional)
  cases htaken : takeUntilPaid rate needed start (sort optional) with
  | mk taken total =>
      rw [htaken] at htally hpays
      simp only at htally hpays
      have hpaid : total.cost needed ≤ total.amount := by
        rcases hpays with hpaid | rfl
        · exact hpaid
        · rw [htally, ← hstart, foldl_take_append]
          exact h
      dsimp only
      rw [if_neg (UInt64.not_lt.2 hpaid)]
      exact ⟨_, rfl⟩

end CoinLedger
