import Mathlib.Data.Nat.Find
import CoinLedger.Proofs.Funding.Conservation

/-! # No more coins than needed

A `Demand` is what coins are to be chosen for, and `Demand.choose` goes through the coins that may be
spent in some order.  This is what `largestFirstBy` does with the coins in a falling order of their
values (`largestFirstBy_eq_choose`); between different coins of one value several orders are falling,
and nothing here depends on which of them it is.

`Demand.Covers` says that the required coins and some others pay for the amount and the fee.
`choose_eq_ok` and `choose_eq_error` are the two results: the first coins of the order, as few of them
as cover the demand, or a failure if no number of them does.  `choose_takesLeast` puts this together.
Since the first of falling values are the greatest (`FallingOrder.coinsValue_le`), a failure means that
no other coins would have done either, as long as all inputs weigh the same. -/

namespace CoinLedger

/-! ### Falling orders -/

/-- Numbers that are no greater than one in front of them are worth less without it. -/
theorem sum_take_le_sum_take_cons {x : Nat} {xs : List Nat} (h : ∀ y ∈ xs, y ≤ x) (n : Nat) :
    (xs.take n).sum ≤ ((x :: xs).take n).sum := by
  cases n with
  | zero => exact Nat.le_refl 0
  | succ n =>
      have hlast : xs[n]?.toList.sum ≤ x := by
        cases hn : xs[n]? with
        | none => exact Nat.zero_le x
        | some y => simpa using h y (List.mem_of_getElem? hn)
      rw [List.take_succ_cons, List.sum_cons, List.take_add_one, List.sum_append]
      omega

/-- The first of falling numbers are the greatest. -/
theorem sum_le_sum_take {xs ys : List Nat} (hsublist : ys.Sublist xs)
    (hfalling : xs.Pairwise fun x y => y ≤ x) : ys.sum ≤ (xs.take ys.length).sum := by
  induction hsublist with
  | slnil => exact Nat.le_refl 0
  | cons x _ ih =>
      obtain ⟨hfirst, hrest⟩ := List.pairwise_cons.1 hfalling
      exact Nat.le_trans (ih hrest) (sum_take_le_sum_take_cons hfirst _)
  | cons_cons x _ ih =>
      obtain ⟨-, hrest⟩ := List.pairwise_cons.1 hfalling
      rw [List.length_cons, List.take_succ_cons, List.sum_cons, List.sum_cons]
      exact Nat.add_le_add_left (ih hrest) x

/-- As many coins are worth the most if they are the first ones of a falling order. -/
theorem FallingOrder.coinsValue_le {coins order others : List WeightedUtxo}
    (h : FallingOrder coins order) (hothers : others.Subperm coins) :
    coinsValue (others.map (·.utxo)) ≤ coinsValue ((order.take others.length).map (·.utxo)) := by
  obtain ⟨chosen, hperm, hsublist⟩ := hothers.trans h.perm.symm.subperm
  have hfalling : (order.map (·.value.toNat)).Pairwise fun x y => y ≤ x := by
    rw [List.pairwise_map]
    exact h.falling.imp UInt64.le_iff_toNat_le.1
  have hvalues : ∀ ws : List WeightedUtxo,
      coinsValue (ws.map (·.utxo)) = (ws.map (·.value.toNat)).sum := fun ws => by
    rw [coinsValue, List.map_map]
    rfl
  rw [hvalues, hvalues, ← (hperm.map _).sum_nat, ← hperm.length_eq, List.map_take]
  simpa using sum_le_sum_take (hsublist.map (·.value.toNat)) hfalling

/-! ### Choosing in an order -/

/-- What coins are chosen for: those that must be spent, the fee rate, the amount to pay, and the fee
for the transaction without its inputs. -/
structure Demand where
  required : List WeightedUtxo
  rate : FeeRate
  needed : UInt64
  fee : Float32

namespace Demand

/-- The fee, not rounded, if these coins are spent besides the required ones. -/
def feeWith (d : Demand) (coins : List WeightedUtxo) : Float32 :=
  feeAfter d.rate d.fee (d.required ++ coins)

/-- What has to be paid then. -/
def cost (d : Demand) (coins : List WeightedUtxo) : Nat :=
  d.needed.toNat + (wholeSat (d.feeWith coins)).toNat

/-- What the required coins and these are worth. -/
def worth (d : Demand) (coins : List WeightedUtxo) : Nat :=
  coinsValue ((d.required ++ coins).map (·.utxo))

/-- The required coins and these pay for everything. -/
def Covers (d : Demand) (coins : List WeightedUtxo) : Prop := d.cost coins ≤ d.worth coins

instance (d : Demand) (coins : List WeightedUtxo) : Decidable (d.Covers coins) :=
  inferInstanceAs (Decidable (_ ≤ _))

/-- Takes the required coins, and of the others in this order as many as are needed. -/
def choose (d : Demand) (order : List WeightedUtxo) : Except Error Selection :=
  let start := d.required.foldl (Tally.take d.rate) ⟨0, d.fee⟩
  let (more, total) := takeUntilPaid d.rate d.needed start order
  if total.amount < total.cost d.needed then
    .error (.insufficientFunds (total.cost d.needed) (totalValue (d.required ++ order)))
  else .ok ⟨(d.required ++ more).map (·.utxo), total.amount, total.fee⟩

/-- The sums that are made fit into 64 bits: of all coins, and of the costs up to the first that is
covered. -/
structure Fits (d : Demand) (order : List WeightedUtxo) : Prop where
  coins : d.worth order < UInt64.size
  cost : ∀ k ≤ order.length, (∀ j < k, ¬ d.Covers (order.take j)) →
    d.cost (order.take k) < UInt64.size

end Demand

theorem totalValue_perm {coins coins' : List WeightedUtxo} (h : coins.Perm coins') :
    totalValue coins = totalValue coins' := by
  rw [← UInt64.toNat_inj, TxBuilder.toNat_totalValue, TxBuilder.toNat_totalValue,
    coinsValue_perm (h.map (·.utxo))]

theorem largestFirstBy_eq_choose (sort : FallingSort) (d : Demand) (optional : List WeightedUtxo) :
    largestFirstBy sort d.required optional d.rate d.needed d.fee = d.choose (sort optional) := by
  have htotal : totalValue (d.required ++ optional) = totalValue (d.required ++ sort optional) :=
    totalValue_perm ((sort.fallingOrder optional).perm.symm.append_left d.required)
  rw [largestFirstBy, htotal]
  rfl

/-- Coins are taken up to a place if those before it are not enough, and those up to it are or there
are no more. -/
theorem takeUntilPaid_eq (rate : FeeRate) (needed : UInt64) :
    ∀ {t : Tally} {ws : List WeightedUtxo} {k : Nat}, k ≤ ws.length →
      (∀ j < k, ((ws.take j).foldl (Tally.take rate) t).amount <
        ((ws.take j).foldl (Tally.take rate) t).cost needed) →
      (k = ws.length ∨ ((ws.take k).foldl (Tally.take rate) t).cost needed ≤
        ((ws.take k).foldl (Tally.take rate) t).amount) →
      takeUntilPaid rate needed t ws = (ws.take k, (ws.take k).foldl (Tally.take rate) t)
  | t, [], k, _, _, _ => by
      rw [List.take_nil]
      rfl
  | t, w :: ws, 0, _, _, hstop => by
      have hpaid : t.cost needed ≤ t.amount := hstop.resolve_left (Nat.succ_ne_zero ws.length).symm
      rw [takeUntilPaid, if_neg (UInt64.not_lt.2 hpaid)]
      rfl
  | t, w :: ws, k + 1, hk, hshort, hstop => by
      have hfirst : t.amount < t.cost needed := hshort 0 (Nat.succ_pos k)
      have hrest := takeUntilPaid_eq rate needed (t := t.take rate w)
        (Nat.le_of_succ_le_succ hk) (fun j hj => hshort (j + 1) (Nat.succ_lt_succ hj))
        (hstop.imp_left Nat.succ.inj)
      rw [takeUntilPaid, if_pos hfirst, hrest]
      rfl

namespace Demand

variable {d : Demand} {order : List WeightedUtxo}

theorem worth_append (d : Demand) (coins more : List WeightedUtxo) :
    d.worth (coins ++ more) = d.worth coins + coinsValue (more.map (·.utxo)) := by
  rw [worth, worth, ← List.append_assoc, List.map_append, coinsValue_append]

theorem worth_take_le (d : Demand) (order : List WeightedUtxo) (k : Nat) :
    d.worth (order.take k) ≤ d.worth order := by
  have hsplit := d.worth_append (order.take k) (order.drop k)
  rw [List.take_append_drop] at hsplit
  omega

theorem Fits.toNat_totalValue (h : d.Fits order) (k : Nat) :
    (totalValue (d.required ++ order.take k)).toNat = d.worth (order.take k) :=
  TxBuilder.coinsValue_eq_toNat (Nat.lt_of_le_of_lt (d.worth_take_le order k) h.coins)

theorem Fits.toNat_cost (h : d.Fits order) {k : Nat} (hk : k ≤ order.length)
    (hshort : ∀ j < k, ¬ d.Covers (order.take j)) :
    (d.needed + wholeSat (d.feeWith (order.take k))).toNat = d.cost (order.take k) := by
  rw [UInt64.toNat_add]
  exact Nat.mod_eq_of_lt (h.cost k hk hshort)

/-- What the first coins of an order come to is compared as natural numbers are. -/
theorem Fits.short_iff (h : d.Fits order) {k : Nat} (hk : k ≤ order.length)
    (hshort : ∀ j < k, ¬ d.Covers (order.take j)) :
    totalValue (d.required ++ order.take k) < d.needed + wholeSat (d.feeWith (order.take k)) ↔
      ¬ d.Covers (order.take k) := by
  rw [UInt64.lt_iff_toNat_lt, h.toNat_totalValue, h.toNat_cost hk hshort, Covers, Nat.not_le]

/-- Coins are taken up to a place if those before it are not enough, and those up to it are or there
are no more. -/
theorem Fits.choose_eq (h : d.Fits order) {k : Nat} (hk : k ≤ order.length)
    (hshort : ∀ j < k, ¬ d.Covers (order.take j))
    (hstop : k = order.length ∨ d.Covers (order.take k)) :
    d.choose order =
      if d.Covers (order.take k) then
        .ok ⟨(d.required ++ order.take k).map (·.utxo), totalValue (d.required ++ order.take k),
          d.feeWith (order.take k)⟩
      else .error (.insufficientFunds (d.needed + wholeSat (d.feeWith (order.take k)))
        (totalValue (d.required ++ order))) := by
  have htally : ∀ j, (order.take j).foldl (Tally.take d.rate)
      (d.required.foldl (Tally.take d.rate) ⟨0, d.fee⟩) =
        ⟨totalValue (d.required ++ order.take j), d.feeWith (order.take j)⟩ :=
    fun j => foldl_take_append d.rate d.fee d.required (order.take j)
  have hiff : ∀ j ≤ k, totalValue (d.required ++ order.take j) <
      d.needed + wholeSat (d.feeWith (order.take j)) ↔ ¬ d.Covers (order.take j) :=
    fun j hj => h.short_iff (Nat.le_trans hj hk) fun i hi => hshort i (Nat.lt_of_lt_of_le hi hj)
  have htaken := takeUntilPaid_eq d.rate d.needed
    (t := d.required.foldl (Tally.take d.rate) ⟨0, d.fee⟩) hk
    (fun j hj => by
      rw [htally]
      exact (hiff j (Nat.le_of_lt hj)).2 (hshort j hj))
    (hstop.imp_right fun hcovers => by
      rw [htally]
      exact UInt64.not_lt.1 fun hlt => (hiff k (Nat.le_refl k)).1 hlt hcovers)
  rw [choose, htaken, htally]
  by_cases hcovers : d.Covers (order.take k)
  · rw [if_pos hcovers]
    exact if_neg fun hlt => (hiff k (Nat.le_refl k)).1 hlt hcovers
  · rw [if_neg hcovers]
    exact if_pos ((hiff k (Nat.le_refl k)).2 hcovers)

/-- As few of the first coins as cover the demand are chosen. -/
theorem Fits.choose_eq_ok (h : d.Fits order) {k : Nat} (hk : k ≤ order.length)
    (hshort : ∀ j < k, ¬ d.Covers (order.take j)) (hcovers : d.Covers (order.take k)) :
    d.choose order = .ok ⟨(d.required ++ order.take k).map (·.utxo),
      totalValue (d.required ++ order.take k), d.feeWith (order.take k)⟩ := by
  rw [h.choose_eq hk hshort (.inr hcovers), if_pos hcovers]

/-- If no number of the first coins covers the demand, choosing fails. -/
theorem Fits.choose_eq_error (h : d.Fits order)
    (hshort : ∀ k ≤ order.length, ¬ d.Covers (order.take k)) :
    d.choose order = .error (.insufficientFunds (d.needed + wholeSat (d.feeWith order))
      (totalValue (d.required ++ order))) := by
  have hall := h.choose_eq (Nat.le_refl order.length) (fun j hj => hshort j (Nat.le_of_lt hj))
    (.inl rfl)
  rw [if_neg (hshort _ (Nat.le_refl _)), List.take_length] at hall
  exact hall

/-- Either the least number of the first coins that cover the demand is chosen, or there is none. -/
theorem Fits.choose_cases (h : d.Fits order) :
    (∃ k ≤ order.length, d.Covers (order.take k) ∧ (∀ j < k, ¬ d.Covers (order.take j)) ∧
      d.choose order = .ok ⟨(d.required ++ order.take k).map (·.utxo),
        totalValue (d.required ++ order.take k), d.feeWith (order.take k)⟩) ∨
    (∀ k ≤ order.length, ¬ d.Covers (order.take k)) ∧
      d.choose order = .error (.insufficientFunds (d.needed + wholeSat (d.feeWith order))
        (totalValue (d.required ++ order))) := by
  by_cases hsome : ∃ k, k ≤ order.length ∧ d.Covers (order.take k)
  · obtain ⟨hk, hcovers⟩ := Nat.find_spec hsome
    have hshort : ∀ j < Nat.find hsome, ¬ d.Covers (order.take j) := fun j hj hj' =>
      Nat.find_min hsome hj ⟨Nat.le_of_lt (Nat.lt_of_lt_of_le hj hk), hj'⟩
    exact .inl ⟨_, hk, hcovers, hshort, h.choose_eq_ok hk hshort hcovers⟩
  · have hshort : ∀ k ≤ order.length, ¬ d.Covers (order.take k) := fun k hk hcovers =>
      hsome ⟨k, hk, hcovers⟩
    exact .inr ⟨hshort, h.choose_eq_error hshort⟩

/-! ### Inputs of one weight -/

end Demand

/-- What unlocks these coins has one weight. -/
def SameWeights (coins : List WeightedUtxo) : Prop :=
  ∀ v ∈ coins, ∀ w ∈ coins, v.satisfactionWeight = w.satisfactionWeight

theorem SameWeights.map_weight_eq {coins xs ys : List WeightedUtxo} (h : SameWeights coins)
    (hxs : xs ⊆ coins) (hys : ys ⊆ coins) (hlength : xs.length = ys.length) :
    xs.map (·.weight) = ys.map (·.weight) := by
  refine List.ext_getElem (by simpa using hlength) fun i hi hi' => ?_
  rw [List.getElem_map, List.getElem_map, WeightedUtxo.weight, WeightedUtxo.weight,
    h _ (hxs (List.getElem_mem _)) _ (hys (List.getElem_mem _))]

/-- A fee depends on coins by the weights of their inputs alone. -/
theorem feeAfter_eq_of_weights {xs ys : List WeightedUtxo}
    (h : xs.map (·.weight) = ys.map (·.weight)) (rate : FeeRate) (fee : Float32) :
    feeAfter rate fee xs = feeAfter rate fee ys := by
  have hfold : ∀ ws : List WeightedUtxo, feeAfter rate fee ws =
      (ws.map (·.weight)).foldl (fun fee weight => fee + rate.feeFor weight) fee := fun ws => by
    rw [List.foldl_map]
    rfl
  rw [hfold, hfold, h]

namespace Demand

variable {d : Demand} {coins order : List WeightedUtxo}

/-- Coins of one weight cost as much as the first ones of an order. -/
theorem cost_eq_of_sameWeights (horder : FallingOrder coins order) (hweights : SameWeights coins)
    {others : List WeightedUtxo} (hothers : others.Subperm coins) :
    d.cost others = d.cost (order.take others.length) := by
  have hlength : others.length = (order.take others.length).length := by
    rw [List.length_take, Nat.min_eq_left]
    exact horder.perm.length_eq ▸ hothers.length_le
  have hmap := hweights.map_weight_eq hothers.subset
    (fun w hw => horder.perm.subset (List.mem_of_mem_take hw)) hlength
  have hfee : d.feeWith others = d.feeWith (order.take others.length) :=
    feeAfter_eq_of_weights (by rw [List.map_append, List.map_append, hmap]) d.rate d.fee
  rw [cost, cost, hfee]

/-- Coins of one weight that cover a demand can be exchanged for the first ones of an order. -/
theorem covers_take_of_covers (horder : FallingOrder coins order) (hweights : SameWeights coins)
    {others : List WeightedUtxo} (hothers : others.Subperm coins) (hcovers : d.Covers others) :
    d.Covers (order.take others.length) := by
  have hvalue := horder.coinsValue_le hothers
  have hcost := cost_eq_of_sameWeights (d := d) horder hweights hothers
  rw [Covers, worth, List.map_append, coinsValue_append] at hcovers ⊢
  omega

/-- **The largest coins first, and no more of them than needed.**  Let the sums that are made for a
demand fit into 64 bits, and let the coins that may be spent stand in any falling order of their
values.  Then coins are chosen just when some number of the first ones cover the demand together with
the required ones.  What is chosen are the required coins and the least such number of the others, with
their value and their fee.  Otherwise the failure names the cost of all coins and their value, which is
less; and if all inputs of coins that may be spent have one weight, no other choice among them would
have covered the demand.  However coins are sorted, the selector chooses in a falling order. -/
theorem choose_takesLeast (horder : FallingOrder coins order) (hfits : d.Fits order) :
    ((∃ selection, d.choose order = .ok selection) ↔
      ∃ k ≤ coins.length, d.Covers (order.take k)) ∧
    (∀ selection, d.choose order = .ok selection → ∃ k ≤ coins.length,
      d.Covers (order.take k) ∧ (∀ j < k, ¬ d.Covers (order.take j)) ∧
      selection.selected = (d.required ++ order.take k).map (·.utxo) ∧
      selection.amount.toNat = d.worth (order.take k) ∧
      selection.fee = d.feeWith (order.take k)) ∧
    (∀ e, d.choose order = .error e → ∃ needed available,
      e = .insufficientFunds needed available ∧ needed.toNat = d.cost order ∧
      available.toNat = d.worth coins ∧ available < needed ∧
      (SameWeights coins → ∀ others : List WeightedUtxo, others.Subperm coins →
        d.worth others < d.cost others ∧ d.cost others = d.cost (order.take others.length))) ∧
    ∀ sort : FallingSort,
      largestFirstBy sort d.required coins d.rate d.needed d.fee = d.choose (sort coins) ∧
      FallingOrder coins (sort coins) := by
  have hsorted : ∀ sort : FallingSort,
      largestFirstBy sort d.required coins d.rate d.needed d.fee = d.choose (sort coins) ∧
        FallingOrder coins (sort coins) :=
    fun sort => ⟨largestFirstBy_eq_choose sort d coins, sort.fallingOrder coins⟩
  rw [← horder.perm.length_eq]
  rcases hfits.choose_cases with ⟨k, hk, hcovers, hshort, hchoose⟩ | ⟨hshort, hchoose⟩
  · refine ⟨iff_of_true ⟨_, hchoose⟩ ⟨k, hk, hcovers⟩, fun selection h => ?_, fun e h => ?_,
      hsorted⟩
    · obtain rfl := Except.ok.inj (hchoose.symm.trans h)
      exact ⟨k, hk, hcovers, hshort, rfl, hfits.toNat_totalValue k, rfl⟩
    · rw [hchoose] at h
      cases h
  · refine ⟨iff_of_false ?_ ?_, fun selection h => ?_, fun e h => ?_, hsorted⟩
    · rintro ⟨selection, h⟩
      rw [hchoose] at h
      cases h
    · rintro ⟨k, hk, hcovers⟩
      exact hshort k hk hcovers
    · rw [hchoose] at h
      cases h
    · have hneeded := hfits.toNat_cost (Nat.le_refl _) fun j hj => hshort j (Nat.le_of_lt hj)
      have havailable := hfits.toNat_totalValue order.length
      have hworth : d.worth order = d.worth coins :=
        coinsValue_perm ((horder.perm.append_left d.required).map _)
      have hlt := (hfits.short_iff (Nat.le_refl _) fun j hj => hshort j (Nat.le_of_lt hj)).2
        (hshort _ (Nat.le_refl _))
      rw [List.take_length] at hneeded havailable hlt
      refine ⟨_, _, (Except.error.inj (hchoose.symm.trans h)).symm, hneeded, havailable.trans hworth,
        hlt, fun hweights others hothers => ⟨Nat.not_le.1 fun hcovers => ?_,
          cost_eq_of_sameWeights horder hweights hothers⟩⟩
      exact hshort _ (horder.perm.length_eq ▸ hothers.length_le)
        (covers_take_of_covers horder hweights hothers hcovers)

/-- A coin of this value at this place of one transaction. -/
def coinAt (vout : UInt32) (value : UInt64) : WeightedUtxo :=
  .ofKeyHash ⟨⟨.zero, vout⟩, ⟨value, ⟨[81]⟩⟩⟩

/-- A coin of 1000 must be spent, and 7000 are to be paid. -/
def sevenThousand : Demand := ⟨[coinAt 0 1000], .minimumRelay, 7000, 42.0⟩

/-- The largest coin and one of the two others are taken, which one depends on the order. -/
theorem choose_takesLeast_threeCoins :
    FallingOrder [coinAt 1 3000, coinAt 2 5000, coinAt 3 3000]
      [coinAt 2 5000, coinAt 1 3000, coinAt 3 3000] ∧
    sevenThousand.Fits [coinAt 2 5000, coinAt 1 3000, coinAt 3 3000] ∧
    ∃ selection, sevenThousand.choose [coinAt 2 5000, coinAt 1 3000, coinAt 3 3000] =
        .ok selection ∧
      selection.selected = [coinAt 0 1000, coinAt 2 5000, coinAt 1 3000].map (·.utxo) := by
  have horder : FallingOrder [coinAt 1 3000, coinAt 2 5000, coinAt 3 3000]
      [coinAt 2 5000, coinAt 1 3000, coinAt 3 3000] := ⟨by decide, by decide⟩
  have hcost : ∀ k ≤ 3, sevenThousand.cost
      ([coinAt 2 5000, coinAt 1 3000, coinAt 3 3000].take k) < UInt64.size := by
    decide +kernel
  have hfits : sevenThousand.Fits [coinAt 2 5000, coinAt 1 3000, coinAt 3 3000] :=
    ⟨by decide, fun k hk _ => hcost k hk⟩
  have hshort : ∀ j < 2, ¬ sevenThousand.Covers
      ([coinAt 2 5000, coinAt 1 3000, coinAt 3 3000].take j) := by
    decide +kernel
  have hcovers : sevenThousand.Covers ([coinAt 2 5000, coinAt 1 3000, coinAt 3 3000].take 2) := by
    decide +kernel
  obtain ⟨hiff, hleast, -⟩ := choose_takesLeast horder hfits
  obtain ⟨selection, hchoose⟩ := hiff.2 ⟨2, by decide, hcovers⟩
  obtain ⟨k, -, hk, hbefore, hselected, -⟩ := hleast selection hchoose
  have htwo : k = 2 := Nat.le_antisymm (Nat.not_lt.1 fun hlt => hbefore 2 hlt hcovers)
    (Nat.not_lt.1 fun hlt => hshort k hlt hk)
  rw [htwo] at hselected
  exact ⟨horder, hfits, selection, hchoose, hselected⟩

end Demand

end CoinLedger
