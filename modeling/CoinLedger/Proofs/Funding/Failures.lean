import CoinLedger.Proofs.Funding.LargestFirst

/-! # Why there are too few coins

Keys decide about witnesses alone, so building fails just as it does without keys (`plan`,
`finish_eq_error_iff`).

A builder that chooses the largest coins first goes through them in some falling order
(`ChoosesIn`).  It finds too few coins in two ways, and there is no third one
(`finish_eq_insufficientFunds_iff`).  `OfferShort` is the first way: no number of the first coins
covers the demand, and then the error names the cost and the value of all coins that were offered, of
which the value is less (`RealShortfall`).

`NothingPaid` is the second way.  It needs a builder without recipients, whose coins pay for the fee but
not for an output besides.  The error names the coins that were chosen alone, and the fee of the
transaction without an output with the least value of one; the fee for the output itself is left out,
and a builder without a script for the change gets here whatever its coins are worth.
`NothingPaid.realShortfall_iff` says when this is a real shortfall all the same. -/

namespace CoinLedger

/-! ### Building without keys -/

/-- What was built, signed with these keys. -/
def BuiltTransaction.signedWith (ks : SigningKeys) (built : BuiltTransaction) : BuiltTransaction :=
  { built with transaction := ks.signed built.transaction built.spent }

namespace TxBuilder

/-- Chooses the coins and builds the transaction, and does not sign it. -/
def plan (b : TxBuilder) : Except Error BuiltTransaction := do
  if b.recipients.isEmpty && b.mustSpend.isEmpty then throw .noRecipients
  let fee ← outputFees b.feeRate 0 (b.feeRate.feeFor headerWeight) b.recipients
  let selection ← b.selector b.mustSpend b.maySpend b.feeRate b.outgoing fee
  let built := b.assemble selection
  if built.transaction.outputs.isEmpty then
    throw (.insufficientFunds (wholeSat selection.fee + dustLimit + 1) selection.amount)
  return built

/-- Keys decide about witnesses alone. -/
theorem finish_eq_plan (b : TxBuilder) :
    b.finish = b.plan.map (BuiltTransaction.signedWith b.signingKeys) := by
  unfold finish plan
  split
  · rfl
  · cases outputFees b.feeRate 0 (b.feeRate.feeFor headerWeight) b.recipients with
    | error e => rfl
    | ok fee =>
        simp only [ok_bind]
        cases b.selector b.mustSpend b.maySpend b.feeRate b.outgoing fee with
        | error e => rfl
        | ok selection =>
            simp only [ok_bind]
            split
            · rfl
            · obtain ⟨count, hsigned⟩ := b.signingKeys.exists_sign_eq_signed
                (b.assemble selection).transaction (b.assemble selection).spent
              rw [← spent_assemble b, hsigned]
              rfl

theorem finish_eq_error_iff {b : TxBuilder} {e : Error} : b.finish = .error e ↔ b.plan = .error e := by
  rw [finish_eq_plan]
  cases b.plan with
  | ok built => exact iff_of_false nofun nofun
  | error e' => exact Iff.rfl

/-- Whether building fails, and how, does not depend on keys. -/
theorem finish_withKeys_eq_error_iff (b : TxBuilder) (keys : SigningKeys) {e : Error} :
    { b with signingKeys := keys }.finish = .error e ↔ b.finish = .error e := by
  rw [finish_eq_error_iff, finish_eq_error_iff]
  rfl

/-- A builder with recipients fails if no coins can be chosen for it. -/
theorem finish_eq_error {b : TxBuilder} (hrecipients : b.recipients ≠ []) {fee : Float32} {e : Error}
    (hfee : outputFees b.feeRate 0 (b.feeRate.feeFor headerWeight) b.recipients = .ok fee)
    (hselection : b.selector b.mustSpend b.maySpend b.feeRate b.outgoing fee = .error e) :
    b.finish = .error e := by
  have hsome : (b.recipients.isEmpty && b.mustSpend.isEmpty) = false := by simp [hrecipients]
  unfold finish
  simp only [hsome, hfee, hselection, ok_bind, Bool.false_eq_true, if_false]
  rfl

/-! ### The steps of a plan -/

/-- There is something to pay or to spend, and no recipient is paid too little. -/
structure Payable (b : TxBuilder) : Prop where
  some : b.recipients ≠ [] ∨ b.mustSpend ≠ []
  notDust : ∀ o ∈ b.recipients, dustLimit.toNat < o.value.toNat

theorem outputFees_eq_ok {rate : FeeRate} :
    ∀ {outputs : List TxOut} (index : Nat) (fee : Float32),
      (∀ o ∈ outputs, dustLimit.toNat < o.value.toNat) →
        outputFees rate index fee outputs =
          .ok (outputs.foldl (fun fee o => fee + rate.feeFor o.weight) fee)
  | [], _, _, _ => rfl
  | o :: outputs, index, fee, h => by
      obtain ⟨ho, hrest⟩ := List.forall_mem_cons.1 h
      have hdust : isDust o.value = false := isDust_eq_false_iff.2 ho
      rw [outputFees, hdust]
      exact outputFees_eq_ok (index + 1) _ hrest

theorem outputFees_error {rate : FeeRate} :
    ∀ {outputs : List TxOut} {index : Nat} {fee : Float32} {e : Error},
      outputFees rate index fee outputs = .error e → ∃ place, e = .outputBelowDustLimit place
  | [], _, _, _, h => by cases h
  | o :: outputs, index, fee, e, h => by
      rw [outputFees] at h
      split at h
      · exact ⟨index, (Except.error.inj h).symm⟩
      · exact outputFees_error h

section

variable {b : TxBuilder} {needed available : UInt64}

theorem Payable.outputFees_eq (h : b.Payable) :
    outputFees b.feeRate 0 (b.feeRate.feeFor headerWeight) b.recipients = .ok b.recipientsFee :=
  outputFees_eq_ok 0 _ h.notDust

/-- A plan goes as far as the selector if there is something to pay or to spend. -/
theorem Payable.plan_eq (h : b.Payable) :
    b.plan = b.selector b.mustSpend b.maySpend b.feeRate b.outgoing b.recipientsFee >>= fun selection =>
      if (b.assemble selection).transaction.outputs = [] then
        .error (.insufficientFunds (wholeSat selection.fee + dustLimit + 1) selection.amount)
      else .ok (b.assemble selection) := by
  have hsome : (b.recipients.isEmpty && b.mustSpend.isEmpty) = false := by
    rcases h.some with hsome | hsome <;> simp [hsome]
  unfold plan
  simp only [hsome, h.outputFees_eq, ok_bind, Bool.false_eq_true, if_false]
  refine bind_congr fun selection => ?_
  by_cases hempty : (b.assemble selection).transaction.outputs = []
  · simp only [hempty, List.isEmpty_nil, if_true]
    rfl
  · simp only [List.isEmpty_iff, hempty, if_false]
    rfl

/-- Other errors than one about funds are found before. -/
theorem payable_of_plan_eq_error (h : b.plan = .error (.insufficientFunds needed available)) :
    b.Payable := by
  unfold plan at h
  split at h
  · cases h
  · rename_i hsome
    cases hfee : outputFees b.feeRate 0 (b.feeRate.feeFor headerWeight) b.recipients with
    | error e =>
        obtain ⟨place, rfl⟩ := outputFees_error hfee
        simp only [hfee] at h
        cases h
    | ok fee =>
        refine ⟨?_, (outputFees_ok hfee).2⟩
        simp only [Bool.and_eq_true, List.isEmpty_iff] at hsome
        exact Decidable.not_and_iff_or_not.1 hsome

/-- There is no output if there are no recipients, and the coins do not pay for change. -/
theorem outputs_assemble_eq_nil_iff (b : TxBuilder) (selection : Selection) :
    (b.assemble selection).transaction.outputs = [] ↔ b.recipients = [] ∧
      ∀ script, b.changeScript = some script → selection.amount.toNat ≤
        (wholeSat (selection.fee + b.feeRate.feeFor (TxOut.weight ⟨0, script⟩))).toNat +
          dustLimit.toNat := by
  obtain ⟨change, houtputs, -, -, hlarge, hleft⟩ := assemble_change b selection rfl
  rw [houtputs, List.append_eq_nil_iff, Option.toList_eq_nil_iff]
  refine and_congr_right fun hrecipients => ?_
  have hremaining : selection.amount - b.outgoing = selection.amount := by
    rw [outgoing, hrecipients]
    exact UInt64.sub_zero _
  rw [hremaining] at hleft
  constructor
  · intro hnone script hscript
    exact (hleft script _ hscript rfl).1.1 hnone
  · intro hsmall
    cases hscript : b.changeScript with
    | some script => exact (hleft script _ hscript rfl).1.2 (hsmall script hscript)
    | none =>
        rw [Option.eq_none_iff_forall_ne_some]
        intro c hc
        rw [(hlarge c hc).1] at hscript
        cases hscript

end

/-! ### Too few coins -/

/-- What coins are chosen for. -/
def demand (b : TxBuilder) : Demand := ⟨b.mustSpend, b.feeRate, b.outgoing, b.recipientsFee⟩

/-- Coins are chosen by going through those that may be spent in this falling order. -/
structure ChoosesIn (b : TxBuilder) (order : List WeightedUtxo) : Prop where
  fallingOrder : FallingOrder b.maySpend order
  selector : b.selector b.mustSpend b.maySpend b.feeRate b.outgoing b.recipientsFee =
    b.demand.choose order

theorem choosesIn_of_selector {b : TxBuilder} {sort : FallingSort}
    (hselector : b.selector = largestFirstBy sort) : b.ChoosesIn (sort b.maySpend) where
  fallingOrder := sort.fallingOrder b.maySpend
  selector := by
    rw [hselector]
    exact largestFirstBy_eq_choose sort b.demand b.maySpend

/-- The sums that are made until coins are chosen in this order, or are found to be too few, fit into
64 bits. -/
structure SumsFit (b : TxBuilder) (order : List WeightedUtxo) : Prop where
  recipients : outputsValue b.recipients < UInt64.size
  chosen : b.demand.Fits order
  /-- Without recipients the least value of an output is added to the fee. -/
  output : b.recipients = [] → ∀ k ≤ order.length,
    (∀ j < k, ¬ b.demand.Covers (order.take j)) →
      b.demand.cost (order.take k) + dustLimit.toNat + 1 < UInt64.size

/-- The coins that are offered are worth the amount that is available, and this is less than the one
that is needed. -/
structure RealShortfall (b : TxBuilder) (needed available : UInt64) : Prop where
  value : available.toNat = coinsValue ((b.mustSpend ++ b.maySpend).map (·.utxo))
  short : available < needed

/-- No number of the first coins is enough, and the cost of all coins is what is needed. -/
structure OfferShort (b : TxBuilder) (order : List WeightedUtxo) (needed available : UInt64) : Prop
    extends RealShortfall b needed available where
  uncovered : ∀ k ≤ order.length, ¬ b.demand.Covers (order.take k)
  cost : needed.toNat =
    outputsValue b.recipients + (wholeSat (b.feeWithout (b.mustSpend ++ order))).toNat

/-- The required coins and the first ones of the others, as few as are enough, pay for the fee, but
there is no output to pay.  The value of these coins is reported, and their fee with the least value of
an output. -/
structure NothingPaid (b : TxBuilder) (order : List WeightedUtxo) (k : Nat)
    (needed available : UInt64) : Prop where
  recipients : b.recipients = []
  le_length : k ≤ order.length
  covers : b.demand.Covers (order.take k)
  least : ∀ j < k, ¬ b.demand.Covers (order.take j)
  value : available.toNat = coinsValue ((b.mustSpend ++ order.take k).map (·.utxo))
  cost : needed.toNat =
    (wholeSat (b.feeWithout (b.mustSpend ++ order.take k))).toNat + dustLimit.toNat + 1
  noChange : ∀ script, b.changeScript = some script → available.toNat ≤
    (b.feeWith (b.mustSpend ++ order.take k) script).toNat + dustLimit.toNat

section

variable {b : TxBuilder} {order : List WeightedUtxo} {needed available : UInt64}

theorem SumsFit.cost_eq (h : b.SumsFit order) (coins : List WeightedUtxo) :
    b.demand.cost coins =
      outputsValue b.recipients + (wholeSat (b.feeWithout (b.mustSpend ++ coins))).toNat := by
  rw [← outputsValue_eq_toNat h.recipients]
  rfl

theorem worth_order (h : FallingOrder b.maySpend order) :
    b.demand.worth order = coinsValue ((b.mustSpend ++ b.maySpend).map (·.utxo)) :=
  coinsValue_perm ((h.perm.append_left b.mustSpend).map _)

/-- If no number of the first coins is enough, all coins are reported. -/
theorem SumsFit.plan_eq_error_iff_offerShort (hfits : b.SumsFit order) (hpayable : b.Payable)
    (hchooses : b.ChoosesIn order)
    (hshort : ∀ k ≤ order.length, ¬ b.demand.Covers (order.take k)) :
    b.plan = .error (.insufficientFunds needed available) ↔ OfferShort b order needed available := by
  have hbefore : ∀ j < order.length, ¬ b.demand.Covers (order.take j) :=
    fun j hj => hshort j (Nat.le_of_lt hj)
  have hcost := hfits.chosen.toNat_cost (Nat.le_refl _) hbefore
  have hvalue := hfits.chosen.toNat_totalValue order.length
  have hlt := (hfits.chosen.short_iff (Nat.le_refl _) hbefore).2 (hshort _ (Nat.le_refl _))
  rw [List.take_length] at hcost hvalue hlt
  rw [hfits.cost_eq] at hcost
  rw [worth_order hchooses.fallingOrder] at hvalue
  rw [hpayable.plan_eq, hchooses.selector, hfits.chosen.choose_eq_error hshort]
  constructor
  · intro h
    obtain ⟨rfl, rfl⟩ := Error.insufficientFunds.inj (Except.error.inj h)
    exact ⟨⟨hvalue, hlt⟩, hshort, hcost⟩
  · intro h
    obtain rfl : _ = needed := UInt64.toNat_inj.1 (hcost.trans h.cost.symm)
    obtain rfl : _ = available := UInt64.toNat_inj.1 (hvalue.trans h.value.symm)
    rfl

/-- The fee and the least value of an output. -/
theorem SumsFit.toNat_fee_add (hfits : b.SumsFit order) (hrecipients : b.recipients = []) {k : Nat}
    (hk : k ≤ order.length) (hshort : ∀ j < k, ¬ b.demand.Covers (order.take j)) :
    (wholeSat (b.feeWithout (b.mustSpend ++ order.take k)) + dustLimit + 1).toNat =
      (wholeSat (b.feeWithout (b.mustSpend ++ order.take k))).toNat + dustLimit.toNat + 1 := by
  have hfit := hfits.output hrecipients k hk hshort
  rw [hfits.cost_eq] at hfit
  have hlt : (wholeSat (b.feeWithout (b.mustSpend ++ order.take k))).toNat + dustLimit.toNat + 1 <
      UInt64.size := by omega
  rw [UInt64.toNat_add, UInt64.toNat_add, Nat.mod_add_mod]
  exact Nat.mod_eq_of_lt hlt

/-- If some number of the first coins is enough, an output may be missing. -/
theorem SumsFit.plan_eq_error_iff_nothingPaid (hfits : b.SumsFit order) (hpayable : b.Payable)
    (hchooses : b.ChoosesIn order) {k : Nat} (hk : k ≤ order.length)
    (hcovers : b.demand.Covers (order.take k))
    (hshort : ∀ j < k, ¬ b.demand.Covers (order.take j)) :
    b.plan = .error (.insufficientFunds needed available) ↔
      NothingPaid b order k needed available := by
  have hvalue := hfits.chosen.toNat_totalValue k
  rw [hpayable.plan_eq, hchooses.selector, hfits.chosen.choose_eq_ok hk hshort hcovers,
    ok_bind]
  constructor
  · intro h
    split at h
    · rename_i hempty
      obtain ⟨hrecipients, hsmall⟩ := (outputs_assemble_eq_nil_iff b _).1 hempty
      obtain ⟨rfl, rfl⟩ := Error.insufficientFunds.inj (Except.error.inj h)
      exact ⟨hrecipients, hk, hcovers, hshort, hvalue, hfits.toNat_fee_add hrecipients hk hshort,
        hsmall⟩
    · cases h
  · intro h
    obtain rfl : _ = needed :=
      UInt64.toNat_inj.1 ((hfits.toNat_fee_add h.recipients hk hshort).trans h.cost.symm)
    obtain rfl : _ = available := UInt64.toNat_inj.1 (hvalue.trans h.value.symm)
    rw [if_pos ((outputs_assemble_eq_nil_iff b _).2 ⟨h.recipients, h.noChange⟩)]
    rfl

/-- There are these two ways of having too few coins. -/
theorem finish_eq_insufficientFunds_iff (hchooses : b.ChoosesIn order) (hfits : b.SumsFit order) :
    b.finish = .error (.insufficientFunds needed available) ↔
      b.Payable ∧
        (OfferShort b order needed available ∨ ∃ k, NothingPaid b order k needed available) := by
  have hplan : b.Payable → (b.plan = .error (.insufficientFunds needed available) ↔
      OfferShort b order needed available ∨ ∃ k, NothingPaid b order k needed available) := by
    intro hpayable
    rcases hfits.chosen.choose_cases with ⟨k, hk, hcovers, hshort, -⟩ | ⟨hshort, -⟩
    · rw [hfits.plan_eq_error_iff_nothingPaid hpayable hchooses hk hcovers hshort]
      constructor
      · exact fun h => .inr ⟨k, h⟩
      · rintro (h | ⟨k', h⟩)
        · exact absurd hcovers (h.uncovered k hk)
        · obtain rfl : k = k' := Nat.le_antisymm (Nat.not_lt.1 fun hlt => hshort k' hlt h.covers)
            (Nat.not_lt.1 fun hlt => h.least k hlt hcovers)
          exact h
    · rw [hfits.plan_eq_error_iff_offerShort hpayable hchooses hshort]
      exact (or_iff_left fun ⟨k, h⟩ => hshort k h.le_length h.covers).symm
  rw [finish_eq_error_iff]
  constructor
  · intro h
    have hpayable := payable_of_plan_eq_error h
    exact ⟨hpayable, (hplan hpayable).1 h⟩
  · rintro ⟨hpayable, h⟩
    exact (hplan hpayable).2 h

/-- If nobody is paid, a real shortfall is reported just if the coins that were not chosen are worth
nothing, and the chosen ones no more than their fee and an amount too small for an output. -/
theorem NothingPaid.realShortfall_iff (horder : FallingOrder b.maySpend order) {k : Nat}
    (h : NothingPaid b order k needed available) :
    RealShortfall b needed available ↔ coinsValue ((order.drop k).map (·.utxo)) = 0 ∧
      coinsValue ((b.mustSpend ++ order.take k).map (·.utxo)) ≤
        (wholeSat (b.feeWithout (b.mustSpend ++ order.take k))).toNat + dustLimit.toNat := by
  have hsplit := b.demand.worth_append (order.take k) (order.drop k)
  rw [List.take_append_drop, worth_order horder] at hsplit
  have hworth : b.demand.worth (order.take k) = available.toNat := h.value.symm
  have hcost := h.cost
  rw [← h.value]
  constructor
  · rintro ⟨hvalue, hshort⟩
    rw [UInt64.lt_iff_toNat_lt] at hshort
    omega
  · rintro ⟨hrest, hsmall⟩
    refine ⟨by omega, ?_⟩
    rw [UInt64.lt_iff_toNat_lt]
    omega

end

end TxBuilder

end CoinLedger
