import CoinLedger.Proofs.Funding.Conservation

/-! # The weight that a fee is charged for

A fee is added up from weights: of the header, of every output and of every input (`chargedWeights`).
`Transaction.signedWeight` is the weight that the transaction has once its inputs are unlocked, read off
its bytes.

The header is charged with one byte for the number of inputs and one for the number of outputs, while a
number from 253 on takes more.  All else is charged exactly (`Weighs.signedWeight_eq`), so that the
charge is enough just for transactions with at most 252 inputs and at most 252 outputs
(`finish_weighs`). -/

namespace CoinLedger

/-! ### Weights of transactions -/

namespace Transaction

/-- The weight of a transaction once its inputs have witnesses of these weights: each byte without the
witnesses weighs four units, and the mark of a transaction with witnesses weighs two. -/
def signedWeight (tx : Transaction) (witnesses : List Nat) : Nat :=
  4 * tx.encodeStripped.length + 2 + witnesses.sum

theorem length_encodeStripped (tx : Transaction) :
    tx.encodeStripped.length = 8 + compactSizeLength tx.inputs.length +
      (tx.inputs.map fun i => i.encode.length).sum + compactSizeLength tx.outputs.length +
        (tx.outputs.map TxOut.size).sum := by
  have houtputs : (tx.outputs.map TxOut.size).sum = (tx.outputs.flatMap TxOut.encode).length := by
    rw [List.length_flatMap]
    rfl
  rw [houtputs]
  simp [encodeStripped, versionBytes, lockTimeBytes, List.length_flatMap]
  omega

/-- An input without a script takes 41 bytes. -/
theorem length_encodeStripped_of_inputs {tx : Transaction}
    (h : ∀ i ∈ tx.inputs, i.scriptSig = .empty) :
    tx.encodeStripped.length = 8 + compactSizeLength tx.inputs.length + 41 * tx.inputs.length +
      compactSizeLength tx.outputs.length + (tx.outputs.map TxOut.size).sum := by
  have hinput : ∀ i ∈ tx.inputs, i.encode.length = 41 := by
    intro i hi
    have hempty : Script.empty.encode.length = 1 := by decide
    rw [TxIn.encode, h i hi, Outpoint.encode]
    simp [hempty, i.previous.txid.length_eq]
  have hsum : (tx.inputs.map fun i => i.encode.length).sum = 41 * tx.inputs.length := by
    rw [List.map_congr_left hinput, List.map_const', List.sum_replicate_nat, Nat.mul_comm]
  rw [length_encodeStripped, hsum]

end Transaction

theorem one_le_compactSizeLength (n : Nat) : 1 ≤ compactSizeLength n := by
  unfold compactSizeLength
  split
  · exact Nat.le_refl 1
  · split
    · decide
    · split <;> decide

/-- One byte is enough for numbers up to 252. -/
theorem compactSizeLength_eq_one_iff {n : Nat} : compactSizeLength n = 1 ↔ n ≤ 252 := by
  unfold compactSizeLength
  split
  · rename_i hlt
    exact iff_of_true rfl (Nat.le_of_lt_succ hlt)
  · rename_i hge
    refine iff_of_false ?_ fun hle => hge (Nat.lt_succ_of_le hle)
    split
    · decide
    · split <;> decide

theorem TxOut.weight_of_script (value : UInt64) (o : TxOut) :
    TxOut.weight ⟨value, o.script⟩ = o.weight := by
  rw [weight, weight, size_eq, size_eq]

/-! ### Weights that are charged -/

/-- The weights that are charged for, in the order in which their fees are added up. -/
def chargedWeights (recipients : List TxOut) (coins : List WeightedUtxo) (change : Option TxOut) :
    List Nat :=
  headerWeight ::
    (recipients.map (·.weight) ++ coins.map (·.weight) ++ change.toList.map (·.weight))

/-- The fee for these weights, added up in their order and not rounded. -/
def FeeRate.feeForAll (rate : FeeRate) : List Nat → Float32
  | [] => 0
  | w :: ws => ws.foldl (fun fee w => fee + rate.feeFor w) (rate.feeFor w)

theorem sum_map_outputWeight (outputs : List TxOut) :
    (outputs.map (·.weight)).sum = 4 * (outputs.map TxOut.size).sum := by
  induction outputs with
  | nil => rfl
  | cons o outputs ih =>
      rw [List.map_cons, List.sum_cons, ih, List.map_cons, List.sum_cons, TxOut.weight]
      omega

theorem sum_map_inputWeight (coins : List WeightedUtxo) :
    (coins.map (·.weight)).sum = 164 * coins.length + (coins.map (·.satisfactionWeight)).sum := by
  induction coins with
  | nil => rfl
  | cons c coins ih =>
      have hinput : inputWeight = 164 := rfl
      rw [List.map_cons, List.sum_cons, ih, List.map_cons, List.sum_cons, List.length_cons,
        WeightedUtxo.weight, hinput]
      omega

theorem sum_chargedWeights (recipients : List TxOut) (coins : List WeightedUtxo)
    (change : Option TxOut) :
    (chargedWeights recipients coins change).sum =
      42 + 4 * ((recipients ++ change.toList).map TxOut.size).sum + 164 * coins.length +
        (coins.map (·.satisfactionWeight)).sum := by
  have hheader : headerWeight = 42 := rfl
  rw [chargedWeights, List.sum_cons, List.sum_append, List.sum_append, sum_map_outputWeight,
    sum_map_outputWeight, sum_map_inputWeight, List.map_append, List.sum_append, hheader]
  omega

namespace TxBuilder

theorem feeForAll_eq_feeWithout (b : TxBuilder) (coins : List WeightedUtxo) :
    b.feeRate.feeForAll (chargedWeights b.recipients coins none) = b.feeWithout coins := by
  simp only [FeeRate.feeForAll, chargedWeights, Option.toList_none, List.map_nil, List.append_nil,
    List.foldl_append, List.foldl_map]
  rfl

theorem feeForAll_some (b : TxBuilder) (coins : List WeightedUtxo) (change : TxOut) :
    b.feeRate.feeForAll (chargedWeights b.recipients coins (some change)) =
      b.feeWithout coins + b.feeRate.feeFor change.weight := by
  simp only [FeeRate.feeForAll, chargedWeights, Option.toList_some, List.map_singleton,
    List.foldl_append, List.foldl_map]
  rfl

/-- What was built, and what fee was charged for it. -/
structure Weighs (b : TxBuilder) (sort : FallingSort) (taken : List WeightedUtxo)
    (change : Option TxOut) (built : BuiltTransaction) : Prop where
  optional : taken <+: sort b.maySpend
  spent : built.spent = (b.mustSpend ++ taken).map (·.utxo)
  previous : built.transaction.inputs.map (·.previous) = built.spent.map (·.outpoint)
  scripts : ∀ i ∈ built.transaction.inputs, i.scriptSig = .empty
  outputs : built.transaction.outputs = b.recipients ++ change.toList
  /-- With change the fee is the one for the weights that are charged. -/
  feeWithChange : change ≠ none → built.fee =
    wholeSat (b.feeRate.feeForAll (chargedWeights b.recipients (b.mustSpend ++ taken) change))
  /-- Without change it is no less, unless sums wrap around. -/
  feeWithoutChange : change = none → b.Fits →
    wholeSat (b.feeRate.feeForAll (chargedWeights b.recipients (b.mustSpend ++ taken) change)) ≤
      built.fee

section

variable {b : TxBuilder} {sort : FallingSort} {taken : List WeightedUtxo} {change : Option TxOut}
  {built : BuiltTransaction}

/-- The weights that are charged are those of the transaction, but for one byte for each number. -/
theorem Weighs.signedWeight_eq (h : Weighs b sort taken change built) :
    built.transaction.signedWeight ((b.mustSpend ++ taken).map (·.satisfactionWeight)) + 8 =
      (chargedWeights b.recipients (b.mustSpend ++ taken) change).sum +
        4 * (compactSizeLength built.transaction.inputs.length +
          compactSizeLength built.transaction.outputs.length) := by
  have hlength : built.transaction.inputs.length = (b.mustSpend ++ taken).length := by
    have hmap := congrArg List.length h.previous
    rwa [h.spent, List.length_map, List.length_map, List.length_map] at hmap
  rw [Transaction.signedWeight, Transaction.length_encodeStripped_of_inputs h.scripts,
    sum_chargedWeights, ← h.outputs, ← hlength]
  omega

/-- So they are enough just if each number takes one byte. -/
theorem Weighs.signedWeight_le_iff (h : Weighs b sort taken change built) :
    built.transaction.signedWeight ((b.mustSpend ++ taken).map (·.satisfactionWeight)) ≤
        (chargedWeights b.recipients (b.mustSpend ++ taken) change).sum ↔
      built.transaction.inputs.length ≤ 252 ∧ built.transaction.outputs.length ≤ 252 := by
  have hweight := h.signedWeight_eq
  have hinputs := one_le_compactSizeLength built.transaction.inputs.length
  have houtputs := one_le_compactSizeLength built.transaction.outputs.length
  rw [← compactSizeLength_eq_one_iff, ← compactSizeLength_eq_one_iff]
  omega

/-- What is left for the fee is enough, unless sums wrap around. -/
theorem Chosen.fee_le {selection : Selection} (h : Chosen b sort taken selection) (hfits : b.Fits)
    (hselection : b.selector b.mustSpend b.maySpend b.feeRate b.outgoing b.recipientsFee =
      .ok selection) {fee : UInt64}
    (hremaining : (selection.amount - b.outgoing).toNat = outputsValue [] + fee.toNat) :
    wholeSat selection.fee ≤ fee := by
  have hfit := hfits.cost selection hselection
  have hle := h.outgoing_le hfits hselection
  have henough := h.enough
  have hnothing : outputsValue [] = 0 := rfl
  rw [← outputsValue_eq_toNat hfits.recipients] at hfit
  rw [UInt64.le_iff_toNat_le, UInt64.toNat_add, Nat.mod_eq_of_lt hfit] at henough
  rw [UInt64.toNat_sub_of_le _ _ hle, hnothing] at hremaining
  rw [UInt64.le_iff_toNat_le]
  omega

theorem weighs_of_finish (hselector : b.selector = largestFirstBy sort) (h : b.finish = .ok built) :
    ∃ taken change, Weighs b sort taken change built := by
  obtain ⟨taken, selection, signed, hchosen, hsigned, rfl, -, hselection⟩ :=
    finish_chosen hselector h
  obtain ⟨change, houtputs, -, hremaining, hscript, hfee⟩ := assemble_change b selection rfl
  have hinputs : signed.1.inputs.map TxIn.unsigned =
      (b.assemble selection).transaction.inputs.map TxIn.unsigned :=
    congrArg Transaction.inputs (SigningKeys.unsigned_sign hsigned)
  refine ⟨taken, change, hchosen.optional, ?_, ?_, fun i hi => ?_, ?_, fun hsome => ?_,
    fun hnone hfits => ?_⟩
  · exact (spent_assemble b selection).trans hchosen.selected
  · rw [SigningKeys.previous_sign hsigned, previous_assemble, spent_assemble]
  · have hmem : i.unsigned ∈ (b.assemble selection).transaction.inputs.map TxIn.unsigned :=
      hinputs ▸ List.mem_map_of_mem hi
    rw [inputs_assemble, List.map_map] at hmem
    obtain ⟨u, -, hu⟩ := List.mem_map.1 hmem
    exact (congrArg TxIn.scriptSig hu).symm
  · exact (SigningKeys.outputs_sign hsigned).trans houtputs
  · obtain ⟨c, rfl⟩ := Option.ne_none_iff_exists'.1 hsome
    rw [feeForAll_some, ← hchosen.fee, ← TxOut.weight_of_script 0]
    exact (hfee c.script _ (hscript c rfl).1 rfl).2 hsome
  · subst hnone
    rw [feeForAll_eq_feeWithout, ← hchosen.fee]
    exact hchosen.fee_le hfits hselection hremaining

end

/-- **The weight that the fee is charged for is that of the transaction, but for its counts.**  What a
builder makes that chooses the largest coins first, in any falling order, is charged for its header,
its inputs and its outputs.  Together with four units for each byte of the two counts this is eight
units more than the transaction weighs, however many inputs and outputs it has.  So the charge is
enough just for at most 252 inputs and at most 252 outputs. -/
theorem finish_weighs {b : TxBuilder} {sort : FallingSort} {built : BuiltTransaction}
    (hselector : b.selector = largestFirstBy sort) (h : b.finish = .ok built) :
    ∃ taken change, Weighs b sort taken change built ∧
      built.transaction.signedWeight ((b.mustSpend ++ taken).map (·.satisfactionWeight)) + 8 =
        (chargedWeights b.recipients (b.mustSpend ++ taken) change).sum +
          4 * (compactSizeLength built.transaction.inputs.length +
            compactSizeLength built.transaction.outputs.length) ∧
      (built.transaction.signedWeight ((b.mustSpend ++ taken).map (·.satisfactionWeight)) ≤
          (chargedWeights b.recipients (b.mustSpend ++ taken) change).sum ↔
        built.transaction.inputs.length ≤ 252 ∧ built.transaction.outputs.length ≤ 252) := by
  obtain ⟨taken, change, hweighs⟩ := weighs_of_finish hselector h
  exact ⟨taken, change, hweighs, hweighs.signedWeight_eq, hweighs.signedWeight_le_iff⟩

/-- The payment with change is charged for what it weighs. -/
theorem finish_weighs_paymentWithChange :
    ∃ built taken change, paymentWithChange.finish = .ok built ∧ built.fee = 99 ∧
      Weighs paymentWithChange .byValue taken change built ∧
      built.transaction.signedWeight
          ((paymentWithChange.mustSpend ++ taken).map (·.satisfactionWeight)) ≤
        (chargedWeights paymentWithChange.recipients (paymentWithChange.mustSpend ++ taken)
          change).sum := by
  have hrun : (paymentWithChange.finish.toOption.map fun built => (built.fee,
      built.transaction.inputs.length, built.transaction.outputs.length)) = some (99, 1, 2) := by
    decide +kernel
  cases h : paymentWithChange.finish with
  | error e =>
      rw [h] at hrun
      cases hrun
  | ok built =>
      rw [h] at hrun
      obtain ⟨hfee, hlengths⟩ := Prod.mk.inj (Option.some.inj hrun)
      obtain ⟨hinputs, houtputs⟩ := Prod.mk.inj hlengths
      obtain ⟨taken, change, hweighs, -, hiff⟩ := finish_weighs rfl h
      refine ⟨built, taken, change, rfl, hfee, hweighs, hiff.2 ⟨?_, ?_⟩⟩
      · omega
      · omega

/-- One coin that pays 253 recipients and the fee. -/
def manyRecipients : TxBuilder :=
  { recipients := List.replicate 253 ⟨547, ⟨[81]⟩⟩
    mustSpend := [.ofKeyHash ⟨⟨.zero, 0⟩, ⟨141000, ⟨[81]⟩⟩⟩] }

/-- A transaction with 253 outputs is charged for less than it weighs. -/
theorem charged_lt_of_manyRecipients :
    ∃ built, manyRecipients.finish = .ok built ∧ built.fee = 2609 ∧
      built.transaction.outputs = manyRecipients.recipients ∧
      (chargedWeights manyRecipients.recipients manyRecipients.mustSpend none).sum = 10434 ∧
      built.transaction.signedWeight (manyRecipients.mustSpend.map (·.satisfactionWeight)) =
        10442 := by
  have hrun : (manyRecipients.finish.toOption.map fun built => (built.fee,
      built.transaction.inputs.length, built.transaction.outputs.length)) =
        some (2609, 1, 253) := by
    decide +kernel
  cases h : manyRecipients.finish with
  | error e =>
      rw [h] at hrun
      cases hrun
  | ok built =>
      rw [h] at hrun
      obtain ⟨hfee, hlengths⟩ := Prod.mk.inj (Option.some.inj hrun)
      obtain ⟨hinputs, houtputs⟩ := Prod.mk.inj hlengths
      obtain ⟨taken, change, hweighs⟩ := weighs_of_finish rfl h
      have hcharged : (chargedWeights manyRecipients.recipients manyRecipients.mustSpend none).sum =
          10434 := by
        decide +kernel
      -- there is nothing else to spend, and no script for the change
      have hoptional : taken <+: FallingSort.byValue [] := hweighs.optional
      rw [FallingSort.apply_nil] at hoptional
      obtain rfl : taken = [] := List.prefix_nil.1 hoptional
      have hrecipients : manyRecipients.recipients.length = 253 := List.length_replicate
      have hcount : built.transaction.outputs.length = 253 + change.toList.length := by
        rw [hweighs.outputs, List.length_append, hrecipients]
      obtain rfl : change = none := by
        cases change with
        | none => rfl
        | some c =>
            rw [houtputs] at hcount
            cases hcount
      have hweight := hweighs.signedWeight_eq
      rw [hinputs, houtputs, List.append_nil, hcharged] at hweight
      refine ⟨built, rfl, hfee, hweighs.outputs.trans (List.append_nil _), hcharged, ?_⟩
      exact Nat.add_right_cancel hweight

end TxBuilder

end CoinLedger
