import Mathlib.Data.Nat.ModEq
import CoinLedger.Funding.Builder
import CoinLedger.Proofs.Funding.Selection
import CoinLedger.Proofs.Signing

/-! # A built transaction keeps the value of its coins

`Conserves b taken built` says what holds of a transaction that `b` built from the coins that must
be spent and the coins `taken` from the others: its outputs and its fee are worth what its coins
are, its inputs spend just these coins, its outputs are the recipients and at most one output for
the change, none of them is dust, and there is no change just when it would be dust.

`finish_ok` takes `TxBuilder.finish` apart, and `finish_conserves` is the result for builders that
choose the largest coins first.  Amounts are added up as natural numbers; `TxBuilder.Fits` says of
the sums that the program makes that they fit into 64 bits.  Without it the value is kept up to what
wraps around (`Chosen.modEq`). -/

namespace CoinLedger

/-- What outputs are worth. -/
def outputsValue (outputs : List TxOut) : Nat := (outputs.map (·.value.toNat)).sum

/-- What coins are worth. -/
def coinsValue (coins : List Utxo) : Nat := (coins.map (·.txout.value.toNat)).sum

theorem coinsValue_append (xs ys : List Utxo) :
    coinsValue (xs ++ ys) = coinsValue xs + coinsValue ys := by
  simp [coinsValue]

theorem coinsValue_perm {xs ys : List Utxo} (h : xs.Perm ys) : coinsValue xs = coinsValue ys :=
  (h.map fun u : Utxo => u.txout.value.toNat).sum_nat

theorem isDust_eq_false_iff {amount : UInt64} :
    isDust amount = false ↔ dustLimit.toNat < amount.toNat := by
  rw [isDust, decide_eq_false_iff_not, UInt64.not_le, UInt64.lt_iff_toNat_lt]

namespace TxBuilder

/-- The fee for the header and the recipients, not rounded. -/
def recipientsFee (b : TxBuilder) : Float32 :=
  b.recipients.foldl (fun fee o => fee + b.feeRate.feeFor o.weight) (b.feeRate.feeFor headerWeight)

/-- The fee for a transaction that spends these coins and has no change, not rounded. -/
def feeWithout (b : TxBuilder) (coins : List WeightedUtxo) : Float32 :=
  feeAfter b.feeRate b.recipientsFee coins

/-- The fee for a transaction that spends these coins and pays the change to this script. -/
def feeWith (b : TxBuilder) (coins : List WeightedUtxo) (script : Script) : UInt64 :=
  wholeSat (b.feeWithout coins + b.feeRate.feeFor (TxOut.weight ⟨0, script⟩))

/-- The sums of amounts that are made for this builder fit into 64 bits. -/
structure Fits (b : TxBuilder) : Prop where
  recipients : outputsValue b.recipients < UInt64.size
  coins : coinsValue ((b.mustSpend ++ b.maySpend).map (·.utxo)) < UInt64.size
  cost : ∀ selection,
    b.selector b.mustSpend b.maySpend b.feeRate b.outgoing b.recipientsFee = .ok selection →
      outputsValue b.recipients + (wholeSat selection.fee).toNat < UInt64.size

/-- What holds of a transaction that is built of the coins that must be spent and these others. -/
structure Conserves (b : TxBuilder) (taken : List WeightedUtxo) (built : BuiltTransaction) :
    Prop where
  /-- The recipients are paid from the coins. -/
  solvent : outputsValue b.recipients ≤ coinsValue built.spent
  /-- What the coins are worth goes to the outputs and to the fee. -/
  balanced : coinsValue built.spent = outputsValue built.transaction.outputs + built.fee.toNat
  /-- The coins are all that must be spent, in their order, and then some of the others. -/
  spent : built.spent = (b.mustSpend ++ taken).map (·.utxo)
  optional : taken.Subperm b.maySpend
  /-- The inputs spend these coins in the same order. -/
  inputs : built.transaction.inputs.map (·.previous) = built.spent.map (·.outpoint)
  /-- The outputs are the recipients, and the change behind them if there is any. -/
  outputs : ∃ change : Option TxOut,
    built.transaction.outputs = b.recipients ++ change.toList ∧
      built.changeIndex = change.map (fun _ => b.recipients.length) ∧
      ∀ c, change = some c → b.changeScript = some c.script ∧ dustLimit.toNat < c.value.toNat
  /-- There is an output, and none is dust. -/
  nonempty : built.transaction.outputs ≠ []
  notDust : ∀ o ∈ built.transaction.outputs, dustLimit.toNat < o.value.toNat
  /-- The change is left out if it would be dust, and only then; otherwise the fee is the one for a
  transaction with change. -/
  change : ∀ script, b.changeScript = some script →
    (built.changeIndex = none ↔ coinsValue built.spent - outputsValue b.recipients ≤
      (b.feeWith (b.mustSpend ++ taken) script).toNat + dustLimit.toNat) ∧
    (built.changeIndex ≠ none → built.fee = b.feeWith (b.mustSpend ++ taken) script)
  /-- Without a script for the change there is none. -/
  noChange : b.changeScript = none → built.changeIndex = none

/-! ### The steps of building -/

theorem outputFees_ok {rate : FeeRate} :
    ∀ {outputs : List TxOut} {index : Nat} {fee total : Float32},
      outputFees rate index fee outputs = .ok total →
      total = outputs.foldl (fun fee o => fee + rate.feeFor o.weight) fee ∧
        ∀ o ∈ outputs, dustLimit.toNat < o.value.toNat
  | [], index, fee, total, h => by
      obtain rfl : fee = total := Except.ok.inj h
      exact ⟨rfl, fun o ho => by cases ho⟩
  | o :: outputs, index, fee, total, h => by
      rw [outputFees] at h
      split at h
      · cases h
      · rename_i hdust
        obtain ⟨htotal, hrest⟩ := outputFees_ok h
        have ho : dustLimit.toNat < o.value.toNat :=
          isDust_eq_false_iff.1 (Bool.not_eq_true _ ▸ hdust)
        exact ⟨htotal, List.forall_mem_cons.2 ⟨ho, hrest⟩⟩

/-- What has happened when a transaction is built. -/
theorem finish_ok {b : TxBuilder} {built : BuiltTransaction} (h : b.finish = .ok built) :
    (∀ o ∈ b.recipients, dustLimit.toNat < o.value.toNat) ∧
      ∃ selection signed,
        b.selector b.mustSpend b.maySpend b.feeRate b.outgoing b.recipientsFee = .ok selection ∧
        (b.assemble selection).transaction.outputs ≠ [] ∧
        b.signingKeys.sign (b.assemble selection).transaction selection.selected = .ok signed ∧
        built = { b.assemble selection with transaction := signed.1 } := by
  unfold finish at h
  split at h
  · cases h
  · obtain ⟨fee, hfee, hrest⟩ := bind_ok h
    obtain ⟨hrecipients, hdust⟩ := outputFees_ok hfee
    obtain ⟨selection, hselection, hbuilt⟩ := bind_ok hrest
    dsimp only at hbuilt
    split at hbuilt
    · cases hbuilt
    · rename_i hempty
      obtain ⟨signed, hsigned, hbuilt⟩ := bind_ok hbuilt
      rw [hrecipients] at hselection
      refine ⟨hdust, selection, signed, hselection, ?_, hsigned, (Except.ok.inj hbuilt).symm⟩
      simpa using hempty

/-- A builder with recipients makes a transaction when coins are chosen for it. -/
theorem exists_finish_eq_ok {b : TxBuilder} (hrecipients : b.recipients ≠ []) {fee : Float32}
    {selection : Selection}
    (hfee : outputFees b.feeRate 0 (b.feeRate.feeFor headerWeight) b.recipients = .ok fee)
    (hselection : b.selector b.mustSpend b.maySpend b.feeRate b.outgoing fee = .ok selection) :
    ∃ built, b.finish = .ok built := by
  obtain ⟨signed, hsigned⟩ :=
    b.signingKeys.exists_sign_eq_ok (b.assemble selection).transaction selection.selected
  have houtputs : (b.assemble selection).transaction.outputs.isEmpty = false := by
    unfold assemble
    dsimp only
    split <;> simp [hrecipients]
  have hnone : (b.recipients.isEmpty && b.mustSpend.isEmpty) = false := by simp [hrecipients]
  refine ⟨{ b.assemble selection with transaction := signed.1 }, ?_⟩
  unfold finish
  simp only [hnone, hfee, hselection, houtputs, hsigned, Bool.false_eq_true, if_false, ok_bind]
  rfl

/-- The change is what the coins leave after the recipients and the fee, unless that is dust. -/
theorem change?_eq (script : Script) (rate : FeeRate) (fee : Float32) (remaining : UInt64) :
    change? script rate fee remaining =
      let feeWithChange := wholeSat (fee + rate.feeFor (TxOut.weight ⟨0, script⟩))
      if feeWithChange.toNat + dustLimit.toNat < remaining.toNat then
        some (⟨remaining - feeWithChange, script⟩, feeWithChange)
      else none := by
  unfold change?
  generalize wholeSat (fee + rate.feeFor (TxOut.weight ⟨0, script⟩)) = f
  have hiff : (f ≤ remaining ∧ isDust (remaining - f) = false) ↔
      f.toNat + dustLimit.toNat < remaining.toNat := by
    rw [isDust_eq_false_iff]
    constructor
    · rintro ⟨hle, hlt⟩
      rw [UInt64.toNat_sub_of_le _ _ hle] at hlt
      rw [UInt64.le_iff_toNat_le] at hle
      omega
    · intro hlt
      have hle : f ≤ remaining := by
        rw [UInt64.le_iff_toNat_le]
        omega
      refine ⟨hle, ?_⟩
      rw [UInt64.toNat_sub_of_le _ _ hle]
      omega
  simp only [hiff]

/-- What is left of the coins is the change and the fee, or the fee alone if the change would be
dust. -/
theorem assemble_change (b : TxBuilder) (selection : Selection) {remaining : UInt64}
    (hremaining : selection.amount - b.outgoing = remaining) :
    ∃ change : Option TxOut,
      (b.assemble selection).transaction.outputs = b.recipients ++ change.toList ∧
      (b.assemble selection).changeIndex = change.map (fun _ => b.recipients.length) ∧
      remaining.toNat = outputsValue change.toList + (b.assemble selection).fee.toNat ∧
      (∀ c, change = some c → b.changeScript = some c.script ∧ dustLimit.toNat < c.value.toNat) ∧
      ∀ script fee, b.changeScript = some script →
        wholeSat (selection.fee + b.feeRate.feeFor (TxOut.weight ⟨0, script⟩)) = fee →
          (change = none ↔ remaining.toNat ≤ fee.toNat + dustLimit.toNat) ∧
          (change ≠ none → (b.assemble selection).fee = fee) := by
  subst hremaining
  unfold assemble
  dsimp only
  cases hscript : b.changeScript with
  | none =>
      refine ⟨none, (List.append_nil _).symm, rfl, (Nat.zero_add _).symm, ?_, ?_⟩
      · rintro c ⟨⟩
      · rintro script fee ⟨⟩
  | some script =>
      rw [Option.bind_some, change?_eq]
      dsimp only
      generalize hfee :
        wholeSat (selection.fee + b.feeRate.feeFor (TxOut.weight ⟨0, script⟩)) = fee
      by_cases hdust : fee.toNat + dustLimit.toNat < (selection.amount - b.outgoing).toNat
      · have hle : fee ≤ selection.amount - b.outgoing := by
          rw [UInt64.le_iff_toNat_le]
          omega
        have hvalue := UInt64.toNat_sub_of_le _ _ hle
        rw [if_pos hdust]
        refine ⟨some ⟨selection.amount - b.outgoing - fee, script⟩, rfl, rfl, ?_, ?_, ?_⟩
        · have hone : outputsValue [⟨selection.amount - b.outgoing - fee, script⟩] =
              (selection.amount - b.outgoing - fee).toNat := Nat.add_zero _
          have hsum : (selection.amount - b.outgoing).toNat =
              outputsValue [⟨selection.amount - b.outgoing - fee, script⟩] + fee.toNat := by
            rw [hone, hvalue]
            omega
          exact hsum
        · rintro _ ⟨⟩
          refine ⟨rfl, ?_⟩
          rw [hvalue]
          omega
        · rintro _ _ ⟨⟩ rfl
          refine ⟨iff_of_false (Option.some_ne_none _) ?_, fun _ => hfee.symm⟩
          rw [hfee]
          exact Nat.not_le.2 hdust
      · rw [if_neg hdust]
        refine ⟨none, (List.append_nil _).symm, rfl, (Nat.zero_add _).symm, ?_, ?_⟩
        · rintro c ⟨⟩
        · rintro _ _ ⟨⟩ rfl
          refine ⟨iff_of_true rfl ?_, fun h => absurd rfl h⟩
          rw [hfee]
          exact Nat.not_lt.1 hdust

theorem spent_assemble (b : TxBuilder) (selection : Selection) :
    (b.assemble selection).spent = selection.selected := by
  unfold assemble
  dsimp only
  split <;> rfl

theorem inputs_assemble (b : TxBuilder) (selection : Selection) :
    (b.assemble selection).transaction.inputs = selection.selected.map inputFor := by
  unfold assemble
  dsimp only
  split <;> rfl

theorem previous_assemble (b : TxBuilder) (selection : Selection) :
    (b.assemble selection).transaction.inputs.map (·.previous) =
      selection.selected.map (·.outpoint) := by
  rw [inputs_assemble, List.map_map]
  rfl

/-! ### Sums -/

theorem toNat_totalValue (coins : List WeightedUtxo) :
    (totalValue coins).toNat = coinsValue (coins.map (·.utxo)) % UInt64.size := by
  rw [totalValue, toNat_sumAmounts, List.map_map, coinsValue, List.map_map]
  rfl

theorem toNat_outgoing (b : TxBuilder) :
    b.outgoing.toNat = outputsValue b.recipients % UInt64.size := by
  rw [outgoing, toNat_sumAmounts, List.map_map]
  rfl

theorem coinsValue_eq_toNat {coins : List WeightedUtxo}
    (h : coinsValue (coins.map (·.utxo)) < UInt64.size) :
    (totalValue coins).toNat = coinsValue (coins.map (·.utxo)) := by
  rw [toNat_totalValue, Nat.mod_eq_of_lt h]

theorem outputsValue_eq_toNat {b : TxBuilder} (h : outputsValue b.recipients < UInt64.size) :
    b.outgoing.toNat = outputsValue b.recipients := by
  rw [toNat_outgoing, Nat.mod_eq_of_lt h]

theorem outputsValue_append (xs ys : List TxOut) :
    outputsValue (xs ++ ys) = outputsValue xs + outputsValue ys := by
  simp [outputsValue]

theorem coinsValue_taken_le {sort : FallingSort} {must may taken : List WeightedUtxo}
    (h : taken <+: sort may) :
    coinsValue ((must ++ taken).map (·.utxo)) ≤ coinsValue ((must ++ may).map (·.utxo)) := by
  obtain ⟨rest, hrest⟩ := h
  have hperm : ((must ++ (taken ++ rest)).map (·.utxo)).Perm ((must ++ may).map (·.utxo)) := by
    rw [hrest]
    exact ((sort.fallingOrder may).perm.append_left must).map _
  have hsum : coinsValue ((must ++ (taken ++ rest)).map (·.utxo)) =
      coinsValue ((must ++ may).map (·.utxo)) := coinsValue_perm hperm
  rw [← hsum]
  simp [coinsValue]

/-! ### Conservation -/

theorem Conserves.sign {b : TxBuilder} {taken : List WeightedUtxo} {built : BuiltTransaction}
    (h : Conserves b taken built) {prevouts : List Utxo} {signed : Transaction × Nat}
    (hsigned : b.signingKeys.sign built.transaction prevouts = .ok signed) :
    Conserves b taken { built with transaction := signed.1 } := by
  have houtputs : signed.1.outputs = built.transaction.outputs := SigningKeys.outputs_sign hsigned
  have hprevious := SigningKeys.previous_sign hsigned
  constructor
  · exact h.solvent
  · simp only [houtputs]
    exact h.balanced
  · exact h.spent
  · exact h.optional
  · simp only [hprevious]
    exact h.inputs
  · simp only [houtputs]
    exact h.outputs
  · simp only [houtputs]
    exact h.nonempty
  · simp only [houtputs]
    exact h.notDust
  · exact h.change
  · exact h.noChange

/-- The selection is of the coins that must be spent and these others, the first ones of a falling
order, and it is enough. -/
structure Chosen (b : TxBuilder) (sort : FallingSort) (taken : List WeightedUtxo)
    (selection : Selection) : Prop where
  optional : taken <+: sort b.maySpend
  selected : selection.selected = (b.mustSpend ++ taken).map (·.utxo)
  amount : selection.amount = totalValue (b.mustSpend ++ taken)
  fee : selection.fee = b.feeWithout (b.mustSpend ++ taken)
  enough : b.outgoing + wholeSat selection.fee ≤ selection.amount

section

variable {b : TxBuilder} {sort : FallingSort} {selection : Selection} {taken : List WeightedUtxo}

theorem Chosen.coinsValue_spent (h : Chosen b sort taken selection) (hfits : b.Fits) :
    coinsValue (b.assemble selection).spent = selection.amount.toNat := by
  have hfit : coinsValue ((b.mustSpend ++ taken).map (·.utxo)) < UInt64.size :=
    Nat.lt_of_le_of_lt (coinsValue_taken_le h.optional) hfits.coins
  rw [spent_assemble, h.selected, h.amount, coinsValue_eq_toNat hfit]

/-- What the coins are worth goes to the outputs and to the fee, as sums that wrap around. -/
theorem Chosen.modEq (h : Chosen b sort taken selection) :
    coinsValue (b.assemble selection).spent ≡
      outputsValue (b.assemble selection).transaction.outputs +
        (b.assemble selection).fee.toNat [MOD UInt64.size] := by
  obtain ⟨change, houtputs, -, hremaining, -⟩ := assemble_change b selection rfl
  have hamount : selection.amount.toNat = coinsValue (b.assemble selection).spent % UInt64.size := by
    rw [spent_assemble, h.selected, h.amount, toNat_totalValue]
  have houtgoing := toNat_outgoing b
  have hsum : (b.outgoing.toNat + (selection.amount - b.outgoing).toNat) % UInt64.size =
      selection.amount.toNat := by
    have hcancel : b.outgoing + (selection.amount - b.outgoing) = selection.amount := by
      rw [UInt64.add_comm, UInt64.sub_add_cancel]
    exact (UInt64.toNat_add _ _).symm.trans (congrArg UInt64.toNat hcancel)
  rw [houtputs, outputsValue_append, Nat.ModEq, ← hamount, ← hsum, houtgoing, hremaining,
    Nat.mod_add_mod, Nat.add_assoc]

/-- The cost does not wrap around, so the recipients are paid in full. -/
theorem Chosen.outgoing_le (h : Chosen b sort taken selection) (hfits : b.Fits)
    (hselection : b.selector b.mustSpend b.maySpend b.feeRate b.outgoing b.recipientsFee =
      .ok selection) : b.outgoing ≤ selection.amount := by
  have hfit := hfits.cost selection hselection
  have henough := h.enough
  rw [← outputsValue_eq_toNat hfits.recipients] at hfit
  rw [UInt64.le_iff_toNat_le, UInt64.toNat_add, Nat.mod_eq_of_lt hfit] at henough
  rw [UInt64.le_iff_toNat_le]
  omega

/-- The transaction that is assembled of enough coins keeps their value. -/
theorem Chosen.conserves (h : Chosen b sort taken selection) (hfits : b.Fits)
    (hselection : b.selector b.mustSpend b.maySpend b.feeRate b.outgoing b.recipientsFee =
      .ok selection)
    (hdust : ∀ o ∈ b.recipients, dustLimit.toNat < o.value.toNat)
    (hnonempty : (b.assemble selection).transaction.outputs ≠ []) :
    Conserves b taken (b.assemble selection) := by
  have hspent := h.coinsValue_spent hfits
  have houtgoing : b.outgoing.toNat = outputsValue b.recipients :=
    outputsValue_eq_toNat hfits.recipients
  have hle := h.outgoing_le hfits hselection
  have hremaining : (selection.amount - b.outgoing).toNat =
      coinsValue (b.assemble selection).spent - outputsValue b.recipients := by
    rw [UInt64.toNat_sub_of_le _ _ hle, hspent, houtgoing]
  have hsolvent : outputsValue b.recipients ≤ coinsValue (b.assemble selection).spent := by
    rw [hspent, ← houtgoing]
    exact UInt64.le_iff_toNat_le.1 hle
  obtain ⟨change, houtputs, hindex, hbalanced, hlarge, hleft⟩ := assemble_change b selection rfl
  rw [hremaining] at hbalanced hleft
  constructor
  · exact hsolvent
  · rw [houtputs, outputsValue_append]
    omega
  · exact (spent_assemble b selection).trans h.selected
  · exact h.optional.sublist.subperm.trans (sort.fallingOrder b.maySpend).perm.subperm
  · rw [previous_assemble, spent_assemble]
  · exact ⟨change, houtputs, hindex, hlarge⟩
  · exact hnonempty
  · intro o ho
    rw [houtputs, List.mem_append, Option.mem_toList] at ho
    rcases ho with ho | ho
    · exact hdust o ho
    · exact (hlarge o ho).2
  · intro script hscript
    have hfee : b.feeWith (b.mustSpend ++ taken) script =
        wholeSat (selection.fee + b.feeRate.feeFor (TxOut.weight ⟨0, script⟩)) := by
      rw [feeWith, h.fee]
    rw [hindex, ne_eq, Option.map_eq_none_iff]
    exact hleft script _ hscript hfee.symm
  · intro hnone
    rw [hindex, Option.map_eq_none_iff, Option.eq_none_iff_forall_ne_some]
    intro c hc
    rw [(hlarge c hc).1] at hnone
    cases hnone

end

/-- What a builder that chooses the largest coins first has chosen and signed. -/
theorem finish_chosen {b : TxBuilder} {sort : FallingSort} {built : BuiltTransaction}
    (hselector : b.selector = largestFirstBy sort) (h : b.finish = .ok built) :
    ∃ taken selection signed, Chosen b sort taken selection ∧
      b.signingKeys.sign (b.assemble selection).transaction selection.selected = .ok signed ∧
      built = { b.assemble selection with transaction := signed.1 } ∧
      (b.Fits → Conserves b taken (b.assemble selection)) ∧
      b.selector b.mustSpend b.maySpend b.feeRate b.outgoing b.recipientsFee = .ok selection := by
  obtain ⟨hdust, selection, signed, hselection, hnonempty, hsigned, rfl⟩ := finish_ok h
  have hlargest : largestFirstBy sort b.mustSpend b.maySpend b.feeRate b.outgoing b.recipientsFee =
      .ok selection := hselector ▸ hselection
  obtain ⟨taken, htaken, hselected, hamount, hfee, hpaid⟩ := largestFirstBy_ok hlargest
  have hchosen : Chosen b sort taken selection := ⟨htaken, hselected, hamount, hfee, hpaid⟩
  exact ⟨taken, selection, signed, hchosen, hsigned, rfl, fun hfits =>
    hchosen.conserves hfits hselection hdust hnonempty, hselection⟩

/-- **A built transaction keeps the value of its coins.**  If a builder that chooses the largest
coins first, in any falling order, has a result and its sums fit into 64 bits, then the coins that it
spends are worth what the outputs and the fee are, at any fee rate and with or without change. -/
theorem finish_conserves {b : TxBuilder} {sort : FallingSort} {built : BuiltTransaction}
    (hselector : b.selector = largestFirstBy sort) (hfits : b.Fits) (h : b.finish = .ok built) :
    ∃ taken, Conserves b taken built := by
  obtain ⟨taken, selection, signed, -, hsigned, rfl, hconserves, -⟩ := finish_chosen hselector h
  exact ⟨taken, (hconserves hfits).sign hsigned⟩

/-- A builder with one coin, one recipient and a script for the change. -/
def paymentWithChange : TxBuilder :=
  { recipients := [⟨5000, ⟨[81]⟩⟩], mustSpend := [.ofKeyHash ⟨⟨.zero, 0⟩, ⟨10000, ⟨[81]⟩⟩⟩],
    changeScript := some ⟨[81]⟩ }

theorem fits_paymentWithChange : paymentWithChange.Fits := by
  refine ⟨by decide, by decide, fun selection h => ?_⟩
  obtain ⟨taken, htaken, -, -, hfee, -⟩ := largestFirstBy_ok h
  obtain rfl : taken = [] := by simpa [paymentWithChange] using htaken
  rw [hfee]
  decide +kernel

theorem finish_conserves_paymentWithChange :
    ∃ built taken, paymentWithChange.finish = .ok built ∧
      (built.fee = 99 ∧ built.changeIndex = some 1) ∧ Conserves paymentWithChange taken built := by
  have hrun : (paymentWithChange.finish.toOption.map fun built =>
      (built.fee, built.changeIndex)) = some (99, some 1) := by
    decide +kernel
  cases h : paymentWithChange.finish with
  | error e =>
      rw [h] at hrun
      cases hrun
  | ok built =>
      rw [h] at hrun
      obtain ⟨taken, htaken⟩ := finish_conserves rfl fits_paymentWithChange h
      exact ⟨built, taken, rfl, Prod.mk.inj (Option.some.inj hrun), htaken⟩

end TxBuilder

end CoinLedger
