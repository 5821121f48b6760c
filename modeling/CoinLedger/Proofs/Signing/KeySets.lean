import CoinLedger.Proofs.Signing
import CoinLedger.Signing.InPlace

/-! # Signing with sets of keys

What signing does to an input is told by the witness that the keys have for it, if they have one
(`newWitness?`).  This witness does not depend on the ones that are there, so that signing twice is
signing once (`signed_signed_self`), and to sign with one set of keys and then with another one is to
sign with both (`signed_union`), where the second set has precedence.  If no script is in both sets the
order does not matter (`signed_comm`), and the inputs that are signed add up (`countP_union`). -/

namespace CoinLedger.SigningKeys

open Key

variable {ks ks' : SigningKeys} {prevouts : List Utxo} {parts : SighashParts} {input : TxIn}
  {tx : Transaction}

/-! ### The witness of an input -/

/-- The witness that the keys have for an input. -/
def newWitness? (ks : SigningKeys) (prevouts : List Utxo) (parts : SighashParts) (input : TxIn) :
    Option (List Bytes) :=
  (ks.signerOf? prevouts input).map fun signer => keyWitness parts input signer.1 signer.2.value

theorem newWitness?_eq_some {prevout : TxOut} {key : DerivedKey}
    (hprevout : prevout? prevouts input.previous = some prevout)
    (hkey : ks.keyFor? prevout.script = some key) :
    ks.newWitness? prevouts parts input = some (keyWitness parts input key prevout.value) := by
  rw [newWitness?, signerOf?, hprevout]
  simp only [hkey, Option.map_some]

@[simp] theorem isSome_newWitness? (parts : SighashParts) (input : TxIn) :
    (ks.newWitness? prevouts parts input).isSome = ks.isSignable prevouts input := by
  rw [newWitness?, Option.isSome_map, signerOf?, isSignable]
  cases prevout? prevouts input.previous with
  | none => rfl
  | some prevout => exact Option.isSome_map

theorem newWitness?_eq_none (h : ks.isSignable prevouts input = false) :
    ks.newWitness? prevouts parts input = none := by
  rw [← Option.not_isSome_iff_eq_none, isSome_newWitness?, h]
  decide

/-- The witnesses that are there make no difference. -/
@[simp] theorem newWitness?_witness (input : TxIn) (w : List Bytes) :
    ks.newWitness? prevouts parts { input with witness := w } =
      ks.newWitness? prevouts parts input := rfl

@[simp] theorem newWitness?_unsigned (input : TxIn) :
    ks.newWitness? prevouts parts input.unsigned = ks.newWitness? prevouts parts input := rfl

theorem signedInput_eq (ks : SigningKeys) (prevouts : List Utxo) (parts : SighashParts)
    (input : TxIn) :
    ks.signedInput prevouts parts input =
      ({ input with witness := (ks.newWitness? prevouts parts input).getD input.witness },
        ks.isSignable prevouts input) := by
  rw [← isSome_newWitness? parts, signedInput, newWitness?]
  cases ks.signerOf? prevouts input <;> rfl

theorem inputs_signed (ks : SigningKeys) (tx : Transaction) (prevouts : List Utxo) :
    (ks.signed tx prevouts).inputs = tx.inputs.map fun i =>
      { i with witness := (ks.newWitness? prevouts (.ofTransaction tx) i).getD i.witness } := by
  rw [signed]
  simp only [signedInput_eq]

/-- Signing succeeds, and tells how many inputs could be signed. -/
theorem sign_eq_signed (ks : SigningKeys) (tx : Transaction) (prevouts : List Utxo) :
    ks.sign tx prevouts = .ok (ks.signed tx prevouts, tx.inputs.countP (ks.isSignable prevouts)) := by
  have hinputs : tx.inputs.mapM (ks.signInput prevouts (.ofTransaction tx)) =
      .ok (tx.inputs.map (ks.signedInput prevouts (.ofTransaction tx))) := by
    rw [funext (signInput_eq ks prevouts (.ofTransaction tx))]
    exact List.mapM_pure
  have hcount :
      ((tx.inputs.map (ks.signedInput prevouts (.ofTransaction tx))).filter (·.2)).length =
        tx.inputs.countP (ks.isSignable prevouts) := by
    rw [← List.countP_eq_length_filter, List.countP_map]
    simp only [Function.comp_def, signedInput_eq]
  rw [sign, hinputs, ok_bind, hcount, List.map_map]
  rfl

/-! ### Transactions that differ in witnesses -/

section

variable {tx' : Transaction}

theorem map_unsigned_inputs (h : tx'.unsigned = tx.unsigned) :
    tx'.inputs.map TxIn.unsigned = tx.inputs.map TxIn.unsigned := congrArg Transaction.inputs h

theorem ofTransaction_eq_of_unsigned (h : tx'.unsigned = tx.unsigned) :
    SighashParts.ofTransaction tx' = .ofTransaction tx := by
  rw [← SighashParts.ofTransaction_unsigned, h, SighashParts.ofTransaction_unsigned]

theorem countP_isSignable_of_unsigned (h : tx'.unsigned = tx.unsigned) (ks : SigningKeys)
    (prevouts : List Utxo) :
    tx'.inputs.countP (ks.isSignable prevouts) = tx.inputs.countP (ks.isSignable prevouts) := by
  have hcount : ∀ inputs : List TxIn, (inputs.map TxIn.unsigned).countP (ks.isSignable prevouts) =
      inputs.countP (ks.isSignable prevouts) := fun inputs => by
    rw [List.countP_map]
    rfl
  rw [← hcount, map_unsigned_inputs h, hcount]

/-- As many inputs are signed, whatever witnesses were there. -/
theorem sign_of_unsigned (h : tx'.unsigned = tx.unsigned) (ks : SigningKeys)
    (prevouts : List Utxo) :
    ks.sign tx' prevouts =
      .ok (ks.signed tx' prevouts, tx.inputs.countP (ks.isSignable prevouts)) := by
  rw [sign_eq_signed, countP_isSignable_of_unsigned h]

theorem encodeStripped_unsigned (tx : Transaction) :
    tx.unsigned.encodeStripped = tx.encodeStripped := by
  have hinputs : tx.unsigned.inputs.flatMap TxIn.encode = tx.inputs.flatMap TxIn.encode := by
    rw [Transaction.unsigned, List.flatMap_map]
    rfl
  have hlength : tx.unsigned.inputs.length = tx.inputs.length := by simp [Transaction.unsigned]
  rw [Transaction.encodeStripped, hinputs, hlength]
  rfl

/-- The id of a transaction does not depend on its witnesses. -/
theorem txid_eq_of_unsigned (h : tx'.unsigned = tx.unsigned) : tx'.txid = tx.txid := by
  have hbytes : tx'.encodeStripped = tx.encodeStripped := by
    rw [← encodeStripped_unsigned, h, encodeStripped_unsigned]
  simp only [Transaction.txid, hbytes]

/-- An input stands at the same place, with another witness perhaps. -/
theorem exists_input_of_unsigned (h : tx'.unsigned = tx.unsigned) {place : Nat} {input : TxIn}
    (hinput : tx.inputs[place]? = some input) :
    ∃ input', tx'.inputs[place]? = some input' ∧ input'.unsigned = input.unsigned := by
  have hplace : (tx'.inputs.map TxIn.unsigned)[place]? = some input.unsigned := by
    rw [map_unsigned_inputs h, List.getElem?_map, hinput, Option.map_some]
  rw [List.getElem?_map] at hplace
  exact Option.map_eq_some_iff.1 hplace

end

/-! ### Signing twice -/

/-- After signing twice an input has the second witness, or else the first one. -/
theorem signed_signed (ks ks' : SigningKeys) (tx : Transaction) (prevouts : List Utxo) :
    ks'.signed (ks.signed tx prevouts) prevouts = { tx with
      inputs := tx.inputs.map fun i =>
        { i with witness := ((ks'.newWitness? prevouts (.ofTransaction tx) i).or
          (ks.newWitness? prevouts (.ofTransaction tx) i)).getD i.witness } } := by
  rw [signed, ofTransaction_eq_of_unsigned (unsigned_signed ks tx prevouts), inputs_signed,
    List.map_map]
  simp only [signed, Function.comp_def, signedInput_eq, newWitness?_witness, Option.getD_or]

theorem signed_signed_self (ks : SigningKeys) (tx : Transaction) (prevouts : List Utxo) :
    ks.signed (ks.signed tx prevouts) prevouts = ks.signed tx prevouts := by
  rw [signed_signed, signed]
  simp only [signedInput_eq, Option.or_self]

/-! ### Both sets of keys -/

/-- The keys of both sets; where both have a key for a script, it is the one of the second set. -/
def union (ks ks' : SigningKeys) : SigningKeys := ks'.entries.foldl (fun all e => all.add e.2) ks

/-- No script is in both sets. -/
def Apart (ks ks' : SigningKeys) : Prop :=
  ∀ script, ks.canSign script = true → ks'.canSign script = false

theorem keyFor?_foldl_add {entries : List (Script × DerivedKey)} (script : Script) :
    ∀ {ks : SigningKeys}, (∀ e ∈ entries, e.1 = e.2.script) →
      entries.Pairwise (fun a b => a.1 ≠ b.1) →
      (entries.foldl (fun all e => all.add e.2) ks).keyFor? script =
        ((entries.find? fun e => e.1 == script).map (·.2)).or (ks.keyFor? script) := by
  induction entries with
  | nil => intro ks _ _; rfl
  | cons e entries ih =>
      intro ks hindexed hdistinct
      obtain ⟨he, hindexed⟩ := List.forall_mem_cons.1 hindexed
      obtain ⟨hnew, hdistinct⟩ := List.pairwise_cons.1 hdistinct
      rw [List.foldl_cons, ih hindexed hdistinct, keyFor?_add, ← he]
      by_cases hscript : e.1 = script
      · -- no other entry is for this script
        have hnone : entries.find? (fun e => e.1 == script) = none :=
          List.find?_eq_none.2 fun e' he' => by simpa [← hscript] using (hnew e' he').symm
        rw [List.find?_cons_of_pos (by simp [hscript]), hnone, if_pos hscript]
        rfl
      · rw [List.find?_cons_of_neg (by simp [hscript]), if_neg hscript]

theorem keyFor?_union (ks ks' : SigningKeys) (script : Script) :
    (ks.union ks').keyFor? script = (ks'.keyFor? script).or (ks.keyFor? script) :=
  keyFor?_foldl_add script ks'.indexed ks'.distinct

theorem newWitness?_union (ks ks' : SigningKeys) (prevouts : List Utxo) (parts : SighashParts)
    (input : TxIn) :
    (ks.union ks').newWitness? prevouts parts input =
      (ks'.newWitness? prevouts parts input).or (ks.newWitness? prevouts parts input) := by
  rw [newWitness?, newWitness?, newWitness?, signerOf?, signerOf?, signerOf?]
  cases prevout? prevouts input.previous with
  | none => rfl
  | some prevout =>
      simp only [keyFor?_union]
      cases ks'.keyFor? prevout.script <;> rfl

/-- To sign with one set of keys and then with another one is to sign with both. -/
theorem signed_union (ks ks' : SigningKeys) (tx : Transaction) (prevouts : List Utxo) :
    (ks.union ks').signed tx prevouts = ks'.signed (ks.signed tx prevouts) prevouts := by
  rw [signed_signed, signed]
  simp only [signedInput_eq, newWitness?_union]

theorem Apart.isSignable_eq_false (h : Apart ks ks')
    (hsignable : ks.isSignable prevouts input = true) : ks'.isSignable prevouts input = false := by
  unfold isSignable at hsignable ⊢
  split at hsignable
  · exact h _ hsignable
  · cases hsignable

theorem Apart.newWitness?_comm (h : Apart ks ks') (prevouts : List Utxo) (parts : SighashParts)
    (input : TxIn) :
    (ks.newWitness? prevouts parts input).or (ks'.newWitness? prevouts parts input) =
      (ks'.newWitness? prevouts parts input).or (ks.newWitness? prevouts parts input) := by
  cases hwitness : ks.newWitness? prevouts parts input with
  | none => rw [Option.none_or, Option.or_none]
  | some w =>
      have hsignable : ks.isSignable prevouts input = true := by
        rw [← isSome_newWitness? parts, hwitness, Option.isSome_some]
      rw [newWitness?_eq_none (h.isSignable_eq_false hsignable), Option.or_none, Option.none_or]

/-- If no script is in both sets, the order does not matter. -/
theorem signed_comm (h : Apart ks ks') (tx : Transaction) (prevouts : List Utxo) :
    ks.signed (ks'.signed tx prevouts) prevouts = ks'.signed (ks.signed tx prevouts) prevouts := by
  rw [signed_signed, signed_signed]
  simp only [h.newWitness?_comm]

theorem isSignable_union (ks ks' : SigningKeys) (prevouts : List Utxo) (input : TxIn) :
    (ks.union ks').isSignable prevouts input =
      (ks.isSignable prevouts input || ks'.isSignable prevouts input) := by
  unfold isSignable
  cases prevout? prevouts input.previous with
  | none => rfl
  | some prevout =>
      simp only [canSign, keyFor?_union, Option.isSome_or]
      exact Bool.or_comm _ _

/-- If no script is in both sets, the inputs that are signed add up. -/
theorem countP_union (h : Apart ks ks') (prevouts : List Utxo) (inputs : List TxIn) :
    inputs.countP ((ks.union ks').isSignable prevouts) =
      inputs.countP (ks.isSignable prevouts) + inputs.countP (ks'.isSignable prevouts) := by
  induction inputs with
  | nil => rfl
  | cons input inputs ih =>
      simp only [List.countP_cons, ih, isSignable_union]
      cases hsignable : ks.isSignable prevouts input with
      | true =>
          simp only [h.isSignable_eq_false hsignable, Bool.or_false, if_true, Bool.false_eq_true,
            if_false]
          omega
      | false =>
          simp only [Bool.false_or, Bool.false_eq_true, if_false]
          omega

end CoinLedger.SigningKeys
