import Mathlib.Data.List.Nodup
import CoinLedger.Proofs.Results
import CoinLedger.Signing

/-! # What signing does

`SigningKeys.sign` puts witnesses into inputs.  `unsigned_sign` says that the transaction is the
same but for them, and `previous_sign` and `outputs_sign` are what follows for the coins that it
spends and the outputs that it makes.

Signing always succeeds, since a key is only found for a script that it unlocks.  An input whose
signer is known has its `keyWitness` then, and all others are left as they are (`sign_eq`).  What is
signed does not depend on witnesses, so that transactions that are the same without their witnesses
are signed alike. -/

namespace CoinLedger

open Key

/-- The input without its witness. -/
def TxIn.unsigned (i : TxIn) : TxIn := { i with witness := [] }

theorem TxIn.previous_eq_of_unsigned {i i' : TxIn} (h : i.unsigned = i'.unsigned) :
    i.previous = i'.previous := (TxIn.mk.inj h).1

theorem TxIn.eq_of_unsigned {i i' : TxIn} (h : i.unsigned = i'.unsigned)
    (hwitness : i.witness = i'.witness) : i = i' := by
  cases i
  cases i'
  simp only [TxIn.unsigned, TxIn.mk.injEq] at h hwitness
  obtain ⟨rfl, rfl, rfl, -⟩ := h
  rw [hwitness]

/-- The transaction without its witnesses. -/
def Transaction.unsigned (tx : Transaction) : Transaction :=
  { tx with inputs := tx.inputs.map TxIn.unsigned }

namespace SigningKeys

/-! ### Witnesses -/

/-- The witness that a key makes for an input that spends an output of this value. -/
def keyWitness (parts : SighashParts) (input : TxIn) (key : DerivedKey) (value : UInt64) :
    List Bytes :=
  let digest := parts.digest input (hash160 key.publicKey) value
  [(Curve.Signature.make key.secret digest).der ++ [sighashAll], key.publicKey]

section

variable {ks : SigningKeys} {script : Script} {key : DerivedKey}

/-- A key is found for the script that it unlocks. -/
theorem script_of_keyFor? (h : ks.keyFor? script = some key) : key.script = script := by
  obtain ⟨e, he, rfl⟩ := Option.map_eq_some_iff.1 h
  have hfound : e.1 = script := by simpa using List.find?_some he
  rw [← ks.indexed e (List.mem_of_find?_eq_some he), hfound]

theorem keyFor?_add (ks : SigningKeys) (key : DerivedKey) (script : Script) :
    (ks.add key).keyFor? script = if key.script = script then some key else ks.keyFor? script := by
  by_cases hscript : key.script = script
  · rw [if_pos hscript, keyFor?, add, List.find?_cons_of_pos (by simpa using hscript)]
    rfl
  · have hothers : (ks.entries.filter fun e => e.1 != key.script).find? (fun e => e.1 == script) =
        ks.entries.find? fun e => e.1 == script := by
      rw [List.find?_filter]
      congr 1
      funext e
      by_cases he : e.1 = script
      · simp [he, Ne.symm hscript]
      · simp [he]
    rw [if_neg hscript, keyFor?, add, List.find?_cons_of_neg (by simpa using hscript), hothers]
    rfl

theorem witness_eq {parts : SighashParts} {input : TxIn} {prevout : TxOut}
    (h : key.script = prevout.script) :
    witness parts input key prevout = .ok (keyWitness parts input key prevout.value) := by
  have hhash : prevout.script.publicKeyHash? = some (hash160 key.publicKey) := by
    rw [← h]
    show (if (hash160 key.publicKey).length = 20 then some (hash160 key.publicKey) else none) = _
    exact if_pos (length_hash160 key.publicKey)
  rw [witness, hhash]
  rfl

end

/-- An input after it was signed, and whether it was. -/
def signedInput (ks : SigningKeys) (prevouts : List Utxo) (parts : SighashParts) (input : TxIn) :
    TxIn × Bool :=
  match ks.signerOf? prevouts input with
  | some (key, prevout) => ({ input with witness := keyWitness parts input key prevout.value }, true)
  | none => (input, false)

theorem script_of_signerOf? {ks : SigningKeys} {prevouts : List Utxo} {input : TxIn}
    {key : DerivedKey} {prevout : TxOut} (h : ks.signerOf? prevouts input = some (key, prevout)) :
    key.script = prevout.script := by
  unfold signerOf? at h
  split at h
  · obtain ⟨key', hkey, heq⟩ := Option.map_eq_some_iff.1 h
    obtain ⟨rfl, rfl⟩ := Prod.mk.inj heq
    exact script_of_keyFor? hkey
  · cases h

theorem signInput_eq (ks : SigningKeys) (prevouts : List Utxo) (parts : SighashParts)
    (input : TxIn) :
    ks.signInput prevouts parts input = .ok (ks.signedInput prevouts parts input) := by
  unfold signInput signedInput
  cases hsigner : ks.signerOf? prevouts input with
  | none => rfl
  | some signer =>
      simp only [witness_eq (script_of_signerOf? hsigner)]
      rfl

/-- Signing succeeds, and signs each input by itself. -/
theorem sign_eq (ks : SigningKeys) (tx : Transaction) (prevouts : List Utxo) :
    ∃ count, ks.sign tx prevouts = .ok
      ({ tx with inputs :=
          tx.inputs.map fun i => (ks.signedInput prevouts (.ofTransaction tx) i).1 }, count) := by
  have hinputs : tx.inputs.mapM (ks.signInput prevouts (.ofTransaction tx)) =
      .ok (tx.inputs.map (ks.signedInput prevouts (.ofTransaction tx))) := by
    rw [funext (signInput_eq ks prevouts (.ofTransaction tx))]
    exact List.mapM_pure
  refine ⟨((tx.inputs.map (ks.signedInput prevouts (.ofTransaction tx))).filter (·.2)).length, ?_⟩
  rw [sign, hinputs, ok_bind, List.map_map]
  rfl

theorem exists_sign_eq_ok (ks : SigningKeys) (tx : Transaction) (prevouts : List Utxo) :
    ∃ signed, ks.sign tx prevouts = .ok signed := by
  obtain ⟨count, hsign⟩ := ks.sign_eq tx prevouts
  exact ⟨_, hsign⟩

theorem unsigned_signedInput (ks : SigningKeys) (prevouts : List Utxo) (parts : SighashParts)
    (input : TxIn) : (ks.signedInput prevouts parts input).1.unsigned = input.unsigned := by
  unfold signedInput
  split <;> rfl

/-- Signing changes nothing but witnesses. -/
theorem unsigned_sign {ks : SigningKeys} {tx : Transaction} {prevouts : List Utxo}
    {signed : Transaction × Nat} (h : ks.sign tx prevouts = .ok signed) :
    signed.1.unsigned = tx.unsigned := by
  obtain ⟨count, hsign⟩ := sign_eq ks tx prevouts
  obtain rfl := Except.ok.inj (hsign.symm.trans h)
  simp only [Transaction.unsigned, List.map_map, Function.comp_def, unsigned_signedInput]

theorem outputs_sign {ks : SigningKeys} {tx : Transaction} {prevouts : List Utxo}
    {signed : Transaction × Nat} (h : ks.sign tx prevouts = .ok signed) :
    signed.1.outputs = tx.outputs := by
  have houtputs := congrArg Transaction.outputs (unsigned_sign h)
  exact houtputs

theorem previous_sign {ks : SigningKeys} {tx : Transaction} {prevouts : List Utxo}
    {signed : Transaction × Nat} (h : ks.sign tx prevouts = .ok signed) :
    signed.1.inputs.map (·.previous) = tx.inputs.map (·.previous) := by
  have hprevious : ∀ inputs : List TxIn,
      (inputs.map TxIn.unsigned).map (·.previous) = inputs.map (·.previous) := fun inputs => by
    rw [List.map_map]
    rfl
  have hinputs : signed.1.inputs.map TxIn.unsigned = tx.inputs.map TxIn.unsigned :=
    congrArg Transaction.inputs (unsigned_sign h)
  rw [← hprevious, hinputs, hprevious]

/-- The transaction, signed. -/
def signed (ks : SigningKeys) (tx : Transaction) (prevouts : List Utxo) : Transaction :=
  { tx with inputs := tx.inputs.map fun i => (ks.signedInput prevouts (.ofTransaction tx) i).1 }

theorem signed_empty (tx : Transaction) (prevouts : List Utxo) :
    signed .empty tx prevouts = tx := by
  have hinput : ∀ i : TxIn, (signedInput .empty prevouts (.ofTransaction tx) i).1 = i := by
    intro i
    have hnone : signerOf? .empty prevouts i = none := by
      unfold signerOf?
      split <;> rfl
    rw [signedInput, hnone]
  rw [signed, funext hinput, List.map_id']

theorem exists_sign_eq_signed (ks : SigningKeys) (tx : Transaction) (prevouts : List Utxo) :
    ∃ count, ks.sign tx prevouts = .ok (ks.signed tx prevouts, count) :=
  ks.sign_eq tx prevouts

theorem unsigned_signed (ks : SigningKeys) (tx : Transaction) (prevouts : List Utxo) :
    (ks.signed tx prevouts).unsigned = tx.unsigned := by
  obtain ⟨count, hsign⟩ := ks.exists_sign_eq_signed tx prevouts
  exact unsigned_sign hsign

/-- The signer of an input that spends one of several outputs is the key for this output. -/
theorem signerOf?_eq_some {ks : SigningKeys} {prevouts : List Utxo} {u : Utxo} {input : TxIn}
    {key : DerivedKey} (hnodup : (prevouts.map (·.outpoint)).Nodup) (hu : u ∈ prevouts)
    (hinput : input.previous = u.outpoint) (hkey : ks.keyFor? u.txout.script = some key) :
    ks.signerOf? prevouts input = some (key, u.txout) := by
  have hfound : prevouts.reverse.find? (fun u => u.outpoint == input.previous) = some u := by
    have hsome : (prevouts.reverse.find? fun u => u.outpoint == input.previous).isSome = true :=
      List.find?_isSome.2 ⟨u, List.mem_reverse.2 hu, by simp [hinput]⟩
    obtain ⟨v, hv⟩ := Option.isSome_iff_exists.1 hsome
    have hmem : v ∈ prevouts := List.mem_reverse.1 (List.mem_of_find?_eq_some hv)
    have hsame : v.outpoint = input.previous := by simpa using List.find?_some hv
    rw [hv, List.inj_on_of_nodup_map hnodup hmem hu (hsame.trans hinput)]
  rw [signerOf?, prevout?, hfound]
  simp [hkey]

end SigningKeys

/-! ### Transactions without witnesses -/

theorem SighashParts.ofTransaction_unsigned (tx : Transaction) :
    ofTransaction tx.unsigned = ofTransaction tx := by
  have hinputs : ∀ f : TxIn → Bytes, (∀ i, f i.unsigned = f i) →
      tx.unsigned.inputs.flatMap f = tx.inputs.flatMap f := by
    intro f hf
    rw [Transaction.unsigned, List.flatMap_map]
    exact congrArg (tx.inputs.flatMap ·) (funext hf)
  rw [ofTransaction, hinputs (fun i => i.previous.encode) fun _ => rfl,
    hinputs (fun i => Bytes.leBytes 4 i.sequence.toNat) fun _ => rfl]
  rfl

/-- Transactions are the same if they are without their witnesses, and have the same witnesses. -/
theorem Transaction.eq_of_unsigned {tx tx' : Transaction} (h : tx.unsigned = tx'.unsigned)
    (hwitness : ∀ i ∈ tx.inputs, ∀ i' ∈ tx'.inputs, i.unsigned = i'.unsigned →
      i.witness = i'.witness) : tx = tx' := by
  cases tx
  cases tx'
  simp only [Transaction.unsigned, Transaction.mk.injEq] at h
  obtain ⟨rfl, rfl, hmap, rfl⟩ := h
  have hinputs := map_eq_map_of_keys hmap fun i hi i' hi' hsame =>
    show id i = id i' from TxIn.eq_of_unsigned hsame (hwitness i hi i' hi' hsame)
  rw [List.map_id, List.map_id] at hinputs
  rw [hinputs]

end CoinLedger
