import CoinLedger.Proofs.Signing.KeySets

/-! # Signing in place

Signing a transaction in place is signing it: the witnesses that are collected stand at the places of
the inputs that can be signed, and to put them in there is to sign each input by itself
(`exists_collectWitnesses`).  So `runOn_signInPlace` and `runOn_signAllInPlace` say of the actions what
`SigningKeys.sign` and `SigningKeys.signAll` return, and in addition that an action which fails leaves
the transaction as it was. -/

namespace CoinLedger.SigningKeys

open Key

variable {ks ks' : SigningKeys} {prevouts : List Utxo} {tx : Transaction}

/-! ### Actions on a transaction -/

theorem runOn_bind {α β : Type} (a : SigningAction α) (f : α → SigningAction β) (tx : Transaction) :
    runOn (a >>= f) tx =
      match runOn a tx with
      | (.ok x, tx') => runOn (f x) tx'
      | (.error e, tx') => (.error e, tx') := by
  show StateT.run (a >>= f).run tx = _
  rw [ExceptT.run_bind]
  simp only [StateT.run_bind, runOn]
  rcases StateT.run a.run tx with ⟨_ | _, _⟩ <;> rfl

theorem runOn_putWitnesses (ws : List (Nat × List Bytes)) (tx : Transaction) :
    runOn (ws.forM fun w => modify fun tx => { tx with inputs := putWitness tx.inputs w }) tx =
      (.ok (), { tx with inputs := ws.foldl putWitness tx.inputs }) := by
  induction ws generalizing tx with
  | nil => rfl
  | cons w ws ih => exact ih { tx with inputs := putWitness tx.inputs w }

/-! ### Collecting witnesses -/

theorem putWitness_append (before : List TxIn) (input : TxIn) (inputs : List TxIn) (w : List Bytes) :
    putWitness (before ++ input :: inputs) (before.length, w) =
      before ++ { input with witness := w } :: inputs := by
  induction before with
  | nil => rfl
  | cons i before ih => exact congrArg (i :: ·) ih

theorem collectWitnesses_cons (parts : SighashParts) (place : Nat) (input : TxIn)
    (inputs : List TxIn) :
    ks.collectWitnesses prevouts parts place (input :: inputs) =
      (ks.collectWitnesses prevouts parts (place + 1) inputs).map fun ws =>
        (ks.newWitness? prevouts parts input).toList.map (place, ·) ++ ws := by
  rw [collectWitnesses]
  cases hprevout : prevout? prevouts input.previous with
  | none =>
      have hunknown : ks.isSignable prevouts input = false := by rw [isSignable, hprevout]
      rw [newWitness?_eq_none hunknown]
      cases ks.collectWitnesses prevouts parts (place + 1) inputs <;> rfl
  | some prevout =>
      cases hkey : ks.keyFor? prevout.script with
      | none =>
          have hunknown : ks.isSignable prevouts input = false := by
            simp only [isSignable, hprevout, canSign, hkey, Option.isSome_none]
          simp only [hkey, newWitness?_eq_none hunknown]
          cases ks.collectWitnesses prevouts parts (place + 1) inputs <;> rfl
      | some key =>
          simp only [hkey, witness_eq (script_of_keyFor? hkey), ok_bind,
            newWitness?_eq_some hprevout hkey]
          cases ks.collectWitnesses prevouts parts (place + 1) inputs <;> rfl

/-- The witnesses of the inputs that stand behind others are as many as can be made, and to put them
in is to sign each of the inputs by itself. -/
theorem exists_collectWitnesses (ks : SigningKeys) (prevouts : List Utxo) (parts : SighashParts)
    (inputs : List TxIn) :
    ∀ before : List TxIn, ∃ ws,
      ks.collectWitnesses prevouts parts before.length inputs = .ok ws ∧
        ws.length = inputs.countP (ks.isSignable prevouts) ∧
        ws.foldl putWitness (before ++ inputs) = before ++ inputs.map fun i =>
          { i with witness := (ks.newWitness? prevouts parts i).getD i.witness } := by
  induction inputs with
  | nil => exact fun before => ⟨[], rfl, rfl, rfl⟩
  | cons input inputs ih =>
      intro before
      obtain ⟨ws, hws, hcount, hput⟩ := ih (before ++ [
        { input with witness := (ks.newWitness? prevouts parts input).getD input.witness }])
      rw [List.length_append, List.length_singleton] at hws
      refine ⟨_, by rw [collectWitnesses_cons, hws]; rfl, ?_, ?_⟩
      · rw [List.length_append, hcount, List.countP_cons, ← isSome_newWitness? parts]
        cases ks.newWitness? prevouts parts input <;> simp [Nat.add_comm]
      · rw [List.foldl_append]
        rw [List.append_assoc, List.singleton_append] at hput
        cases hwitness : ks.newWitness? prevouts parts input with
        | none =>
            rw [hwitness] at hput
            rw [List.map_cons, hwitness]
            simpa using hput
        | some w =>
            rw [hwitness] at hput
            rw [List.map_cons, hwitness]
            simpa [putWitness_append] using hput

/-! ### The runs -/

/-- To sign in place is to sign. -/
theorem runOn_signInPlace (ks : SigningKeys) (prevouts : List Utxo) (tx : Transaction) :
    runOn (ks.signInPlace prevouts) tx =
      (.ok (tx.inputs.countP (ks.isSignable prevouts)), ks.signed tx prevouts) := by
  obtain ⟨ws, hws, hcount, hput⟩ :=
    exists_collectWitnesses ks prevouts (.ofTransaction tx) tx.inputs []
  have hget : runOn (get : SigningAction Transaction) tx = (.ok tx, tx) := rfl
  rw [signInPlace, runOn_bind, hget]
  simp only [List.length_nil] at hws
  simp only [hws, runOn_bind, runOn_putWitnesses]
  rw [List.nil_append, List.nil_append, ← inputs_signed] at hput
  rw [hput, hcount]
  rfl

theorem isNone_signerOf? (ks : SigningKeys) (prevouts : List Utxo) (input : TxIn) :
    (ks.signerOf? prevouts input).isNone = !ks.isSignable prevouts input := by
  rw [signerOf?, isSignable]
  cases prevout? prevouts input.previous with
  | none => rfl
  | some prevout => simp [canSign]

/-- All inputs are signed if there is none that cannot be. -/
theorem signAll_eq (ks : SigningKeys) (tx : Transaction) (prevouts : List Utxo) :
    ks.signAll tx prevouts =
      match tx.inputs.findIdx? fun i => !ks.isSignable prevouts i with
      | some place => .error (.signing (.missingPrevout place))
      | none => .ok (ks.signed tx prevouts) := by
  simp only [signAll, isNone_signerOf?, sign_eq_signed]
  rfl

/-- To sign all inputs in place is to sign them, or to leave the transaction as it is. -/
theorem runOn_signAllInPlace (ks : SigningKeys) (prevouts : List Utxo) (tx : Transaction) :
    runOn (ks.signAllInPlace prevouts) tx =
      match ks.signAll tx prevouts with
      | .ok signed => (.ok (), signed)
      | .error e => (.error e, tx) := by
  have hget : runOn (get : SigningAction Transaction) tx = (.ok tx, tx) := rfl
  rw [signAllInPlace, runOn_bind, hget, signAll_eq]
  cases hfirst : tx.inputs.findIdx? fun i => !ks.isSignable prevouts i with
  | some place =>
      simp only [hfirst]
      rfl
  | none =>
      simp only [hfirst, runOn_bind, runOn_signInPlace]
      rfl

/-- Signing all inputs succeeds just if all can be signed. -/
theorem signAll_eq_ok_iff {all : Transaction} :
    ks.signAll tx prevouts = .ok all ↔
      (∀ input ∈ tx.inputs, ks.isSignable prevouts input = true) ∧ all = ks.signed tx prevouts := by
  have hnone : tx.inputs.findIdx? (fun i => !ks.isSignable prevouts i) = none ↔
      ∀ input ∈ tx.inputs, ks.isSignable prevouts input = true := by
    simp [List.findIdx?_eq_none_iff]
  rw [signAll_eq, ← hnone]
  cases tx.inputs.findIdx? fun i => !ks.isSignable prevouts i with
  | some place => simp
  | none => simp [eq_comm]

theorem findIdx?_unsignable {before after : List TxIn} {input : TxIn}
    (hbefore : ∀ i ∈ before, ks.isSignable prevouts i = true)
    (h : ks.isSignable prevouts input = false) :
    (before ++ input :: after).findIdx? (fun i => !ks.isSignable prevouts i) =
      some before.length := by
  have hnone : before.findIdx? (fun i => !ks.isSignable prevouts i) = none :=
    List.findIdx?_eq_none_iff.2 fun i hi => by rw [hbefore i hi]; rfl
  rw [List.findIdx?_append, hnone, List.findIdx?_cons, h]
  simp

/-! ### The result -/

/-- The second transaction is the first one with the witnesses of these keys in the inputs that can be
signed, and nothing else changed. -/
structure SignsExactly (ks : SigningKeys) (prevouts : List Utxo) (tx signed : Transaction) :
    Prop where
  /-- An input whose output is known, with a key for its script, has the witness of this key. -/
  signable : ∀ {place : Nat} {input : TxIn} {prevout : TxOut} {key : DerivedKey},
    tx.inputs[place]? = some input → prevout? prevouts input.previous = some prevout →
      ks.keyFor? prevout.script = some key →
        signed.inputs[place]? = some { input with
          witness := keyWitness (.ofTransaction tx) input key prevout.value }
  /-- All other inputs are as they were. -/
  others : ∀ {place : Nat} {input : TxIn}, tx.inputs[place]? = some input →
    ks.isSignable prevouts input = false → signed.inputs[place]? = some input
  unsigned : signed.unsigned = tx.unsigned
  txid : signed.txid = tx.txid

theorem getElem?_inputs_signed (ks : SigningKeys) (prevouts : List Utxo) {place : Nat}
    {input : TxIn} (h : tx.inputs[place]? = some input) :
    (ks.signed tx prevouts).inputs[place]? = some { input with
      witness := (ks.newWitness? prevouts (.ofTransaction tx) input).getD input.witness } := by
  rw [inputs_signed, List.getElem?_map, h, Option.map_some]

theorem signsExactly_signed (ks : SigningKeys) (prevouts : List Utxo) (tx : Transaction) :
    SignsExactly ks prevouts tx (ks.signed tx prevouts) where
  signable hinput hprevout hkey := by
    rw [getElem?_inputs_signed ks prevouts hinput, newWitness?_eq_some hprevout hkey,
      Option.getD_some]
  others hinput hother := by
    rw [getElem?_inputs_signed ks prevouts hinput, newWitness?_eq_none hother, Option.getD_none]
  unsigned := unsigned_signed ks tx prevouts
  txid := txid_eq_of_unsigned (unsigned_signed ks tx prevouts)

/-- An input that can be signed is the same after signing, whatever witness it had. -/
theorem getElem?_signed_of_unsigned {tx' : Transaction} (h : tx'.unsigned = tx.unsigned)
    {place : Nat} {input : TxIn} (hinput : tx.inputs[place]? = some input)
    (hsignable : ks.isSignable prevouts input = true) :
    (ks.signed tx' prevouts).inputs[place]? = (ks.signed tx prevouts).inputs[place]? := by
  obtain ⟨input', hinput', hsame⟩ := exists_input_of_unsigned h hinput
  have hwitness : ks.newWitness? prevouts (.ofTransaction tx) input' =
      ks.newWitness? prevouts (.ofTransaction tx) input := by
    rw [← newWitness?_unsigned, hsame, newWitness?_unsigned]
  obtain ⟨w, hw⟩ : ∃ w, ks.newWitness? prevouts (.ofTransaction tx) input = some w := by
    rw [← Option.isSome_iff_exists, isSome_newWitness?, hsignable]
  rw [getElem?_inputs_signed ks prevouts hinput, getElem?_inputs_signed ks prevouts hinput',
    ofTransaction_eq_of_unsigned h, hwitness, hw]
  exact congrArg some (TxIn.eq_of_unsigned hsame rfl)

/-- **Signing touches exactly the inputs that it can sign.**  Signing always succeeds and tells how
many inputs spend an output that is known, with a key for its script; these inputs have the witnesses
of their keys then, and nothing else changes.  The witnesses that were there before make no
difference, so that signing twice is signing once.  With two sets of keys that have no script in
common, to sign with one and then with the other, in either order, is to sign with both at once.

To sign all inputs succeeds just if all can be signed, and has the same result then.  Otherwise the
first input that cannot be signed is reported, and a transaction that is signed in place stays as it
is. -/
theorem sign_exactly (ks : SigningKeys) (prevouts : List Utxo) (tx : Transaction) :
    let count (ks : SigningKeys) := tx.inputs.countP (ks.isSignable prevouts)
    ∃ signed : Transaction, ks.sign tx prevouts = .ok (signed, count ks) ∧
      runOn (ks.signInPlace prevouts) tx = (.ok (count ks), signed) ∧
      SignsExactly ks prevouts tx signed ∧
      (∀ tx' : Transaction, tx'.unsigned = tx.unsigned →
        ∃ signed' : Transaction, ks.sign tx' prevouts = .ok (signed', count ks) ∧
          ∀ (place : Nat) (input : TxIn), tx.inputs[place]? = some input →
            ks.isSignable prevouts input = true →
              signed'.inputs[place]? = signed.inputs[place]?) ∧
      ks.sign signed prevouts = .ok (signed, count ks) ∧
      (∀ ks', Apart ks ks' → ∃ signed' both,
        ks'.sign tx prevouts = .ok (signed', count ks') ∧
        ks'.sign signed prevouts = .ok (both, count ks') ∧
        ks.sign signed' prevouts = .ok (both, count ks) ∧
        (ks.union ks').sign tx prevouts = .ok (both, count ks + count ks')) ∧
      ((∃ all, ks.signAll tx prevouts = .ok all) ↔
        ∀ input ∈ tx.inputs, ks.isSignable prevouts input = true) ∧
      (∀ all, ks.signAll tx prevouts = .ok all →
        all = signed ∧ runOn (ks.signAllInPlace prevouts) tx = (.ok (), signed)) ∧
      ∀ before input after, tx.inputs = before ++ input :: after →
        (∀ i ∈ before, ks.isSignable prevouts i = true) → ks.isSignable prevouts input = false →
          ks.signAll tx prevouts = .error (.signing (.missingPrevout before.length)) ∧
          runOn (ks.signAllInPlace prevouts) tx =
            (.error (.signing (.missingPrevout before.length)), tx) := by
  intro count
  refine ⟨ks.signed tx prevouts, sign_eq_signed ks tx prevouts, runOn_signInPlace ks prevouts tx,
    signsExactly_signed ks prevouts tx, ?_, ?_, ?_, ?_, ?_, ?_⟩
  · intro tx' hunsigned
    exact ⟨ks.signed tx' prevouts, sign_of_unsigned hunsigned ks prevouts,
      fun place input hinput hsignable => getElem?_signed_of_unsigned hunsigned hinput hsignable⟩
  · rw [sign_of_unsigned (unsigned_signed ks tx prevouts), signed_signed_self]
  · intro ks' hapart
    refine ⟨ks'.signed tx prevouts, ks'.signed (ks.signed tx prevouts) prevouts,
      sign_eq_signed ks' tx prevouts, sign_of_unsigned (unsigned_signed ks tx prevouts) ks' prevouts,
      ?_, ?_⟩
    · rw [sign_of_unsigned (unsigned_signed ks' tx prevouts), signed_comm hapart]
    · rw [sign_eq_signed, signed_union, countP_union hapart]
  · simp only [signAll_eq_ok_iff]
    exact ⟨fun ⟨_, hall, _⟩ => hall, fun hall => ⟨_, hall, rfl⟩⟩
  · intro all hall
    obtain rfl := (signAll_eq_ok_iff.1 hall).2
    rw [runOn_signAllInPlace, hall]
    exact ⟨rfl, rfl⟩
  · intro before input after hinputs hbefore hinput
    have hall : ks.signAll tx prevouts = .error (.signing (.missingPrevout before.length)) := by
      rw [signAll_eq, hinputs, findIdx?_unsignable hbefore hinput]
    rw [runOn_signAllInPlace, hall]
    exact ⟨rfl, rfl⟩

/-! ### Two keys -/

/-- A key with this public key. -/
def keyOf (b : UInt8) : DerivedKey := ⟨[], .regtest, 1, [b]⟩

/-- The set of this key. -/
def onlyKey (b : UInt8) : SigningKeys := empty.add (keyOf b)

theorem canSign_onlyKey (b : UInt8) (script : Script) :
    (onlyKey b).canSign script = decide ((keyOf b).script = script) := by
  rw [canSign, onlyKey, keyFor?_add]
  by_cases hscript : (keyOf b).script = script
  · simp [hscript]
  · rw [if_neg hscript, decide_eq_false hscript]
    rfl

theorem apart_onlyKey : Apart (onlyKey 2) (onlyKey 3) := by
  intro script hscript
  rw [canSign_onlyKey, decide_eq_true_eq] at hscript
  rw [canSign_onlyKey, decide_eq_false_iff_not, ← hscript]
  decide +kernel

/-- Outputs for both keys. -/
def twoPrevouts : List Utxo :=
  [⟨⟨.zero, 0⟩, ⟨1000, (keyOf 2).script⟩⟩, ⟨⟨.zero, 1⟩, ⟨2000, (keyOf 3).script⟩⟩]

/-- A transaction that spends the output of one key twice, the one of the other key, and an output
that is not known. -/
def mixedTransaction : Transaction where
  version := 2
  lockTime := 0
  inputs := [0, 1, 0, 7].map fun place => ⟨⟨.zero, place⟩, 0, .empty, [[9]]⟩
  outputs := [⟨900, .empty⟩]

/-- Each key signs its own inputs, both together sign three, and the transaction cannot be signed as a
whole. -/
theorem sign_exactly_mixedTransaction :
    ∃ both one other,
      (onlyKey 2).sign mixedTransaction twoPrevouts = .ok (one, 2) ∧
      (onlyKey 3).sign one twoPrevouts = .ok (both, 1) ∧
      (onlyKey 3).sign mixedTransaction twoPrevouts = .ok (other, 1) ∧
      (onlyKey 2).sign other twoPrevouts = .ok (both, 2) ∧
      ((onlyKey 2).union (onlyKey 3)).sign mixedTransaction twoPrevouts = .ok (both, 3) ∧
      one.inputs[1]? = mixedTransaction.inputs[1]? ∧
      runOn ((onlyKey 2).signAllInPlace twoPrevouts) mixedTransaction =
        (.error (.signing (.missingPrevout 1)), mixedTransaction) := by
  obtain ⟨one, hone, -, hexactly, -, -, hpairs, -, -, hmissing⟩ :=
    sign_exactly (onlyKey 2) twoPrevouts mixedTransaction
  obtain ⟨other, both, hother, hthen, hthen', hunion⟩ := hpairs (onlyKey 3) apart_onlyKey
  have htwo : mixedTransaction.inputs.countP ((onlyKey 2).isSignable twoPrevouts) = 2 := by
    decide +kernel
  have hthree : mixedTransaction.inputs.countP ((onlyKey 3).isSignable twoPrevouts) = 1 := by
    decide +kernel
  simp only [htwo, hthree] at hone hother hthen hthen' hunion
  refine ⟨both, one, other, hone, hthen, hother, hthen', hunion, ?_, ?_⟩
  · exact hexactly.others rfl (by decide +kernel)
  · exact (hmissing [_] _ _ rfl (by decide +kernel) (by decide +kernel)).2

end CoinLedger.SigningKeys
