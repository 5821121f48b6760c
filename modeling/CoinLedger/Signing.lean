import CoinLedger.Curve.Ecdsa
import CoinLedger.Key.Derived
import CoinLedger.Transaction.Sighash

/-! # Signing

`SigningKeys` is a set of keys, each found by the script that it unlocks; that the keys stand
under their own scripts, one under each, is part of the type.

`SigningKeys.sign` signs the inputs that spend an output locked by one of the scripts, and leaves
all others as they are.  `SigningKeys.signAll` refuses a transaction of which it cannot sign every
input.  Outputs are looked up in a list of which the last entry for an outpoint counts. -/

namespace CoinLedger

open Key

/-- Keys by the scripts that they unlock. -/
structure SigningKeys where
  entries : List (Script × DerivedKey)
  indexed : ∀ e ∈ entries, e.1 = e.2.script
  distinct : entries.Pairwise fun a b => a.1 ≠ b.1

namespace SigningKeys

/-- No keys. -/
def empty : SigningKeys := ⟨[], by simp, .nil⟩

instance : Inhabited SigningKeys := ⟨empty⟩

/-- Adds a key, instead of a key for the same script. -/
def add (ks : SigningKeys) (key : DerivedKey) : SigningKeys :=
  let script := key.script
  { entries := (script, key) :: ks.entries.filter fun e => e.1 != script
    indexed := by
      intro e he
      rcases List.mem_cons.1 he with rfl | he
      · rfl
      · exact ks.indexed e (List.mem_filter.1 he).1
    distinct := by
      refine List.pairwise_cons.2 ⟨fun e he heq => ?_, ks.distinct.sublist List.filter_sublist⟩
      have hne := (List.mem_filter.1 he).2
      simp_all }

/-- The set of these keys. -/
def ofList (keys : List DerivedKey) : SigningKeys := keys.foldl add empty

/-- The key for a script. -/
def keyFor? (ks : SigningKeys) (script : Script) : Option DerivedKey :=
  (ks.entries.find? fun e => e.1 == script).map (·.2)

/-- Whether there is a key for a script. -/
def canSign (ks : SigningKeys) (script : Script) : Bool := (ks.keyFor? script).isSome

/-- How many keys there are. -/
def size (ks : SigningKeys) : Nat := ks.entries.length

/-- The output with this name; of several entries the last one counts. -/
def prevout? (prevouts : List Utxo) (outpoint : Outpoint) : Option TxOut :=
  (prevouts.reverse.find? fun u => u.outpoint == outpoint).map (·.txout)

/-- The key that an input is to be signed with and the output that it spends. -/
def signerOf? (ks : SigningKeys) (prevouts : List Utxo) (input : TxIn) :
    Option (DerivedKey × TxOut) :=
  match prevout? prevouts input.previous with
  | some prevout => (ks.keyFor? prevout.script).map fun key => (key, prevout)
  | none => none

/-- The two parts of the witness: a marked signature and the public key. -/
def witness (parts : SighashParts) (input : TxIn) (key : DerivedKey) (prevout : TxOut) :
    Except Error (List Bytes) :=
  match prevout.script.publicKeyHash? with
  | some hash =>
      let signature := Curve.Signature.make key.secret (parts.digest input hash prevout.value)
      .ok [signature.der ++ [sighashAll], key.publicKey]
  | none => .error (.signing (.sighash "script is not locked by a public key hash"))

/-- Signs an input if its key is known, and says whether it was. -/
def signInput (ks : SigningKeys) (prevouts : List Utxo) (parts : SighashParts) (input : TxIn) :
    Except Error (TxIn × Bool) :=
  match ks.signerOf? prevouts input with
  | some (key, prevout) =>
      (witness parts input key prevout).map fun w => ({ input with witness := w }, true)
  | none => .ok (input, false)

/-- Signs the inputs whose keys are known; the number says how many these are. -/
def sign (ks : SigningKeys) (tx : Transaction) (prevouts : List Utxo) :
    Except Error (Transaction × Nat) := do
  let signed ← tx.inputs.mapM (ks.signInput prevouts (.ofTransaction tx))
  return ({ tx with inputs := signed.map (·.1) }, (signed.filter (·.2)).length)

/-- Signs all inputs, or reports the first whose key is not known. -/
def signAll (ks : SigningKeys) (tx : Transaction) (prevouts : List Utxo) :
    Except Error Transaction :=
  match tx.inputs.findIdx? fun i => (ks.signerOf? prevouts i).isNone with
  | some index => .error (.signing (.missingPrevout index))
  | none => (ks.sign tx prevouts).map (·.1)

end SigningKeys

end CoinLedger
