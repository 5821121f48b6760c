import CoinLedger.Key.Derived
import CoinLedger.Proofs.Key.Template
import CoinLedger.Proofs.Results

/-! # What goes wrong with keys

A master key is made of a mnemonic, and the keys below it are found at paths.  `KeyFault` lists the
errors of both. -/

namespace CoinLedger.Key

/-- The errors about words, paths and depths. -/
inductive KeyFault : Error → Prop where
  | mnemonic (fault : MnemonicFault) : KeyFault (.mnemonic fault)
  | path (text : String) : KeyFault (.invalidDerivationPath text)
  | depth : KeyFault .keyDepthExceeded

variable {e : Error}

theorem keyFault_of_checkTemplate {template : String} (h : checkTemplate template = .error e) :
    KeyFault e :=
  eq_of_checkTemplate_eq_error h ▸ .path template

theorem keyFault_of_masterKey {mnemonic : String} {network : Network}
    (h : masterKey mnemonic network = .error e) : KeyFault e := by
  unfold masterKey at h
  split at h
  · cases h
  · exact Except.error.inj h ▸ .mnemonic _

theorem keyFault_of_parsePath {text : String} (h : parsePath text = .error e) : KeyFault e := by
  unfold parsePath at h
  split at h
  · cases h
  · exact Except.error.inj h ▸ .path text

theorem keyFault_of_child {k : ExtendedKey} {step : Step} (h : k.child step = .error e) :
    KeyFault e := by
  unfold ExtendedKey.child at h
  split at h
  · exact Except.error.inj h ▸ .depth
  · cases h

theorem keyFault_of_descend : ∀ {path : Path} {k : ExtendedKey}, k.descend path = .error e →
    KeyFault e
  | [], _, h => by cases h
  | step :: path, k, h => by
      rw [ExtendedKey.descend] at h
      split at h
      · exact keyFault_of_descend h
      · rename_i hstep
        exact keyFault_of_child (hstep.trans h)

theorem keyFault_of_derive {master : ExtendedKey} {path : String}
    (h : DerivedKey.derive master path = .error e) : KeyFault e := by
  rcases bind_error h with hparse | ⟨steps, -, h⟩
  · exact keyFault_of_parsePath hparse
  · rcases bind_error h with hdescend | ⟨key, -, h⟩
    · exact keyFault_of_descend hdescend
    · cases h

end CoinLedger.Key
