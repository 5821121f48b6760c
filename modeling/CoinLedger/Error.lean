/-! # Errors

`Error` lists the causes for which an operation of the library fails, and `Error.message` is what
people read about each of them. -/

namespace CoinLedger

/-- Why a text is no mnemonic. -/
inductive MnemonicFault where
  /-- The number of words is none of those allowed. -/
  | wordCount (count : Nat)
  /-- The word at this place, counted from zero, is not in the list. -/
  | unknownWord (place : Nat)
  /-- The last bits are not the checksum of the others. -/
  | checksum
deriving DecidableEq, Repr

/-- Why inputs could not be signed. -/
inductive SigningFault where
  /-- The output that this input spends is not known, or no key is known for it. -/
  | missingPrevout (index : Nat)
  /-- The digest to sign could not be computed. -/
  | sighash (reason : String)
deriving DecidableEq, Repr

/-- Why an operation failed. -/
inductive Error where
  | generic (text : String)
  /-- No wallet is stored under this id, or no wallet has this name. -/
  | walletNotFound (id : String)
  /-- A wallet with the same master key is stored already. -/
  | walletAlreadyExists (id : String)
  /-- The text is no derivation path, or no path template. -/
  | invalidDerivationPath (path : String)
  /-- The wallet's last index is the largest there is. -/
  | derivationIndexOverflow (id : String)
  | noRecipients
  /-- The output at this place is too small to be relayed. -/
  | outputBelowDustLimit (index : Nat)
  /-- The coins offered do not pay for the outputs and the fee. -/
  | insufficientFunds (needed available : UInt64)
  | signing (fault : SigningFault)
  /-- A key at depth 255 has no children. -/
  | keyDepthExceeded
  | mnemonic (fault : MnemonicFault)
  /-- A text is no JSON, or not of the shape that is asked for. -/
  | json
deriving DecidableEq, Repr

/-- What is said about a text that is no mnemonic. -/
def MnemonicFault.message : MnemonicFault → String
  | wordCount count =>
      "mnemonic has an invalid word count: " ++ toString count ++
        ". Word count must be 12, 15, 18, 21, or 24"
  | unknownWord place => "mnemonic contains an unknown word (word " ++ toString place ++ ")"
  | checksum => "the mnemonic has an invalid checksum"

/-- What is said about inputs that could not be signed. -/
def SigningFault.message : SigningFault → String
  | missingPrevout index => "Missing previous output for input #" ++ toString index
  | sighash reason => "Error while computing the sighash: " ++ reason

/-- What is said about a failure. -/
def Error.message : Error → String
  | generic text => "Generic error: " ++ text
  | walletNotFound id => "Wallet not found: " ++ id
  | walletAlreadyExists id => "Wallet already exists: " ++ id
  | invalidDerivationPath path => "Invalid derivation path: " ++ path
  | derivationIndexOverflow id => "Derivation index exhausted for wallet " ++ id
  | noRecipients => "Cannot build tx without recipients"
  | outputBelowDustLimit index => "Output #" ++ toString index ++ " is below the dust limit"
  | insufficientFunds needed available =>
      "Insufficient funds: " ++ toString available ++ " sat available of " ++ toString needed ++
        " sat needed"
  | signing fault => "Signer error: " ++ fault.message
  | keyDepthExceeded => "BIP32 error: cannot derive child of depth 256 or higher"
  | mnemonic fault => "BIP39 error: " ++ fault.message
  | json => "Serialize/Deserialize JSON error"

end CoinLedger
