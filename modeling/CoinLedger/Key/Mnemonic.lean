import CoinLedger.Error
import CoinLedger.Hash.Hmac
import CoinLedger.Key.WordList

/-! # Mnemonics

A mnemonic is a list of words that stand for eleven bits each: random bits and, behind them, one
bit of their hash for every three words.  `Mnemonic.parse` reads a text and reports what is wrong
with it, and `Mnemonic.seed` stretches the words to the 64 bytes that a master key is made of. -/

namespace CoinLedger.Key

/-- The words of a mnemonic, as numbers in the word list. -/
structure Mnemonic where
  numbers : List Nat

namespace Mnemonic

/-- How many words there can be. -/
def wordCounts : List Nat := [12, 15, 18, 21, 24]

/-- The numbers of words, or the place of the first one that is not in the list. -/
def numbersFrom (place : Nat) : List String → Except MnemonicFault (List Nat)
  | [] => .ok []
  | word :: rest =>
      match wordNumber? word with
      | some n => (numbersFrom (place + 1) rest).map (n :: ·)
      | none => .error (.unknownWord place)

/-- Whether the last bits are the first bits of the hash of the others. -/
def checksumHolds (numbers : List Nat) : Bool :=
  let count := numbers.length
  let checkBits := count / 3
  let bits := numbers.foldl (fun acc n => acc * 2048 + n) 0
  let entropy := Bytes.beBytes ((11 * count - checkBits) / 8) (bits >>> checkBits)
  let hashed := (Hash.Sha256.hash entropy).headD 0
  bits % (1 <<< checkBits) == hashed.toNat >>> (8 - checkBits)

/-- Reads a mnemonic.  Letters may be disguised, and any white space separates words. -/
def parse (s : String) : Except MnemonicFault Mnemonic :=
  let words := Text.words (Text.Compatibility.decompose s.toList)
  if words.length ∈ wordCounts then
    match numbersFrom 0 (words.map String.ofList) with
    | .ok numbers => if checksumHolds numbers then .ok ⟨numbers⟩ else .error .checksum
    | .error fault => .error fault
  else .error (.wordCount words.length)

/-- The words with one space between them. -/
def text (m : Mnemonic) : String :=
  " ".intercalate (m.numbers.map fun n => wordList.getD n "")

/-- The seed of a mnemonic that no passphrase protects. -/
def seed (m : Mnemonic) : Bytes :=
  Hash.pbkdf2 Hash.sha512 (Bytes.utf8 m.text) (Bytes.utf8 "mnemonic") 2048

end Mnemonic

end CoinLedger.Key
