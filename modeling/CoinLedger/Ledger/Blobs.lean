import CoinLedger.Json.Value
import CoinLedger.Ledger.Basic

/-! # Blobs

Byte strings that are kept under a name, for one wallet or for all.  `putBlob` writes or removes
one, and `putValue` writes a document.  `blobBytes` reads one back, `decodedBlob` reads a value out
of it, and `blobsOf` lists those of one scope by their names. -/

namespace CoinLedger.Ledger

/-- Keeps a byte string under a name, or removes the one that is kept there. -/
def putBlob (walletId : Option String) (name : String) (value : Option Bytes) : Action Unit :=
  let key := Blob.composeKey walletId name
  match value with
  | some value => write [.putBlob ⟨key, walletId, value⟩]
  | none => write [.deleteBlob key]

/-- Keeps the text of a document under a name. -/
def putValue (walletId : Option String) (name : String) (value : Value) : Action Unit :=
  putBlob walletId name (some value.toJson.render)

/-- The byte string under a name. -/
def blobBytes (s : Store) (walletId : Option String) (name : String) :
    Except Error (Option Bytes) := do
  return (← getEntity Blob s (Blob.composeKey walletId name)).map (·.value)

/-- The value that is read out of the text under a name. -/
def decodedBlob {α : Type} (f : Json → Option α) (s : Store) (walletId : Option String)
    (name : String) : Except Error (Option α) := do
  match ← blobBytes s walletId name with
  | some bytes =>
      match (Json.parse? bytes).bind f with
      | some a => return some a
      | none => throw .json
  | none => return none

/-- The byte strings of one scope, in the order of the names; of two with one name the one with
the later key counts. -/
def blobsOf (s : Store) (walletId : Option String) : Except Error (List (String × Bytes)) := do
  let own := (← allBlobs s).filter fun b => b.walletId == walletId
  return (ByteMap.ofList (own.map fun b => (Bytes.utf8 b.name, (b.name, b.value)))).rows.map (·.2)

end CoinLedger.Ledger
