import CoinLedger.Ledger.Basic

/-! # Wallets and their scripts

`createWallet` makes a wallet of a mnemonic and a path template, under the id of its master key;
the same mnemonic cannot be used twice.  `deriveScript` makes the next script of a wallet: the
index, the script and its path are written together, and the service that watches the chain is
asked to track the script afterwards.  `nextScript` is what `deriveScript` computes from the wallet
alone, and `deriveAll` derives one script for each of several wallets. -/

namespace CoinLedger.Ledger

/-- Makes a wallet and returns its id. -/
def createWallet (mnemonic name template : String) (creationBlock : BlockHash)
    (aliases : List String) : Action String := do
  check (Key.checkTemplate template)
  let master ← check (Key.masterKey mnemonic (← get).network)
  let id := Key.walletId master
  write [.insertWallet ⟨id, name, mnemonic, template, 0, creationBlock, aliases⟩]
  remember id master
  return id

/-- Adds other names of a wallet. -/
def addAliases (walletId : String) (aliases : List String) : Action Unit :=
  write [.addAliases walletId aliases]

/-- Makes a script that was made elsewhere a script of a wallet. -/
def trackScript (walletId : String) (script : Script) : Action Unit := do
  let _ ← read fun s => requireWallet s walletId
  write [.insertScript ⟨script⟩, .insertWalletScript ⟨walletId, script, none⟩]
  trackOnChain walletId script

/-! ### Deriving scripts -/

/-- The next script of a wallet. -/
structure NextScript where
  index : UInt32
  path : String
  script : Script

/-- The index behind the last one, unless that is the largest there is. -/
def nextIndex (walletId : String) (last : UInt32) : Except Error UInt32 :=
  if last.toNat + 1 < UInt32.size then .ok (last + 1) else .error (.derivationIndexOverflow walletId)

/-- What writes the next script of a wallet. -/
def NextScript.batch (n : NextScript) (walletId : String) : Batch :=
  [.raiseIndex walletId n.index, .insertScript ⟨n.script⟩,
    .insertWalletScript ⟨walletId, n.script, some n.path⟩]

/-- Computes the next script of a wallet. -/
def nextScript (walletId : String) : Action NextScript := do
  let wallet ← read fun s => requireWallet s walletId
  let index ← check (nextIndex walletId wallet.lastIndex)
  let path := wallet.pathFor (toString index.toNat)
  let master ← masterKeyOf wallet
  let key ← check (Key.DerivedKey.derive master path)
  return ⟨index, path, key.script⟩

/-- Makes the next script of a wallet. -/
def deriveScript (walletId : String) : Action Script := do
  let next ← nextScript walletId
  write (next.batch walletId)
  trackOnChain walletId next.script
  return next.script

/-- The result of an action that fails alone: what follows it goes on. -/
def attempt {α : Type} (a : Action α) : Action (Except Error α) :=
  ExceptT.mk do return .ok (← a.run)

/-- Makes one script for each of these wallets, also after one of them failed, and returns them in
the order of their bytes, or the first error. -/
def deriveAll (walletIds : List String) : Action (List Script) := do
  let results ← walletIds.mapM fun id => attempt (deriveScript id)
  let scripts ← check (results.mapM id)
  return scripts.mergeSort fun a b => a.bytes ≤ b.bytes

/-! ### Coins of a wallet -/

/-- The coins that are locked by a script of the wallet and not spent. -/
def unspentCoins (s : Store) (walletId : String) : Except Error (List Coin) := do
  let scripts := (← walletScripts s walletId).map (·.script)
  return (← allCoins s).filter fun c => !c.isSpent && scripts.contains c.script

end CoinLedger.Ledger
