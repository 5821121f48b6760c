import CoinLedger.Funding.Builder
import CoinLedger.Ledger.Wallets

/-! # Spending

`spendableGroups` lists the coins that a wallet has the keys for, grouped by the paths of the
keys.

`buildTransaction` makes a transaction that pays some outputs, and always derives a script for the
change first.  Without explicit inputs any of the wallet's coins may be spent.  They are offered in no
particular order, and this order is a parameter (`CoinOrder`): of coins of one value it may decide
which are spent.  With explicit inputs these are spent, and coins of the wallet are added to them one
at a time until they are enough, or until there are no more, which is reported by `none`.

`signTransaction` signs the inputs that spend coins of the wallet. -/

namespace CoinLedger.Ledger

open Key

/-- Coins whose key stands at one path. -/
structure CoinGroup where
  path : String
  coins : List Coin
deriving DecidableEq

/-- The path of a script among the scripts of a wallet; of several the last one counts. -/
def pathOf? (scripts : List WalletScript) (script : Script) : Option String :=
  (scripts.reverse.find? fun w => w.script == script && w.derivationPath.isSome).bind
    (·.derivationPath)

/-- Texts in the order of their bytes, each once. -/
def sortedTexts (texts : List String) : List String :=
  (ByteMap.ofList (texts.map fun t => (Bytes.utf8 t, t))).rows.map (·.2)

/-- The unspent coins of a wallet whose keys are known, in the order of their paths. -/
def spendableGroups (s : Store) (walletId : String) : Except Error (List CoinGroup) := do
  let scripts ← walletScripts s walletId
  let unspent := (← allCoins s).filter fun c => !c.isSpent
  let owned := unspent.filterMap fun c => (pathOf? scripts c.script).map fun path => (path, c)
  return (sortedTexts (owned.map (·.1))).map fun path =>
    ⟨path, (owned.filter fun p => p.1 == path).map (·.2)⟩

/-- The coins of all groups. -/
def groupCoins (groups : List CoinGroup) : List Coin := groups.flatMap (·.coins)

/-- The keys of groups, added to others. -/
def addGroupKeys (master : ExtendedKey) (keys : SigningKeys) (groups : List CoinGroup) :
    Except Error SigningKeys :=
  groups.foldlM (fun keys g => (DerivedKey.derive master g.path).map keys.add) keys

/-! ### Building -/

/-- What a transaction is to do for a wallet. -/
structure Payout where
  outputs : List TxOut
  changeScript : Script
  feeRate : FeeRate

/-- The builder for a payout. -/
def Payout.builder (p : Payout) (keys : SigningKeys) : TxBuilder :=
  { recipients := p.outputs, changeScript := some p.changeScript, feeRate := p.feeRate,
    signingKeys := keys }

/-- Coins without those that a later coin has the outpoint of. -/
def lastByOutpoint : List Coin → List Coin
  | [] => []
  | c :: cs =>
      if cs.any fun d => d.outpoint == c.outpoint then lastByOutpoint cs
      else c :: lastByOutpoint cs

/-- How coins come to stand that nothing puts in order: the coins of a wallet when they are offered,
and those of one value when they are sorted. -/
structure CoinOrder where
  arrange : List Coin → List Coin
  arrange_perm (coins : List Coin) : (arrange coins).Perm coins
  sort : FallingSort

namespace CoinOrder

/-- The coins stand as they are listed. -/
def listed : CoinOrder := ⟨id, fun _ => .refl _, .byValue⟩

@[simp] theorem arrange_singleton (order : CoinOrder) (c : Coin) : order.arrange [c] = [c] :=
  List.perm_singleton.1 (order.arrange_perm [c])

end CoinOrder

/-- The builder that offers coins to pay from, with no keys. -/
def Payout.offer (p : Payout) (order : CoinOrder) (coins : List Coin) : TxBuilder :=
  { p.builder .empty with
    maySpend := (order.arrange coins).map fun c => .ofKeyHash c.utxo
    selector := largestFirstBy order.sort }

/-- Pays from any of the wallet's coins. -/
def payFromAll (order : CoinOrder) (master : ExtendedKey) (groups : List CoinGroup) (p : Payout) :
    Except Error BuiltTransaction := do
  let keys ← addGroupKeys master .empty groups
  let offer := p.offer order (lastByOutpoint (groupCoins groups))
  TxBuilder.finish { offer with signingKeys := keys }

/-- The state of the search for enough coins: what must be spent, the keys known so far, and the
paths that they stand at. -/
structure Required where
  coins : List WeightedUtxo
  keys : SigningKeys
  paths : List String

/-- Requires one more coin of the wallet. -/
def Required.add (master : ExtendedKey) (r : Required) (path : String) (coin : Coin) :
    Except Error Required := do
  let coins := r.coins ++ [WeightedUtxo.ofKeyHash coin.utxo]
  if r.paths.contains path then return { r with coins := coins }
  else return ⟨coins, r.keys.add (← DerivedKey.derive master path), path :: r.paths⟩

/-- Pays from what is required, or finds that it is not enough. -/
def Payout.payFrom (p : Payout) (r : Required) : Except Error (Option BuiltTransaction) :=
  match TxBuilder.finish { p.builder r.keys with mustSpend := r.coins } with
  | .ok built => .ok (some built)
  | .error (.insufficientFunds _ _) => .ok none
  | .error e => .error e

/-- Pays from what is required, and requires one coin of the pool after the other as long as that
is not enough. -/
def payFromPool (master : ExtendedKey) (p : Payout) (r : Required) :
    List (String × Coin) → Except Error (Option BuiltTransaction)
  | [] => p.payFrom r
  | (path, coin) :: rest => do
      match ← p.payFrom r with
      | some built => return some built
      | none => payFromPool master p (← r.add master path coin) rest

/-- The coins of the wallet that are not among the explicit inputs, with their paths. -/
def poolOf (groups : List CoinGroup) (explicit : List Utxo) : List (String × Coin) :=
  (groups.flatMap fun g => g.coins.map fun c => (g.path, c)).filter fun p =>
    !explicit.any fun u => u.outpoint == p.2.outpoint

/-- Pays from explicit inputs and as many coins of the wallet as are needed. -/
def payFromExplicit (master : ExtendedKey) (groups : List CoinGroup) (explicit : List Utxo)
    (p : Payout) : Except Error (Option BuiltTransaction) := do
  let spent := groups.filter fun g => g.coins.any fun c =>
    explicit.any fun u => u.outpoint == c.outpoint
  let keys ← addGroupKeys master .empty spent
  payFromPool master p ⟨explicit.map .ofKeyHash, keys, spent.map (·.path)⟩ (poolOf groups explicit)

/-- The coin that an output to spend is, as far as anything is known about it. -/
def coinOfUtxo (u : Utxo) : Coin := ⟨u.outpoint, u.txout.script, u.txout.value, none⟩

/-- The coins with these outpoints: the wallet's own, or else what was said about an explicit
input where it was named first. -/
def spentCoins (groups : List CoinGroup) (explicit : List Utxo) (spent : List Utxo) : List Coin :=
  spent.filterMap fun u =>
    match (groupCoins groups).reverse.find? fun c => c.outpoint == u.outpoint with
    | some c => some c
    | none => (explicit.find? fun e => e.outpoint == u.outpoint).map coinOfUtxo

/-- A transaction that was made for a wallet. -/
structure CreatedTransaction where
  transaction : Transaction
  /-- The coins that it spends. -/
  spentCoins : List Coin
  /-- The script for the change, whether there is change or not. -/
  changeScript : Script
  fee : UInt64

/-- Makes a transaction that pays these outputs. -/
def buildTransaction (walletId : String) (outputs : List TxOut) (feeRate : FeeRate)
    (explicit : List Utxo) (order : CoinOrder := .listed) : Action (Option CreatedTransaction) := do
  let wallet ← read fun s => requireWallet s walletId
  if outputs.isEmpty && explicit.isEmpty then throw .noRecipients
  let changeScript ← deriveScript walletId
  let groups ← read fun s => spendableGroups s walletId
  let master ← masterKeyOf wallet
  let payout : Payout := ⟨outputs, changeScript, feeRate⟩
  let built ← check <|
    if explicit.isEmpty then (payFromAll order master groups payout).map some
    else payFromExplicit master groups explicit payout
  return built.map fun b =>
    ⟨b.transaction, spentCoins groups explicit b.spent, changeScript, b.fee⟩

/-! ### Signing -/

/-- The groups with the coins that a transaction spends, those without any left out. -/
def groupsSpentBy (groups : List CoinGroup) (tx : Transaction) : List CoinGroup :=
  (groups.map fun g =>
    { g with coins := g.coins.filter fun c => tx.inputs.any fun i => i.previous == c.outpoint
      }).filter fun g => !g.coins.isEmpty

/-- Signs the inputs that spend unspent coins of a wallet. -/
def signTransaction (walletId : String) (tx : Transaction) : Action Transaction := do
  let wallet ← read fun s => requireWallet s walletId
  let master ← masterKeyOf wallet
  let groups := groupsSpentBy (← read fun s => spendableGroups s walletId) tx
  let keys ← check (addGroupKeys master .empty groups)
  return (← check (keys.sign tx ((groupCoins groups).map (·.utxo)))).1

end CoinLedger.Ledger
