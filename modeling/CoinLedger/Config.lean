import CoinLedger.Ledger.Basic

/-! # Configuration

A `Config` says for which network a ledger keeps its wallets and where its rows are kept.  It is
read from a document with `Config.ofJson?` and written with `Config.toJson`.  `Config.open?` opens a
ledger whose rows are kept in memory; those kept on disk are opened elsewhere. -/

namespace CoinLedger

/-- Where rows are kept. -/
inductive StoreConfig where
  | memory
  /-- A directory, and the name of a part of it. -/
  | disk (path tree : String)
deriving DecidableEq, Inhabited

/-- The configuration of a ledger. -/
structure Config where
  network : Network
  store : StoreConfig
deriving DecidableEq

open Json

namespace StoreConfig

/-- The document of a choice of store. -/
def toJson : StoreConfig → Json
  | memory => record [("Memory", null)]
  | disk path tree => record [("Sled", record [("path", ofText path), ("tree_name", ofText tree)])]

/-- Reads a choice of store. -/
def ofJson? (j : Json) : Option StoreConfig := do
  match ← taggedChoice? j with
  | ("Memory", null) => return memory
  | ("Sled", content) =>
      match ← fields? ["path", "tree_name"] content with
      | [path, tree] => return disk (← required text? path) (← required text? tree)
      | _ => none
  | _ => none

end StoreConfig

namespace Config

/-- The main network, and rows in memory. -/
def standard : Config := ⟨.bitcoin, .memory⟩

instance : Inhabited Config := ⟨standard⟩

/-- Reads the name of a network. -/
def network? (j : Json) : Option Network := (choice? j).bind Network.ofName?

/-- The document of a configuration. -/
def toJson (c : Config) : Json :=
  record [("network", ofText c.network.name), ("database", c.store.toJson)]

/-- Reads a configuration. -/
def ofJson? (j : Json) : Option Config := do
  match ← fields? ["network", "database"] j with
  | [network, store] => return ⟨← required network? network, ← required StoreConfig.ofJson? store⟩
  | _ => none

/-- Opens an empty ledger, if its rows are to be kept in memory. -/
def open? (c : Config) : Option Ledger :=
  match c.store with
  | .memory => some (.ofStore .empty c.network none)
  | .disk _ _ => none

end Config

end CoinLedger
