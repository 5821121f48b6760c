import CoinLedger.Proofs.Entity.Layout
import CoinLedger.Proofs.Ledger.SpendableGroups
import CoinLedger.Proofs.Ledger.UtxoSet
import CoinLedger.Proofs.Store.Scans

/-! # Groups and unspent coins

The groups of a wallet and its unspent coins are read in two ways: the groups join the scripts that
are listed for the wallet to the coins, and sort what is found by paths; the unspent coins are only
filtered.  `PartitionedBy` says that the groups are nevertheless nothing but the unspent coins, taken
apart by a path that each of them has or does not have.

The path is the one that is stored for the wallet and the script of the coin (`storedPath?`).  If the
names of the wallets are plain, it is the one that is found among the listed scripts
(`pathOf?_listedScripts`).  The result is `spendableGroups_partition`. -/

namespace CoinLedger

open Ledger

/-! ### Paths -/

/-- The path that is stored for a wallet and a script. -/
def storedPath? (s : Store) (walletId : String) (script : Script) : Option String :=
  (record? WalletScript s ⟨walletId, script⟩).bind (·.derivationPath)

section

variable {s : Store} {walletId : String}

/-- The scripts that are listed for a wallet are those that are stored for it. -/
theorem mem_listedScripts_iff (hs : Sound WalletScript s)
    (hplain : ∀ w : WalletScript, HasRow s w → 0 ∉ Bytes.utf8 w.walletId)
    (hid : 0 ∉ Bytes.utf8 walletId) {w : WalletScript} :
    w ∈ listedScripts s walletId ↔ w.walletId = walletId ∧ HasRow s w := by
  rw [listedScripts, hs.mem_recordsFrom rfl, ← hs.hasRow_iff, and_comm]
  exact and_congr_left fun hrow => walletScripts_start_prefix_iff hid (hplain w hrow)

/-- The path that is found among the scripts of a wallet is the one that is stored. -/
theorem pathOf?_listedScripts (hs : Sound WalletScript s)
    (hplain : ∀ w : WalletScript, HasRow s w → 0 ∉ Bytes.utf8 w.walletId)
    (hid : 0 ∉ Bytes.utf8 walletId) (script : Script) :
    pathOf? (listedScripts s walletId) script = storedPath? s walletId script := by
  have hfound : ∀ {path}, pathOf? (listedScripts s walletId) script = some path →
      storedPath? s walletId script = some path := by
    intro path h
    obtain ⟨w, hw, rfl, hpath⟩ := mem_of_pathOf? h
    obtain ⟨rfl, hrow⟩ := (mem_listedScripts_iff hs hplain hid).1 hw
    have hstored : record? WalletScript s ⟨w.walletId, w.script⟩ = some w := hs.hasRow_iff.1 hrow
    rw [storedPath?, hstored]
    exact hpath
  cases hpath : storedPath? s walletId script with
  | none =>
      cases hlisted : pathOf? (listedScripts s walletId) script with
      | none => rfl
      | some path => cases hpath.symm.trans (hfound hlisted)
  | some path =>
      obtain ⟨w, hw, hwpath⟩ := Option.bind_eq_some_iff.1 hpath
      have hrow : HasRow s w := hs.hasRow_of_record? hw
      -- the row has the bytes of the key, and so this very key
      have hkey : Entity.key w = ⟨walletId, script⟩ :=
        walletScript_keyBytes_inj (hplain w hrow) hid (List.cons.inj (hs.rowKey_eq hw)).2
      obtain ⟨hwallet, hscript⟩ := WalletScriptKey.mk.inj hkey
      obtain ⟨path', hpath'⟩ := exists_pathOf?_eq_some
        ((mem_listedScripts_iff hs hplain hid).2 ⟨hwallet, hrow⟩) hscript hwpath
      rw [hpath', ← hfound hpath', hpath]

end

/-! ### Coins taken apart -/

section

variable {path? : Coin → Option String} {coins : List Coin}

/-- Coins that are labelled with their paths and taken apart by these are the coins with a path. -/
theorem map_filter_labelled (path : String) :
    ((coins.filterMap fun c => (path? c).map fun path => (path, c)).filter fun p =>
      p.1 == path).map (·.2) = coins.filter fun c => path? c = some path := by
  induction coins with
  | nil => rfl
  | cons c coins ih =>
      cases hpath : path? c with
      | none =>
          rw [List.filterMap_cons_none (by rw [hpath]; rfl), ih,
            List.filter_cons_of_neg (by simp [hpath])]
      | some found =>
          rw [List.filterMap_cons_some (by rw [hpath]; rfl)]
          by_cases hfound : found = path
          · rw [List.filter_cons_of_pos (by simp [hfound]), List.map_cons, ih,
              List.filter_cons_of_pos (by simp [hpath, hfound])]
          · rw [List.filter_cons_of_neg (by simp [hfound]), ih,
              List.filter_cons_of_neg (by simp [hpath, hfound])]

end

/-- The groups are the unspent coins of a wallet, taken apart by the paths that are stored for their
scripts. -/
structure PartitionedBy (s : Store) (walletId : String) (unspent : List Coin)
    (groups : List CoinGroup) : Prop where
  /-- A group has the coins with its path. -/
  coins : ∀ g ∈ groups,
    g.coins = unspent.filter fun c => storedPath? s walletId c.script = some g.path
  /-- All groups together have the coins with a path, each as often as it is there. -/
  perm : (groupCoins groups).Perm
    (unspent.filter fun c => (storedPath? s walletId c.script).isSome)
  /-- No coin is there twice. -/
  nodup : ((groupCoins groups).map (·.outpoint)).Nodup
  /-- A coin with a path is in one group. -/
  unique : ∀ c ∈ unspent, (storedPath? s walletId c.script).isSome = true →
    ∃! g, g ∈ groups ∧ c ∈ g.coins
  nonempty : ∀ g ∈ groups, g.coins ≠ []
  /-- The groups stand in the order of their paths, which are different therefore. -/
  paths : groups.Pairwise fun g h => Bytes.utf8 g.path < Bytes.utf8 h.path
  /-- The coins of a group stand in the order of their keys. -/
  outpoints : ∀ g ∈ groups,
    g.coins.Pairwise fun c d => rowKey Coin c.outpoint < rowKey Coin d.outpoint

section

variable {s : Store} {walletId : String}

/-- The unspent coins that some script of the wallet locks. -/
def lockedCoins (s : Store) (walletId : String) : List Coin :=
  (recordsFrom Coin s (RowRange.kind .coin).start).filter fun c =>
    !c.isSpent && ((listedScripts s walletId).map (·.script)).contains c.script

theorem unspentCoins_eq (hs : WellFormed s) (walletId : String) :
    unspentCoins s walletId = .ok (lockedCoins s walletId) := by
  have hscripts : walletScripts s walletId = .ok (listedScripts s walletId) :=
    hs.sound.scanEntities rfl
  rw [unspentCoins, hscripts, hs.sound.allCoins]
  rfl

theorem lockedCoins_sorted (hs : WellFormed s) (walletId : String) :
    (lockedCoins s walletId).Pairwise fun c d =>
      rowKey Coin c.outpoint < rowKey Coin d.outpoint :=
  have hsorted : (recordsFrom Coin s (RowRange.kind .coin).start).Pairwise fun c d =>
      rowKey Coin c.outpoint < rowKey Coin d.outpoint := hs.sound.recordsFrom_sorted rfl
  hsorted.sublist List.filter_sublist

/-- A group has the unspent coins with its path. -/
theorem coins_of_mem_groupsOf (hs : WellFormed s)
    (hplain : ∀ w : WalletScript, HasRow s w → 0 ∉ Bytes.utf8 w.walletId)
    (hid : 0 ∉ Bytes.utf8 walletId) {g : CoinGroup} (hg : g ∈ groupsOf (ownedCoins s walletId)) :
    g.coins = (lockedCoins s walletId).filter fun c =>
      storedPath? s walletId c.script = some g.path := by
  have hpaths := pathOf?_listedScripts hs.sound hplain hid
  obtain ⟨path, -, rfl⟩ := List.mem_map.1 hg
  simp only [ownedCoins, map_filter_labelled, lockedCoins, List.filter_filter, hpaths]
  refine List.filter_congr fun c _ => ?_
  -- a coin with a path is locked by a listed script
  by_cases hpath : storedPath? s walletId c.script = some path
  · obtain ⟨w, hw, hscript, -⟩ := mem_of_pathOf? ((hpaths c.script).trans hpath)
    have hlisted : ((listedScripts s walletId).map (·.script)).contains c.script = true :=
      List.contains_iff_mem.2 (List.mem_map.2 ⟨w, hw, hscript⟩)
    rw [hlisted, Bool.and_true]
  · simp [hpath]

/-- An unspent coin with a path is in a group with this path. -/
theorem exists_mem_groupsOf (hs : WellFormed s)
    (hplain : ∀ w : WalletScript, HasRow s w → 0 ∉ Bytes.utf8 w.walletId)
    (hid : 0 ∉ Bytes.utf8 walletId) {c : Coin} (hc : HasRow s c) (hunspent : c.spentBy = none)
    {path : String} (hpath : storedPath? s walletId c.script = some path) :
    ∃ g ∈ groupsOf (ownedCoins s walletId), g.path = path ∧ c ∈ g.coins := by
  refine mem_groupsOf.2 ((mem_ownedCoins hs).2 ⟨hs.sound.hasRow_iff.1 hc, hunspent, ?_⟩)
  rw [pathOf?_listedScripts hs.sound hplain hid, hpath]

theorem mem_lockedCoins (hs : WellFormed s) {c : Coin} (hc : c ∈ lockedCoins s walletId) :
    HasRow s c ∧ c.spentBy = none := by
  obtain ⟨hstored, hkeep⟩ := List.mem_filter.1 hc
  rw [Bool.and_eq_true] at hkeep
  exact ⟨hs.sound.hasRow_iff.2 (hs.sound.mem_coins.1 hstored),
    by simpa [Coin.isSpent] using hkeep.1⟩

/-- The unspent coins of a wallet fall into its groups. -/
theorem partitionedBy_groupsOf (hs : WellFormed s)
    (hplain : ∀ w : WalletScript, HasRow s w → 0 ∉ Bytes.utf8 w.walletId)
    (hid : 0 ∉ Bytes.utf8 walletId) :
    PartitionedBy s walletId (lockedCoins s walletId) (groupsOf (ownedCoins s walletId)) := by
  obtain ⟨groups, hgroups, hof⟩ := exists_groupsOf hs walletId
  obtain rfl := Except.ok.inj ((spendableGroups_eq hs walletId).symm.trans hgroups)
  have hcoins : ∀ g ∈ groupsOf (ownedCoins s walletId), g.coins =
      (lockedCoins s walletId).filter fun c => storedPath? s walletId c.script = some g.path :=
    fun g hg => coins_of_mem_groupsOf hs hplain hid hg
  have hmem : ∀ {g c}, g ∈ groupsOf (ownedCoins s walletId) → c ∈ g.coins →
      c ∈ lockedCoins s walletId ∧ storedPath? s walletId c.script = some g.path := by
    intro g c hg hc
    rw [hcoins g hg] at hc
    simpa using List.mem_filter.1 hc
  have hexists : ∀ c ∈ lockedCoins s walletId, (storedPath? s walletId c.script).isSome = true →
      ∃ g ∈ groupsOf (ownedCoins s walletId), c ∈ g.coins := by
    intro c hc hsome
    obtain ⟨path, hpath⟩ := Option.isSome_iff_exists.1 hsome
    obtain ⟨hrow, hunspent⟩ := mem_lockedCoins hs hc
    obtain ⟨g, hg, -, hin⟩ := exists_mem_groupsOf hs hplain hid hrow hunspent hpath
    exact ⟨g, hg, hin⟩
  have hsorted := lockedCoins_sorted hs walletId
  refine ⟨hcoins, ?_, hof.nodup, ?_, hof.nonempty, ?_, ?_⟩
  · refine (List.perm_ext_iff_of_nodup hof.nodup.of_map
      ((nodup_of_sorted hsorted).sublist List.filter_sublist)).2 fun c => ?_
    rw [groupCoins, List.mem_flatMap, List.mem_filter]
    constructor
    · rintro ⟨g, hg, hc⟩
      exact ⟨(hmem hg hc).1, by rw [(hmem hg hc).2]; rfl⟩
    · rintro ⟨hc, hsome⟩
      exact hexists c hc hsome
  · intro c hc hsome
    obtain ⟨g, hg, hin⟩ := hexists c hc hsome
    refine ⟨g, ⟨hg, hin⟩, ?_⟩
    rintro g' ⟨hg', hin'⟩
    have hpath : g'.path = g.path :=
      Option.some.inj ((hmem hg' hin').2.symm.trans (hmem hg hin).2)
    have hsame : g'.coins = g.coins := by rw [hcoins g' hg', hcoins g hg, hpath]
    cases g
    cases g'
    simp only at hpath hsame
    rw [hpath, hsame]
  · have hpaths : (sortedTexts ((ownedCoins s walletId).map (·.1))).Pairwise fun t u =>
        Bytes.utf8 t < Bytes.utf8 u := ByteMap.values_ofList_sorted
    exact List.pairwise_map.2 hpaths
  · intro g hg
    rw [hcoins g hg]
    exact hsorted.sublist List.filter_sublist

/-! ### The result -/

/-- **The groups of a wallet are its unspent coins with a path, taken apart by their paths.**  In a
store in which the names of wallets are plain, and for a wallet with a plain name, the unspent coins
and the groups can be listed.  The coins of the groups are the unspent coins for whose scripts the
wallet has a path, each of them in one group and once, and the path of the group is the one that is
stored.  No group is empty; groups stand in the order of their paths, no two of which are the same,
and the coins of a group in the order of their keys.  A coin is in a group of each wallet that has a
path for its script, under the path of this wallet. -/
theorem spendableGroups_partition (hs : WellFormed s)
    (hplain : ∀ w : WalletScript, HasRow s w → 0 ∉ Bytes.utf8 w.walletId) :
    (∀ walletId, 0 ∉ Bytes.utf8 walletId →
      ∃ unspent groups, unspentCoins s walletId = .ok unspent ∧
        spendableGroups s walletId = .ok groups ∧ PartitionedBy s walletId unspent groups) ∧
      ∀ c : Coin, HasRow s c → c.spentBy = none →
        ∀ walletId path, 0 ∉ Bytes.utf8 walletId → storedPath? s walletId c.script = some path →
          ∃ groups, spendableGroups s walletId = .ok groups ∧
            ∃ g ∈ groups, g.path = path ∧ c ∈ g.coins := by
  refine ⟨fun walletId hid => ?_, fun c hc hunspent walletId path hid hpath => ?_⟩
  · exact ⟨_, _, unspentCoins_eq hs walletId, spendableGroups_eq hs walletId,
      partitionedBy_groupsOf hs hplain hid⟩
  · exact ⟨_, spendableGroups_eq hs walletId, exists_mem_groupsOf hs hplain hid hc hunspent hpath⟩

end

/-! ### A script of two wallets -/

/-- A coin that both wallets can spend. -/
def sharedCoin : Coin := ⟨⟨repeatedTxid 1, 0⟩, ⟨[0x51]⟩, 1000, none⟩

/-- A coin for whose script no path is known. -/
def pathlessCoin : Coin := ⟨⟨repeatedTxid 1, 1⟩, ⟨[0x52]⟩, 500, none⟩

/-- Two wallets own the script of a coin, each under a path of its own, and one of them owns the
script of another coin without a path. -/
def sharedScriptStore : Store :=
  putEntity (putEntity (putEntity (putEntity (putEntity ByteMap.empty
    (⟨"alice", ⟨[0x51]⟩, some "m/0"⟩ : WalletScript))
    (⟨"bob", ⟨[0x51]⟩, some "m/7"⟩ : WalletScript))
    (⟨"alice", ⟨[0x52]⟩, none⟩ : WalletScript))
    sharedCoin)
    pathlessCoin

theorem wellFormed_sharedScriptStore : WellFormed sharedScriptStore :=
  ((((wellFormed_empty.putEntity _).putEntity _).putEntity _).putEntity _).putEntity _

theorem plain_sharedScriptStore (w : WalletScript) (hw : HasRow sharedScriptStore w) :
    0 ∉ Bytes.utf8 w.walletId := by
  have hscripts := (hw.of_putEntity_of_ne (by decide)).of_putEntity_of_ne (by decide)
  rcases hscripts.of_putEntity with rfl | hw
  · decide
  · rcases hw.of_putEntity with rfl | hw
    · decide
    · rcases hw.of_putEntity with rfl | hw
      · decide
      · cases hw

theorem storedPath?_of_hasRow {s : Store} (hs : Sound WalletScript s) {w : WalletScript}
    (hw : HasRow s w) : storedPath? s w.walletId w.script = w.derivationPath := by
  have hstored : record? WalletScript s ⟨w.walletId, w.script⟩ = some w := hs.hasRow_iff.1 hw
  rw [storedPath?, hstored, Option.bind_some]

/-- The shared coin is in a group of each wallet, and the coin without a path in none. -/
theorem spendableGroups_partition_sharedScript :
    (∃ groups, spendableGroups sharedScriptStore "alice" = .ok groups ∧
      (∃ g ∈ groups, g.path = "m/0" ∧ sharedCoin ∈ g.coins) ∧ pathlessCoin ∉ groupCoins groups) ∧
      ∃ groups, spendableGroups sharedScriptStore "bob" = .ok groups ∧
        ∃ g ∈ groups, g.path = "m/7" ∧ sharedCoin ∈ g.coins := by
  have hs : Sound WalletScript sharedScriptStore := wellFormed_sharedScriptStore.sound
  have hcoin : HasRow sharedScriptStore sharedCoin :=
    (hasRow_putEntity_self _ _).put (by decide)
  have halice : HasRow sharedScriptStore (⟨"alice", ⟨[0x51]⟩, some "m/0"⟩ : WalletScript) :=
    ((((hasRow_putEntity_self _ _).put (by decide)).put (by decide)).put (by decide)).put
      (by decide)
  have hbob : HasRow sharedScriptStore (⟨"bob", ⟨[0x51]⟩, some "m/7"⟩ : WalletScript) :=
    (((hasRow_putEntity_self _ _).put (by decide)).put (by decide)).put (by decide)
  have hpathless : HasRow sharedScriptStore (⟨"alice", ⟨[0x52]⟩, none⟩ : WalletScript) :=
    ((hasRow_putEntity_self _ _).put (by decide)).put (by decide)
  obtain ⟨hparts, hshared⟩ :=
    spendableGroups_partition wellFormed_sharedScriptStore plain_sharedScriptStore
  obtain ⟨unspent, alices, -, halices, hpart⟩ := hparts "alice" (by decide)
  obtain ⟨groups, hgroups, hin⟩ :=
    hshared sharedCoin hcoin rfl "alice" "m/0" (by decide) (storedPath?_of_hasRow hs halice)
  obtain rfl : groups = alices := Except.ok.inj (hgroups.symm.trans halices)
  refine ⟨⟨groups, hgroups, hin, fun hmem => ?_⟩,
    hshared sharedCoin hcoin rfl "bob" "m/7" (by decide) (storedPath?_of_hasRow hs hbob)⟩
  have hnone : storedPath? sharedScriptStore "alice" pathlessCoin.script = none :=
    storedPath?_of_hasRow hs hpathless
  have hsome := (List.mem_filter.1 (hpart.perm.mem_iff.1 hmem)).2
  rw [hnone] at hsome
  cases hsome

end CoinLedger
