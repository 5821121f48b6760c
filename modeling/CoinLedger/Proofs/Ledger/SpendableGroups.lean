import Mathlib.Data.List.Nodup
import CoinLedger.Ledger.Spending
import CoinLedger.Proofs.Ledger.CoinTable

/-! # The coins that a wallet can spend

`Spendable s walletId path c` says that the coin is stored and unspent, and that a script listed for
the wallet is its script and has this path; if there are several such scripts the last one counts.
`GroupsOf` says of groups that they are these coins, group by group, each coin once, and
`exists_groupsOf` that a well-formed store has such groups for every wallet.  They are listed in the
order of their paths, and the coins of one path in the order of their keys (`sorted_spendableGroups`). -/

namespace CoinLedger

open Ledger

/-- The scripts that are listed for a wallet. -/
def listedScripts (s : Store) (walletId : String) : List WalletScript :=
  recordsFrom WalletScript s (RowRange.walletScripts walletId).start

/-- The coin is stored and unspent, and the key of its script stands at this path. -/
structure Spendable (s : Store) (walletId path : String) (c : Coin) : Prop where
  stored : record? Coin s c.outpoint = some c
  unspent : c.spentBy = none
  path : pathOf? (listedScripts s walletId) c.script = some path

/-- The groups have the spendable coins of a wallet. -/
structure GroupsOf (s : Store) (walletId : String) (groups : List CoinGroup) : Prop where
  mem : ∀ path c, (∃ g ∈ groups, g.path = path ∧ c ∈ g.coins) ↔ Spendable s walletId path c
  nonempty : ∀ g ∈ groups, g.coins ≠ []
  /-- No coin is there twice. -/
  nodup : ((groupCoins groups).map (·.outpoint)).Nodup

/-! ### Paths of scripts -/

section

variable {scripts : List WalletScript} {script : Script}

theorem mem_of_pathOf? {path : String} (h : pathOf? scripts script = some path) :
    ∃ w ∈ scripts, w.script = script ∧ w.derivationPath = some path := by
  obtain ⟨w, hw, hpath⟩ := Option.bind_eq_some_iff.1 h
  have hkeep := List.find?_some hw
  rw [Bool.and_eq_true, beq_iff_eq] at hkeep
  exact ⟨w, List.mem_reverse.1 (List.mem_of_find?_eq_some hw), hkeep.1, hpath⟩

theorem exists_pathOf?_eq_some {w : WalletScript} {path : String} (hw : w ∈ scripts)
    (hscript : w.script = script) (hpath : w.derivationPath = some path) :
    ∃ path', pathOf? scripts script = some path' := by
  have hfound : (scripts.reverse.find? fun w =>
      w.script == script && w.derivationPath.isSome).isSome = true :=
    List.find?_isSome.2 ⟨w, List.mem_reverse.2 hw, by simp [hscript, hpath]⟩
  obtain ⟨w', hw'⟩ := Option.isSome_iff_exists.1 hfound
  have hkeep := List.find?_some hw'
  rw [Bool.and_eq_true] at hkeep
  obtain ⟨path', hpath'⟩ := Option.isSome_iff_exists.1 hkeep.2
  exact ⟨path', by rw [pathOf?, hw', Option.bind_some, hpath']⟩

end

/-! ### Groups -/

theorem mem_sortedTexts {texts : List String} {t : String} : t ∈ sortedTexts texts ↔ t ∈ texts :=
  ByteMap.mem_values_ofList fun _ _ _ _ h => Bytes.utf8_injective h

theorem nodup_sortedTexts (texts : List String) : (sortedTexts texts).Nodup := by
  have hsorted : (sortedTexts texts).Pairwise fun t u => Bytes.utf8 t < Bytes.utf8 u :=
    ByteMap.values_ofList_sorted
  refine hsorted.imp fun hlt heq => ?_
  rw [heq] at hlt
  exact List.lt_irrefl _ hlt

/-- Coins with their paths, group by group. -/
def groupsOf (owned : List (String × Coin)) : List CoinGroup :=
  (sortedTexts (owned.map (·.1))).map fun path =>
    ⟨path, (owned.filter fun p => p.1 == path).map (·.2)⟩

theorem mem_groupsOf {owned : List (String × Coin)} {path : String} {c : Coin} :
    (∃ g ∈ groupsOf owned, g.path = path ∧ c ∈ g.coins) ↔ (path, c) ∈ owned := by
  constructor
  · rintro ⟨g, hg, rfl, hc⟩
    obtain ⟨path, -, rfl⟩ := List.mem_map.1 hg
    obtain ⟨⟨path', c'⟩, hp, rfl⟩ := List.mem_map.1 hc
    obtain ⟨hmem, hpath⟩ := List.mem_filter.1 hp
    obtain rfl : path' = path := beq_iff_eq.1 hpath
    exact hmem
  · intro hmem
    have hpath : path ∈ sortedTexts (owned.map (·.1)) :=
      mem_sortedTexts.2 (List.mem_map.2 ⟨_, hmem, rfl⟩)
    refine ⟨_, List.mem_map.2 ⟨path, hpath, rfl⟩, rfl, List.mem_map.2 ⟨(path, c), ?_, rfl⟩⟩
    exact List.mem_filter.2 ⟨hmem, beq_self_eq_true path⟩

theorem nonempty_of_mem_groupsOf {owned : List (String × Coin)} {g : CoinGroup}
    (hg : g ∈ groupsOf owned) : g.coins ≠ [] := by
  obtain ⟨path, hpath, rfl⟩ := List.mem_map.1 hg
  obtain ⟨p, hp, rfl⟩ := List.mem_map.1 (mem_sortedTexts.1 hpath)
  exact List.ne_nil_of_mem (List.mem_map.2 ⟨p, List.mem_filter.2 ⟨hp, beq_self_eq_true _⟩, rfl⟩)

theorem nodup_groupsOf {owned : List (String × Coin)} (h : (owned.map (·.2.outpoint)).Nodup) :
    ((groupCoins (groupsOf owned)).map (·.outpoint)).Nodup := by
  have hcoins : (groupCoins (groupsOf owned)).map (·.outpoint) =
      (sortedTexts (owned.map (·.1))).flatMap fun path =>
        (owned.filter fun p => p.1 == path).map (·.2.outpoint) := by
    simp only [groupCoins, groupsOf, List.flatMap_map, List.map_flatMap, List.map_map]
    rfl
  rw [hcoins, List.nodup_flatMap]
  refine ⟨fun path _ => h.sublist (List.filter_sublist.map _),
    (nodup_sortedTexts _).imp fun {path path'} hne o ho ho' => hne ?_⟩
  -- a coin has one path
  obtain ⟨p, hp, rfl⟩ := List.mem_map.1 ho
  obtain ⟨q, hq, heq⟩ := List.mem_map.1 ho'
  obtain ⟨hp, hpath⟩ := List.mem_filter.1 hp
  obtain ⟨hq, hpath'⟩ := List.mem_filter.1 hq
  obtain rfl : q = p := List.inj_on_of_nodup_map h hq hp heq
  rw [← beq_iff_eq.1 hpath, beq_iff_eq.1 hpath']

/-- The coins of groups, with their paths. -/
def withPaths (groups : List CoinGroup) : List (String × Coin) :=
  groups.flatMap fun g => g.coins.map fun c => (g.path, c)

theorem mem_withPaths {groups : List CoinGroup} {path : String} {c : Coin} :
    (path, c) ∈ withPaths groups ↔ ∃ g ∈ groups, g.path = path ∧ c ∈ g.coins := by
  simp only [withPaths, List.mem_flatMap, List.mem_map, Prod.mk.injEq]
  constructor
  · rintro ⟨g, hg, c, hc, rfl, rfl⟩
    exact ⟨g, hg, rfl, hc⟩
  · rintro ⟨g, hg, rfl, hc⟩
    exact ⟨g, hg, c, hc, rfl, rfl⟩

/-- One stands before the other by their paths, or else by the keys of their outpoints. -/
def Before (a b : String × Coin) : Prop :=
  Bytes.utf8 a.1 < Bytes.utf8 b.1 ∨
    a.1 = b.1 ∧ rowKey Coin a.2.outpoint < rowKey Coin b.2.outpoint

/-- Groups have the order of their paths, and within a group coins keep their order. -/
theorem sorted_groupsOf {owned : List (String × Coin)}
    (h : owned.Pairwise fun a b => rowKey Coin a.2.outpoint < rowKey Coin b.2.outpoint) :
    (withPaths (groupsOf owned)).Pairwise Before := by
  have hpaths : (sortedTexts (owned.map (·.1))).Pairwise fun t u => Bytes.utf8 t < Bytes.utf8 u :=
    ByteMap.values_ofList_sorted
  rw [withPaths, List.pairwise_flatMap]
  refine ⟨fun g hg => ?_, List.pairwise_map.2 (hpaths.imp fun hlt => ?_)⟩
  · obtain ⟨path, -, rfl⟩ := List.mem_map.1 hg
    rw [List.pairwise_map, List.pairwise_map]
    exact (h.sublist List.filter_sublist).imp fun hlt => .inr ⟨rfl, hlt⟩
  · intro a ha b hb
    obtain ⟨_, -, rfl⟩ := List.mem_map.1 ha
    obtain ⟨_, -, rfl⟩ := List.mem_map.1 hb
    exact .inl hlt

section

variable {s : Store}

/-- The unspent coins whose scripts have a path among those of a wallet, with these paths. -/
def ownedCoins (s : Store) (walletId : String) : List (String × Coin) :=
  ((recordsFrom Coin s (RowRange.kind .coin).start).filter fun c => !c.isSpent).filterMap fun c =>
    (pathOf? (listedScripts s walletId) c.script).map fun path => (path, c)

theorem spendableGroups_eq (hs : WellFormed s) (walletId : String) :
    spendableGroups s walletId = .ok (groupsOf (ownedCoins s walletId)) := by
  have hscripts : walletScripts s walletId = .ok (listedScripts s walletId) :=
    hs.sound.scanEntities rfl
  rw [spendableGroups, hscripts, hs.sound.allCoins]
  rfl

theorem mem_ownedCoins (hs : WellFormed s) {walletId path : String} {c : Coin} :
    (path, c) ∈ ownedCoins s walletId ↔ Spendable s walletId path c := by
  rw [ownedCoins, List.mem_filterMap]
  constructor
  · rintro ⟨c', hc', hpath⟩
    obtain ⟨path', hpath', heq⟩ := Option.map_eq_some_iff.1 hpath
    obtain ⟨rfl, rfl⟩ := Prod.mk.inj heq
    obtain ⟨hstored, hunspent⟩ := List.mem_filter.1 hc'
    exact ⟨hs.sound.mem_coins.1 hstored, by simpa [Coin.isSpent] using hunspent, hpath'⟩
  · rintro ⟨hstored, hunspent, hpath⟩
    refine ⟨c, List.mem_filter.2 ⟨hs.sound.mem_coins.2 hstored, ?_⟩, ?_⟩
    · simp [Coin.isSpent, hunspent]
    · rw [hpath]
      rfl

/-- What relates all stored coins relates those with a path. -/
theorem pairwise_ownedCoins {R : Coin → Coin → Prop}
    (h : (recordsFrom Coin s (RowRange.kind .coin).start).Pairwise R) (walletId : String) :
    (ownedCoins s walletId).Pairwise fun a b => R a.2 b.2 := by
  rw [ownedCoins, List.pairwise_filterMap]
  refine (h.sublist List.filter_sublist).imp fun {c d} hR p hp q hq => ?_
  obtain ⟨path, -, rfl⟩ := Option.map_eq_some_iff.1 hp
  obtain ⟨path', -, rfl⟩ := Option.map_eq_some_iff.1 hq
  exact hR

/-- The coins of a wallet can always be listed group by group. -/
theorem exists_groupsOf (hs : WellFormed s) (walletId : String) :
    ∃ groups, spendableGroups s walletId = .ok groups ∧ GroupsOf s walletId groups := by
  refine ⟨_, spendableGroups_eq hs walletId, fun path c => ?_, fun _ => nonempty_of_mem_groupsOf,
    nodup_groupsOf ?_⟩
  · rw [mem_groupsOf, mem_ownedCoins hs]
  · have hnodup : ((recordsFrom Coin s (RowRange.kind .coin).start).map (·.outpoint)).Nodup :=
      hs.sound.nodup_keys rfl
    rw [List.Nodup, List.pairwise_map] at hnodup ⊢
    exact pairwise_ownedCoins hnodup walletId

/-- They are listed in the order of their paths, and those of one path in the order of their keys. -/
theorem sorted_spendableGroups (hs : WellFormed s) {walletId : String} {groups : List CoinGroup}
    (h : spendableGroups s walletId = .ok groups) : (withPaths groups).Pairwise Before := by
  obtain rfl := Except.ok.inj ((spendableGroups_eq hs walletId).symm.trans h)
  exact sorted_groupsOf (pairwise_ownedCoins (hs.sound.recordsFrom_sorted rfl) walletId)

end

end CoinLedger
