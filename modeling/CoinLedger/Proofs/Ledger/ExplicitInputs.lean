import CoinLedger.Proofs.Funding.Failures
import CoinLedger.Proofs.Ledger.SpentCoins

/-! # Paying from explicit inputs

With explicit inputs, building is a search: an attempt to pay from them alone, then one with one more
coin of the wallet, and so on until an attempt is not short of coins (`Short`), or until there are no
more coins.  `SearchEnds` says how such a search ends, and `payFromPool_ends` that this one ends so, by
induction on the coins that may still be added.

Which attempt that is does not depend on keys, since keys decide about witnesses alone
(`TxBuilder.finish_eq_plan`).  The keys that are known are carried along: they are always the ones at
the paths of groups that have a coin among the explicit inputs and those that were added (`KeysAt`,
`Touched`).  So it is known of every input whether it is signed (`Completes`).

`funds_of_buildTransaction` puts it together for a wallet whose stored paths can be derived. -/

namespace CoinLedger

open Ledger Key

/-! ### Keys at paths -/

/-- The keys are the ones at these paths: each script is unlocked by one of them, or by none. -/
def KeysAt (master : ExtendedKey) (Known : String → Prop) (keys : SigningKeys) : Prop :=
  ∀ script, (∃ path key, Known path ∧ DerivedKey.derive master path = .ok key ∧
      key.script = script ∧ keys.keyFor? script = some key) ∨
    (∀ path key, Known path → DerivedKey.derive master path = .ok key → key.script ≠ script) ∧
      keys.keyFor? script = none

namespace KeysAt

variable {master : ExtendedKey} {Known Known' : String → Prop} {keys : SigningKeys}

theorem congr (h : KeysAt master Known keys) (hsame : ∀ path, Known path ↔ Known' path) :
    KeysAt master Known' keys := by
  obtain rfl : Known = Known' := funext fun path => propext (hsame path)
  exact h

/-- One more path is known, and its key is added. -/
theorem add (h : KeysAt master Known keys) {path : String} {key : DerivedKey}
    (hkey : DerivedKey.derive master path = .ok key) :
    KeysAt master (fun t => t = path ∨ Known t) (keys.add key) := by
  intro script
  rw [SigningKeys.keyFor?_add]
  by_cases hscript : key.script = script
  · rw [if_pos hscript]
    exact .inl ⟨path, key, .inl rfl, hkey, hscript, rfl⟩
  · rw [if_neg hscript]
    rcases h script with ⟨t, key', ht, hderive, hscript', hfound⟩ | ⟨hother, hnone⟩
    · exact .inl ⟨t, key', .inr ht, hderive, hscript', hfound⟩
    · refine .inr ⟨?_, hnone⟩
      rintro t key' (rfl | ht) hderive
      · obtain rfl : key = key' := Except.ok.inj (hkey.symm.trans hderive)
        exact hscript
      · exact hother t key' ht hderive

theorem addGroupKeys {groups : List CoinGroup}
    (h : Ledger.addGroupKeys master .empty groups = .ok keys) :
    KeysAt master (· ∈ groups.map (·.path)) keys := by
  intro script
  rcases keyFor?_of_addGroupKeys script h with ⟨g, hg, key, hderive, hscript, hfound⟩ | ⟨hother, hnone⟩
  · exact .inl ⟨g.path, key, List.mem_map_of_mem hg, hderive, hscript, hfound⟩
  · refine .inr ⟨fun path key hpath hderive => ?_, hnone⟩
    obtain ⟨g, hg, rfl⟩ := List.mem_map.1 hpath
    exact hother g hg key hderive

end KeysAt

/-! ### Attempts -/

namespace Ledger

/-- The attempt to pay from these coins. -/
def Payout.attempt (p : Payout) (coins : List Utxo) : Except Error BuiltTransaction :=
  (p.spend coins).finish

/-- The attempt found that the coins are not enough. -/
def Short (attempt : Except Error BuiltTransaction) : Prop :=
  ∃ needed available, attempt = .error (.insufficientFunds needed available)

theorem Payout.finish_spend (p : Payout) (coins : List Utxo) (keys : SigningKeys) :
    { p.spend coins with signingKeys := keys }.finish =
      (p.attempt coins).map (BuiltTransaction.signedWith keys) := by
  have hplan : p.attempt coins = (p.spend coins).plan := by
    rw [attempt, TxBuilder.finish_eq_plan]
    have hempty : BuiltTransaction.signedWith SigningKeys.empty = id := by
      funext built
      rw [BuiltTransaction.signedWith, SigningKeys.signed_empty]
      rfl
    show (p.spend coins).plan.map (BuiltTransaction.signedWith .empty) = _
    rw [hempty]
    cases (p.spend coins).plan <;> rfl
  rw [hplan, TxBuilder.finish_eq_plan]
  rfl

/-- Paying from what is required is the attempt to pay from its coins, signed with its keys. -/
theorem Payout.payFrom_cases (p : Payout) {r : Required} {coins : List Utxo}
    (hcoins : r.coins = coins.map .ofKeyHash) :
    (∃ made, p.attempt coins = .ok made ∧ p.payFrom r = .ok (some (made.signedWith r.keys))) ∨
      (Short (p.attempt coins) ∧ p.payFrom r = .ok none) ∨
      ∃ e, p.attempt coins = .error e ∧ ¬ Short (p.attempt coins) ∧ p.payFrom r = .error e := by
  have hfinish : TxBuilder.finish { p.builder r.keys with mustSpend := r.coins } =
      (p.attempt coins).map (BuiltTransaction.signedWith r.keys) := by
    rw [hcoins]
    exact p.finish_spend coins r.keys
  unfold Payout.payFrom
  rw [hfinish]
  cases hattempt : p.attempt coins with
  | ok made => exact .inl ⟨made, rfl, rfl⟩
  | error e =>
      by_cases hshort : Short (.error e)
      · obtain ⟨needed, available, he⟩ := hshort
        obtain rfl := Except.error.inj he
        exact .inr (.inl ⟨⟨needed, available, rfl⟩, rfl⟩)
      · refine .inr (.inr ⟨e, rfl, hshort, ?_⟩)
        cases e with
        | insufficientFunds needed available => exact absurd ⟨needed, available, rfl⟩ hshort
        | _ => rfl

/-! ### The search -/

/-- How a search ends that goes through attempts up to a last one: with the first attempt that is not
short, or without a result if there is none. -/
inductive SearchEnds (attempt : Nat → Except Error BuiltTransaction) (last : Nat)
    (Signed : Nat → BuiltTransaction → BuiltTransaction → Prop) :
    Except Error (Option BuiltTransaction) → Prop
  | paid {k : Nat} {made built : BuiltTransaction} (hk : k ≤ last)
      (hshort : ∀ j < k, Short (attempt j)) (hmade : attempt k = .ok made)
      (hsigned : Signed k made built) : SearchEnds attempt last Signed (.ok (some built))
  | exhausted (hshort : ∀ k ≤ last, Short (attempt k)) : SearchEnds attempt last Signed (.ok none)
  | failed {k : Nat} {e : Error} (hk : k ≤ last) (hshort : ∀ j < k, Short (attempt j))
      (herror : attempt k = .error e) (hother : ¬ Short (attempt k)) :
      SearchEnds attempt last Signed (.error e)

namespace SearchEnds

variable {attempt : Nat → Except Error BuiltTransaction} {last : Nat}
  {Signed : Nat → BuiltTransaction → BuiltTransaction → Prop}
  {result : Except Error (Option BuiltTransaction)}

theorem imp {Signed' : Nat → BuiltTransaction → BuiltTransaction → Prop}
    (h : SearchEnds attempt last Signed result)
    (himp : ∀ k made built, Signed k made built → Signed' k made built) :
    SearchEnds attempt last Signed' result := by
  cases h with
  | paid hk hshort hmade hsigned => exact .paid hk hshort hmade (himp _ _ _ hsigned)
  | exhausted hshort => exact .exhausted hshort
  | failed hk hshort herror hother => exact .failed hk hshort herror hother

theorem paid_first {made built : BuiltTransaction} (hmade : attempt 0 = .ok made)
    (hsigned : Signed 0 made built) : SearchEnds attempt last Signed (.ok (some built)) :=
  .paid (Nat.zero_le last) (fun j hj => absurd hj (Nat.not_lt_zero j)) hmade hsigned

theorem failed_first {e : Error} (herror : attempt 0 = .error e) (hother : ¬ Short (attempt 0)) :
    SearchEnds attempt last Signed (.error e) :=
  .failed (Nat.zero_le last) (fun j hj => absurd hj (Nat.not_lt_zero j)) herror hother

/-- A search goes on after a short attempt. -/
theorem step (hfirst : Short (attempt 0))
    (h : SearchEnds (fun k => attempt (k + 1)) last (fun k => Signed (k + 1)) result) :
    SearchEnds attempt (last + 1) Signed result := by
  have hbefore : ∀ {k}, (∀ j < k, Short (attempt (j + 1))) → ∀ j < k + 1, Short (attempt j) := by
    intro k hshort j hj
    cases j with
    | zero => exact hfirst
    | succ j => exact hshort j (Nat.lt_of_succ_lt_succ hj)
  cases h with
  | paid hk hshort hmade hsigned =>
      exact .paid (Nat.succ_le_succ hk) (hbefore hshort) hmade hsigned
  | exhausted hshort =>
      refine .exhausted fun k hk => ?_
      cases k with
      | zero => exact hfirst
      | succ k => exact hshort k (Nat.le_of_succ_le_succ hk)
  | failed hk hshort herror hother =>
      exact .failed (Nat.succ_le_succ hk) (hbefore hshort) herror hother

/-- There is one first attempt that is not short. -/
theorem first_unique {k k' : Nat} (hshort : ∀ j < k, Short (attempt j)) (hk : ¬ Short (attempt k))
    (hshort' : ∀ j < k', Short (attempt j)) (hk' : ¬ Short (attempt k')) : k = k' :=
  Nat.le_antisymm (Nat.not_lt.1 fun hlt => hk' (hshort k' hlt))
    (Nat.not_lt.1 fun hlt => hk (hshort' k hlt))

end SearchEnds

theorem not_short_of_ok {attempt : Except Error BuiltTransaction} {made : BuiltTransaction}
    (h : attempt = .ok made) : ¬ Short attempt := by
  rintro ⟨needed, available, herror⟩
  rw [h] at herror
  cases herror

/-- One more coin is required, and the key at its path is known. -/
theorem Required.exists_add_eq_ok {master : ExtendedKey} {path : String} {key : DerivedKey}
    (hkey : DerivedKey.derive master path = .ok key) (r : Required) (coin : Coin) :
    ∃ r', r.add master path coin = .ok r' ∧ r'.coins = r.coins ++ [.ofKeyHash coin.utxo] ∧
      (∀ t, t ∈ r'.paths ↔ t = path ∨ t ∈ r.paths) ∧
      (KeysAt master (· ∈ r.paths) r.keys → KeysAt master (· ∈ r'.paths) r'.keys) := by
  unfold Required.add
  dsimp only
  split
  · rename_i hknown
    have hmem : path ∈ r.paths := by simpa using hknown
    refine ⟨_, rfl, rfl, fun t => ⟨.inr, ?_⟩, id⟩
    rintro (rfl | ht)
    · exact hmem
    · exact ht
  · rw [hkey, ok_bind]
    exact ⟨_, rfl, rfl, fun t => List.mem_cons, fun h => (h.add hkey).congr fun t =>
      List.mem_cons.symm⟩

/-- The attempt after some coins of the pool were added. -/
def Payout.attemptWith (p : Payout) (coins : List Utxo) (pool : List (String × Coin)) (k : Nat) :
    Except Error BuiltTransaction :=
  p.attempt (coins ++ (pool.take k).map (·.2.utxo))

/-- What was made is signed with the keys at these paths. -/
def SignedAt (master : ExtendedKey) (Known : String → Prop) (made built : BuiltTransaction) : Prop :=
  ∃ keys, KeysAt master Known keys ∧ made.signedWith keys = built

theorem SignedAt.congr {master : ExtendedKey} {Known Known' : String → Prop}
    {made built : BuiltTransaction} (hsame : ∀ path, Known path ↔ Known' path)
    (h : SignedAt master Known made built) : SignedAt master Known' made built := by
  obtain ⟨keys, hkeys, hsigned⟩ := h
  exact ⟨keys, hkeys.congr hsame, hsigned⟩

theorem payFromPool_ends {master : ExtendedKey} {p : Payout} {pool : List (String × Coin)}
    {r : Required} {coins : List Utxo} (hcoins : r.coins = coins.map .ofKeyHash)
    (hkeys : KeysAt master (· ∈ r.paths) r.keys)
    (hderives : ∀ e ∈ pool, ∃ key, DerivedKey.derive master e.1 = .ok key) :
    SearchEnds (p.attemptWith coins pool) pool.length
      (fun k => SignedAt master fun t => t ∈ r.paths ∨ t ∈ (pool.take k).map (·.1))
      (payFromPool master p r pool) := by
  induction pool generalizing r coins with
  | nil =>
      have hnone : ∀ k, p.attemptWith coins [] k = p.attempt coins := by
        intro k
        rw [Payout.attemptWith, List.take_nil, List.map_nil, List.append_nil]
      rw [payFromPool]
      rcases p.payFrom_cases hcoins with ⟨made, hmade, hpaid⟩ | ⟨hshort, hpaid⟩ | ⟨e, he, hother, hpaid⟩
      · rw [hpaid]
        exact .paid_first ((hnone 0).trans hmade) ⟨r.keys, hkeys.congr (by simp), rfl⟩
      · rw [hpaid]
        exact .exhausted fun k _ => hnone k ▸ hshort
      · rw [hpaid]
        exact .failed_first ((hnone 0).trans he) (hnone 0 ▸ hother)
  | cons entry pool ih =>
      obtain ⟨path, coin⟩ := entry
      have hzero : p.attemptWith coins ((path, coin) :: pool) 0 = p.attempt coins := by
        rw [Payout.attemptWith, List.take_zero, List.map_nil, List.append_nil]
      rw [payFromPool]
      rcases p.payFrom_cases hcoins with ⟨made, hmade, hpaid⟩ | ⟨hshort, hpaid⟩ | ⟨e, he, hother, hpaid⟩
      · rw [hpaid, ok_bind]
        exact .paid_first (hzero.trans hmade) ⟨r.keys, hkeys.congr (by simp), rfl⟩
      · rw [hpaid, ok_bind]
        obtain ⟨key, hkey⟩ := hderives _ List.mem_cons_self
        obtain ⟨r', hadd, hcoins', hpaths, hkeys'⟩ := r.exists_add_eq_ok hkey coin
        have hadded : r'.coins = (coins ++ [coin.utxo]).map .ofKeyHash := by
          rw [hcoins', hcoins, List.map_append, List.map_singleton]
        have hrest := ih hadded (hkeys' hkeys) fun e he => hderives e (List.mem_cons_of_mem _ he)
        dsimp only
        rw [hadd, ok_bind]
        refine .step (hzero ▸ hshort) ?_
        have hattempts : (fun k => p.attemptWith coins ((path, coin) :: pool) (k + 1)) =
            p.attemptWith (coins ++ [coin.utxo]) pool := by
          funext k
          rw [Payout.attemptWith, Payout.attemptWith, List.take_succ_cons, List.map_cons,
            List.append_assoc]
          rfl
        have hknown : (fun (k : Nat) t => t ∈ r.paths ∨
            t ∈ (((path, coin) :: pool).take (k + 1)).map (·.1)) =
              fun k t => t ∈ r'.paths ∨ t ∈ (pool.take k).map (·.1) := by
          funext k t
          rw [List.take_succ_cons, List.map_cons, List.mem_cons, hpaths, ← or_assoc,
            or_comm (a := t ∈ r.paths)]
        rw [hattempts]
        exact hrest.imp fun k _ _ => SignedAt.congr fun t => by rw [← congrFun (congrFun hknown k) t]
      · rw [hpaid]
        exact .failed_first (hzero.trans he) (hzero ▸ hother)

end Ledger

/-! ### The coins that may be added -/

/-- These are the coins of groups that are no explicit inputs, in the order of their paths and, at one
path, of the keys of their outpoints. -/
structure PoolOf (groups : List CoinGroup) (explicit : List Utxo) (pool : List (String × Coin)) :
    Prop where
  mem : ∀ path c, (path, c) ∈ pool ↔
    (∃ g ∈ groups, g.path = path ∧ c ∈ g.coins) ∧ ∀ u ∈ explicit, u.outpoint ≠ c.outpoint
  sorted : pool.Pairwise Before

theorem poolOf_spec {s : Store} (hs : WellFormed s) {walletId : String} {groups : List CoinGroup}
    (hgroups : spendableGroups s walletId = .ok groups) (explicit : List Utxo) :
    PoolOf groups explicit (poolOf groups explicit) where
  mem path c := by
    have hfilter : poolOf groups explicit = (withPaths groups).filter fun p =>
        !explicit.any fun u => u.outpoint == p.2.outpoint := rfl
    rw [hfilter, List.mem_filter, mem_withPaths]
    simp
  sorted := (sorted_spendableGroups hs hgroups).sublist List.filter_sublist

/-- A coin that is the only one of all groups is added first, if it is no explicit input. -/
theorem PoolOf.exists_eq_cons {groups : List CoinGroup} {explicit : List Utxo}
    {pool : List (String × Coin)} (h : PoolOf groups explicit pool) {c : Coin}
    (hcoins : groupCoins groups = [c]) (hother : ∀ u ∈ explicit, u.outpoint ≠ c.outpoint) :
    ∃ path rest, pool = (path, c) :: rest := by
  have hmem : c ∈ groupCoins groups := by
    rw [hcoins, List.mem_singleton]
  obtain ⟨g, hg, hc⟩ := List.mem_flatMap.1 hmem
  have hpool := (h.mem g.path c).2 ⟨⟨g, hg, rfl, hc⟩, hother⟩
  cases pool with
  | nil => cases hpool
  | cons entry rest =>
      obtain ⟨g', hg', -, hc'⟩ := ((h.mem entry.1 entry.2).1 List.mem_cons_self).1
      have honly : entry.2 ∈ groupCoins groups := List.mem_flatMap.2 ⟨g', hg', hc'⟩
      rw [hcoins, List.mem_singleton] at honly
      exact ⟨entry.1, rest, by rw [← honly]⟩

/-- The group at this path has a coin with one of these outpoints. -/
def Touched (groups : List CoinGroup) (coins : List Utxo) (path : String) : Prop :=
  ∃ g ∈ groups, g.path = path ∧ ∃ c ∈ g.coins, c.outpoint ∈ coins.map (·.outpoint)

/-- The groups that explicit inputs and coins of the pool are of are those with an explicit input, and
those that the coins of the pool come with. -/
theorem touched_append_iff {s : Store} {walletId : String} {groups : List CoinGroup}
    (hof : GroupsOf s walletId groups) {explicit : List Utxo} {added : List (String × Coin)}
    (hadded : ∀ path c, (path, c) ∈ added → ∃ g ∈ groups, g.path = path ∧ c ∈ g.coins)
    (path : String) :
    Touched groups (explicit ++ added.map (·.2.utxo)) path ↔
      path ∈ (groups.filter fun g => g.coins.any fun c =>
        explicit.any fun u => u.outpoint == c.outpoint).map (·.path) ∨ path ∈ added.map (·.1) := by
  have houtpoints : (explicit ++ added.map (·.2.utxo)).map (·.outpoint) =
      explicit.map (·.outpoint) ++ added.map (·.2.outpoint) := by
    rw [List.map_append, List.map_map]
    rfl
  rw [Touched, houtpoints]
  constructor
  · rintro ⟨g, hg, rfl, c, hc, hmem⟩
    rcases List.mem_append.1 hmem with hmem | hmem
    · obtain ⟨u, hu, hsame⟩ := List.mem_map.1 hmem
      refine .inl (List.mem_map_of_mem (List.mem_filter.2 ⟨hg, ?_⟩))
      exact List.any_eq_true.2 ⟨c, hc, List.any_eq_true.2 ⟨u, hu, beq_iff_eq.2 hsame⟩⟩
    · -- a stored coin has one path
      obtain ⟨⟨path', c'⟩, he, hsame⟩ := List.mem_map.1 hmem
      have hspendable := (hof.mem g.path c).1 ⟨g, hg, rfl, hc⟩
      have hspendable' := (hof.mem path' c').1 (hadded path' c' he)
      have hstored := hspendable'.stored
      rw [show c'.outpoint = c.outpoint from hsame, hspendable.stored] at hstored
      obtain rfl := Option.some.inj hstored
      obtain rfl : g.path = path' := Option.some.inj (hspendable.path.symm.trans hspendable'.path)
      exact .inr (List.mem_map.2 ⟨_, he, rfl⟩)
  · rintro (hmem | hmem)
    · obtain ⟨g, hg, rfl⟩ := List.mem_map.1 hmem
      obtain ⟨hg, hany⟩ := List.mem_filter.1 hg
      obtain ⟨c, hc, hany⟩ := List.any_eq_true.1 hany
      obtain ⟨u, hu, hsame⟩ := List.any_eq_true.1 hany
      exact ⟨g, hg, rfl, c, hc, List.mem_append_left _ (List.mem_map.2 ⟨u, hu, beq_iff_eq.1 hsame⟩)⟩
    · obtain ⟨⟨path', c⟩, he, rfl⟩ := List.mem_map.1 hmem
      obtain ⟨g, hg, hpath, hc⟩ := hadded path' c he
      exact ⟨g, hg, hpath, c, hc, List.mem_append_right _ (List.mem_map.2 ⟨_, he, rfl⟩)⟩

/-- Paying from explicit inputs is a search, and its keys are those of the groups it has coins of. -/
theorem payFromExplicit_ends {s : Store} {walletId : String} {groups : List CoinGroup}
    (hof : GroupsOf s walletId groups) {master : ExtendedKey}
    (hderives : ∀ g ∈ groups, ∃ key, DerivedKey.derive master g.path = .ok key)
    (explicit : List Utxo) (p : Payout) {pool : List (String × Coin)}
    (hpool : poolOf groups explicit = pool) (hspec : PoolOf groups explicit pool) :
    SearchEnds (p.attemptWith explicit pool) pool.length
      (fun k => SignedAt master (Touched groups (explicit ++ (pool.take k).map (·.2.utxo))))
      (payFromExplicit master groups explicit p) := by
  have hfirst : ∀ g ∈ groups.filter fun g => g.coins.any fun c =>
      explicit.any fun u => u.outpoint == c.outpoint, ∃ key, DerivedKey.derive master g.path = .ok key :=
    fun g hg => hderives g (List.mem_filter.1 hg).1
  obtain ⟨keys, hkeys⟩ := exists_addGroupKeys_eq_ok hfirst .empty
  have hown : ∀ path c, (path, c) ∈ pool → ∃ g ∈ groups, g.path = path ∧ c ∈ g.coins :=
    fun path c he => ((hspec.mem path c).1 he).1
  unfold payFromExplicit
  dsimp only
  rw [hkeys, ok_bind, hpool]
  refine (payFromPool_ends rfl (KeysAt.addGroupKeys hkeys) ?_).imp fun k _ _ =>
    SignedAt.congr fun path => (touched_append_iff hof ?_ path).symm
  · rintro ⟨path, c⟩ he
    obtain ⟨g, hg, rfl, -⟩ := hown path c he
    exact hderives g hg
  · exact fun path c he => hown path c (List.mem_of_mem_take he)

/-! ### What is made of an attempt -/

theorem Ledger.Payout.attempt_ok {p : Payout} {coins : List Utxo} {made : BuiltTransaction}
    (h : p.attempt coins = .ok made) :
    made.spent = coins ∧ made.transaction.inputs = coins.map TxBuilder.inputFor := by
  obtain ⟨taken, selection, signed, hchosen, hsigned, rfl, -⟩ := TxBuilder.finish_chosen rfl h
  obtain rfl : taken = [] :=
    List.prefix_nil.1 (FallingSort.apply_nil .byValue ▸ hchosen.optional)
  have hselected : selection.selected = coins := by
    rw [hchosen.selected, List.append_nil, Payout.spend, List.map_map]
    exact List.map_id coins
  obtain ⟨count, hsign⟩ := SigningKeys.empty.exists_sign_eq_signed
    ((p.spend coins).assemble selection).transaction selection.selected
  have htransaction : signed.1 = ((p.spend coins).assemble selection).transaction := by
    obtain rfl := Except.ok.inj (hsign.symm.trans hsigned)
    exact SigningKeys.signed_empty _ _
  refine ⟨(TxBuilder.spent_assemble _ _).trans hselected, ?_⟩
  rw [htransaction, TxBuilder.inputs_assemble, hselected]

/-- An input that spends this output is signed with the key at the path of a group that has one of the
coins, if a key of such a group unlocks the output.  Otherwise it has no witness. -/
def SignedIfKnown (groups : List CoinGroup) (keyAt : String → Except Error DerivedKey)
    (coins : List Utxo) (tx : Transaction) (i : TxIn) (prevout : TxOut) : Prop :=
  (∃ path key, Touched groups coins path ∧ keyAt path = .ok key ∧ key.script = prevout.script ∧
      i.witness = SigningKeys.keyWitness (.ofTransaction tx) i key prevout.value) ∨
    (∀ path key, Touched groups coins path → keyAt path = .ok key → key.script ≠ prevout.script) ∧
      i.witness = []

theorem exists_prevout?_eq_some {coins : List Utxo} {o : Outpoint}
    (h : o ∈ coins.map (·.outpoint)) : ∃ prevout, SigningKeys.prevout? coins o = some prevout := by
  obtain ⟨u, hu, rfl⟩ := List.mem_map.1 h
  have hfound : (coins.reverse.find? fun v => v.outpoint == u.outpoint).isSome = true :=
    List.find?_isSome.2 ⟨u, List.mem_reverse.2 hu, beq_self_eq_true _⟩
  obtain ⟨v, hv⟩ := Option.isSome_iff_exists.1 hfound
  exact ⟨v.txout, by rw [SigningKeys.prevout?, hv, Option.map_some]⟩

/-- If the stored scripts are the ones of the keys at their paths, an input that spends the output of a
script is signed with the key at the path of the script, once the group has one of the coins. -/
theorem SignedIfKnown.of_keyed {s : Store} {w : Wallet} (hkeyed : KeyedScripts s w)
    {groups : List CoinGroup} (hof : GroupsOf s w.id groups) {network : Network}
    {coins : List Utxo} {tx : Transaction} {i : TxIn} {prevout : TxOut}
    (h : SignedIfKnown groups (w.keyAt network) coins tx i prevout) {g : CoinGroup} (hg : g ∈ groups)
    (htouched : Touched groups coins g.path) {c : Coin} (hc : c ∈ g.coins)
    (hscript : prevout.script = c.script) :
    ∃ key, w.keyAt network g.path = .ok key ∧ key.script = c.script ∧
      i.witness = SigningKeys.keyWitness (.ofTransaction tx) i key prevout.value := by
  have hspendable := (hof.mem g.path c).1 ⟨g, hg, rfl, hc⟩
  obtain ⟨key, hkey, hunlocks⟩ := (hkeyed.unlocks hspendable).exists_keyAt network
  refine ⟨key, hkey, hunlocks, ?_⟩
  rcases h with ⟨path, key', ⟨g', hg', rfl, c', hc', -⟩, hkey', hunlocks', hwitness⟩ | ⟨hother, -⟩
  · -- the key that was found is the one of a coin with the same script
    have hspendable' := (hof.mem g'.path c').1 ⟨g', hg', rfl, hc'⟩
    obtain ⟨key'', hkey'', hscript'⟩ := (hkeyed.unlocks hspendable').exists_keyAt network
    obtain rfl : key' = key'' := Except.ok.inj (hkey'.symm.trans hkey'')
    have hpath := hspendable'.path
    rw [← hscript', hunlocks', hscript, hspendable.path] at hpath
    rw [← Option.some.inj hpath, hkey] at hkey'
    rw [hwitness, Except.ok.inj hkey']
  · exact absurd (hunlocks.trans hscript.symm) (hother g.path key htouched hkey)

/-- The transaction is the one of an attempt, signed as far as the keys are known. -/
structure Completes (s : Store) (w : Wallet) (network : Network) (groups : List CoinGroup)
    (coins : List Utxo) (made : BuiltTransaction) (created : CreatedTransaction) : Prop where
  /-- The inputs spend the coins in their order. -/
  previous : created.transaction.inputs.map (·.previous) = coins.map (·.outpoint)
  unsigned : created.transaction.unsigned = made.transaction.unsigned
  fee : created.fee = made.fee
  witnesses : ∀ i ∈ created.transaction.inputs, ∃ prevout,
    SigningKeys.prevout? coins i.previous = some prevout ∧
      SignedIfKnown groups (w.keyAt network) coins created.transaction i prevout
  /-- If the stored scripts are the ones of the keys at their paths, the inputs that spend outputs of
  the scripts of groups with one of the coins are signed. -/
  keyed : KeyedScripts s w → ∀ g ∈ groups, Touched groups coins g.path → ∀ c ∈ g.coins,
    ∀ i ∈ created.transaction.inputs, ∀ prevout,
      SigningKeys.prevout? coins i.previous = some prevout → prevout.script = c.script →
        ∃ key, w.keyAt network g.path = .ok key ∧ key.script = c.script ∧
          i.witness =
            SigningKeys.keyWitness (.ofTransaction created.transaction) i key prevout.value

theorem completes_of_signedAt {s : Store} {w : Wallet} {network : Network} {master : ExtendedKey}
    (hmaster : masterKey w.mnemonic network = .ok master) {groups : List CoinGroup}
    (hof : GroupsOf s w.id groups) {p : Payout} {coins : List Utxo} {made built : BuiltTransaction}
    (hmade : p.attempt coins = .ok made)
    (hsigned : SignedAt master (Touched groups coins) made built) (reported : List Coin)
    (script : Script) :
    Completes s w network groups coins made ⟨built.transaction, reported, script, built.fee⟩ := by
  obtain ⟨keys, hkeys, rfl⟩ := hsigned
  obtain ⟨hspent, hinputs⟩ := Payout.attempt_ok hmade
  have hunsigned : (keys.signed made.transaction made.spent).unsigned = made.transaction.unsigned :=
    keys.unsigned_signed _ _
  have hparts : SighashParts.ofTransaction (keys.signed made.transaction made.spent) =
      .ofTransaction made.transaction := by
    rw [← SighashParts.ofTransaction_unsigned, hunsigned, SighashParts.ofTransaction_unsigned]
  have hprevious : (keys.signed made.transaction made.spent).inputs.map (·.previous) =
      coins.map (·.outpoint) := by
    obtain ⟨count, hsign⟩ := keys.exists_sign_eq_signed made.transaction made.spent
    rw [SigningKeys.previous_sign hsign, hinputs, List.map_map]
    rfl
  suffices hwitnesses : ∀ i ∈ (keys.signed made.transaction made.spent).inputs, ∃ prevout,
      SigningKeys.prevout? coins i.previous = some prevout ∧ SignedIfKnown groups (w.keyAt network)
        coins (keys.signed made.transaction made.spent) i prevout by
    refine ⟨hprevious, hunsigned, rfl, hwitnesses, fun hkeyed g hg htouched c hc i hi prevout h => ?_⟩
    obtain ⟨prevout', h', hknown⟩ := hwitnesses i hi
    obtain rfl : prevout' = prevout := Option.some.inj (h'.symm.trans h)
    exact hknown.of_keyed hkeyed hof hg htouched hc
  intro i hi
  obtain ⟨prevout, hprevout⟩ := exists_prevout?_eq_some (hprevious ▸ List.mem_map_of_mem hi)
  refine ⟨prevout, hprevout, ?_⟩
  -- the input comes of one without a witness
  obtain ⟨input, hinput, rfl⟩ := List.mem_map.1 hi
  have hwitness : input.witness = [] := by
    rw [hinputs] at hinput
    obtain ⟨u, -, rfl⟩ := List.mem_map.1 hinput
    rfl
  have hsame := TxIn.previous_eq_of_unsigned
    (keys.unsigned_signedInput made.spent (.ofTransaction made.transaction) input)
  rw [hsame] at hprevout
  have hsigner : keys.signerOf? made.spent input =
      (keys.keyFor? prevout.script).map fun key => (key, prevout) := by
    rw [SigningKeys.signerOf?, hspent, hprevout]
  have hderive : w.keyAt network = DerivedKey.derive master := funext (keyAt_eq_derive hmaster)
  rw [hderive]
  rcases hkeys prevout.script with ⟨path, key, htouched, hkey, hscript, hfound⟩ | ⟨hother, hnone⟩
  · refine .inl ⟨path, key, htouched, hkey, hscript, ?_⟩
    rw [hfound] at hsigner
    rw [SigningKeys.signedInput, hsigner]
    show _ = SigningKeys.keyWitness (.ofTransaction (keys.signed made.transaction made.spent)) input
      key prevout.value
    rw [hparts]
    rfl
  · refine .inr ⟨hother, ?_⟩
    rw [hnone] at hsigner
    rw [SigningKeys.signedInput, hsigner]
    exact hwitness

/-! ### Building -/

/-- The paths that are stored with the scripts of a wallet can all be derived. -/
def PathsDerive (s : Store) (w : Wallet) : Prop :=
  ∀ row ∈ listedScripts s w.id, ∀ path, row.derivationPath = some path →
    ∃ network key, w.keyAt network path = .ok key

theorem KeyedScripts.pathsDerive {s : Store} {w : Wallet} (h : KeyedScripts s w) :
    PathsDerive s w := by
  intro row hrow path hpath
  obtain ⟨network, key, hkey, -⟩ := h row hrow path hpath
  exact ⟨network, key, hkey⟩

/-- Then they can be derived after the script for the change was. -/
theorem PathsDerive.prepared {l l' : Ledger} (hl : Reachable l) {w : Wallet} {next : NextScript}
    {groups : List CoinGroup} {master : ExtendedKey} (h : Prepared l l' w next groups master)
    (hderives : PathsDerive l.store w) : PathsDerive l'.store w := by
  obtain ⟨w', hw', network, key, hkey, -⟩ :=
    hl.informed.unlocks_of_nextOf hl.wellFormed.sound h.derived
  obtain rfl : w = w' := Option.some.inj (h.stored.symm.trans hw')
  intro row hrow path hpath
  rcases h.mem_listedScripts hl.wellFormed hrow with hbefore | rfl
  · exact hderives row hbefore path hpath
  · obtain rfl : next.path = path := Option.some.inj hpath
    exact ⟨network, key, hkey⟩

theorem PathsDerive.exists_derive_eq_ok {s : Store} {w : Wallet} (h : PathsDerive s w)
    {network : Network} {master : ExtendedKey} (hmaster : masterKey w.mnemonic network = .ok master)
    {groups : List CoinGroup} (hgroups : Groups s w.id groups) {g : CoinGroup} (hg : g ∈ groups) :
    ∃ key, DerivedKey.derive master g.path = .ok key := by
  obtain ⟨hnonempty, hcoins⟩ := hgroups g hg
  obtain ⟨c, hc⟩ := List.exists_mem_of_ne_nil _ hnonempty
  obtain ⟨row, hrow, -, hpath⟩ := mem_of_pathOf? (hcoins c hc).path
  obtain ⟨network', key, hkey⟩ := h row hrow g.path hpath
  refine ⟨key.on network, ?_⟩
  rw [← keyAt_eq_derive hmaster, w.keyAt_on network', hkey]
  rfl

namespace Ledger

/-- What building with explicit inputs comes to, if the coins of this pool may be added to them. -/
structure Funds (s : Store) (w : Wallet) (network : Network) (groups : List CoinGroup)
    (explicit : List Utxo) (pool : List (String × Coin)) (p : Payout)
    (result : Except Error (Option CreatedTransaction)) : Prop where
  /-- The first attempt that is not short makes the transaction. -/
  paid : ∀ k ≤ pool.length, (∀ j < k, Short (p.attemptWith explicit pool j)) →
    ∀ made, p.attemptWith explicit pool k = .ok made → ∃ created, result = .ok (some created) ∧
      created.changeScript = p.changeScript ∧
      Completes s w network groups (explicit ++ (pool.take k).map (·.2.utxo)) made created
  /-- There is no transaction if all attempts are short, and only then. -/
  exhausted : result = .ok none ↔ ∀ k ≤ pool.length, Short (p.attemptWith explicit pool k)
  /-- The first attempt that is not short may fail, and its error is the result. -/
  failed : ∀ k ≤ pool.length, (∀ j < k, Short (p.attemptWith explicit pool j)) →
    ∀ e, p.attemptWith explicit pool k = .error e → ¬ Short (p.attemptWith explicit pool k) →
      result = .error e

theorem funds_of_searchEnds {s : Store} {w : Wallet} {network : Network} {master : ExtendedKey}
    (hmaster : masterKey w.mnemonic network = .ok master) {groups : List CoinGroup}
    (hof : GroupsOf s w.id groups) {explicit : List Utxo} {pool : List (String × Coin)} {p : Payout}
    {found : Except Error (Option BuiltTransaction)}
    (h : SearchEnds (p.attemptWith explicit pool) pool.length
      (fun k => SignedAt master (Touched groups (explicit ++ (pool.take k).map (·.2.utxo)))) found) :
    Funds s w network groups explicit pool p (found.map fun built => built.map fun b =>
      ⟨b.transaction, spentCoins groups explicit b.spent, p.changeScript, b.fee⟩) := by
  cases h with
  | @paid k made built hk hshort hmade hsigned =>
      have hnot := not_short_of_ok hmade
      refine ⟨fun k' _ hshort' made' hmade' => ?_, iff_of_false nofun fun hall => hnot (hall k hk),
        fun k' _ hshort' e he hnot' => ?_⟩
      · obtain rfl := SearchEnds.first_unique hshort hnot hshort' (not_short_of_ok hmade')
        obtain rfl := Except.ok.inj (hmade.symm.trans hmade')
        exact ⟨_, rfl, rfl, completes_of_signedAt hmaster hof hmade hsigned _ _⟩
      · obtain rfl := SearchEnds.first_unique hshort hnot hshort' hnot'
        rw [hmade] at he
        cases he
  | exhausted hshort =>
      exact ⟨fun k hk _ made hmade => absurd (hshort k hk) (not_short_of_ok hmade),
        iff_of_true rfl hshort, fun k hk _ e _ hnot => absurd (hshort k hk) hnot⟩
  | @failed k e hk hshort herror hnot =>
      refine ⟨fun k' _ hshort' made' hmade' => ?_, iff_of_false nofun fun hall => hnot (hall k hk),
        fun k' _ hshort' e' he' hnot' => ?_⟩
      · obtain rfl := SearchEnds.first_unique hshort hnot hshort' (not_short_of_ok hmade')
        rw [hmade'] at herror
        cases herror
      · obtain rfl := SearchEnds.first_unique hshort hnot hshort' hnot'
        obtain rfl := Except.error.inj (he'.symm.trans herror)
        rfl

theorem Payout.exists_attempt_eq_ok {p : Payout} {coins : List Utxo} (houtputs : p.outputs ≠ [])
    {fee : Float32}
    (hfee : TxBuilder.outputFees p.feeRate 0 (p.feeRate.feeFor headerWeight) p.outputs = .ok fee)
    (hpays : (p.spend coins).outgoing + wholeSat (feeAfter p.feeRate fee (coins.map .ofKeyHash)) ≤
      totalValue (coins.map .ofKeyHash)) : ∃ made, p.attempt coins = .ok made := by
  obtain ⟨selection, hselection⟩ : ∃ selection, largestFirst (coins.map .ofKeyHash) [] p.feeRate
      (p.spend coins).outgoing fee = .ok selection :=
    exists_largestFirstBy_eq_ok (coins.map .ofKeyHash) [] (by simpa using hpays)
  exact TxBuilder.exists_finish_eq_ok (b := p.spend coins) houtputs hfee hselection

theorem Payout.short_of_lt {p : Payout} {coins : List Utxo} (houtputs : p.outputs ≠ [])
    {fee : Float32}
    (hfee : TxBuilder.outputFees p.feeRate 0 (p.feeRate.feeFor headerWeight) p.outputs = .ok fee)
    (hlt : totalValue (coins.map .ofKeyHash) <
      (p.spend coins).outgoing + wholeSat (feeAfter p.feeRate fee (coins.map .ofKeyHash))) :
    Short (p.attempt coins) := by
  have hselect : largestFirst (coins.map .ofKeyHash) [] p.feeRate (p.spend coins).outgoing fee =
      .error (.insufficientFunds ((p.spend coins).outgoing +
        wholeSat (feeAfter p.feeRate fee (coins.map .ofKeyHash)))
          (totalValue (coins.map .ofKeyHash))) := by
    unfold largestFirst largestFirstBy
    simp only [FallingSort.apply_nil, foldl_take, takeUntilPaid, UInt64.zero_add, List.append_nil]
    exact if_pos hlt
  exact ⟨_, _, TxBuilder.finish_eq_error (b := p.spend coins) houtputs hfee hselect⟩

/-- **Paying from explicit inputs.**  Let the stored paths of a wallet of a reachable ledger derive, and
let there be explicit inputs.  If the script for the change cannot be derived, building fails with this
error.  Otherwise take the coins of the wallet's groups, as they are listed then, that are no explicit
inputs, in the order of their paths and of the keys of their outpoints.  Building makes one attempt
after the other, with more and more of these coins behind the explicit inputs.  It makes the
transaction of the first attempt that is not short of coins, or fails with the error of this attempt.
There is no transaction if all attempts are short, and only then.  An input is signed just if the output
that it spends is unlocked by the key at the path of a group that has one of the coins. -/
theorem funds_of_buildTransaction {l : Ledger} (hl : Reachable l) {w : Wallet}
    (hw : record? Wallet l.store w.id = some w) (hderives : PathsDerive l.store w)
    (outputs : List TxOut) (feeRate : FeeRate) {explicit : List Utxo} (hexplicit : explicit ≠ [])
    (order : CoinOrder) :
    (∀ e l₁, l.run (deriveScript w.id) = (.error e, l₁) →
      l.run (buildTransaction w.id outputs feeRate explicit order) = (.error e, l₁)) ∧
    ∀ script l₁, l.run (deriveScript w.id) = (.ok script, l₁) → ∃ groups pool result l',
      spendableGroups l₁.store w.id = .ok groups ∧ PoolOf groups explicit pool ∧
      l.run (buildTransaction w.id outputs feeRate explicit order) = (result, l') ∧
      Funds l₁.store w l.network groups explicit pool ⟨outputs, script, feeRate⟩ result := by
  refine ⟨fun e l₁ hderive =>
    run_buildTransaction_error hl hw hderive outputs feeRate (.inr hexplicit) order,
    fun script l₁ hderive => ?_⟩
  obtain ⟨l', next, groups, master, rfl, hstore, hprepared, hrun⟩ :=
    exists_run_buildTransaction_derived hl hw hderive outputs feeRate explicit (.inr hexplicit) order
  have hs' : WellFormed l'.store := hl.wellFormed.commit hprepared.committed
  have hspec := poolOf_spec hs' hprepared.listed explicit
  rw [if_neg (by simpa using hexplicit)] at hrun
  have hends := payFromExplicit_ends hprepared.offered
    (fun g hg => (hderives.prepared hl hprepared).exists_derive_eq_ok hprepared.unlocked
      hprepared.offered.groups hg) explicit ⟨outputs, next.script, feeRate⟩ rfl hspec
  rw [← hstore]
  exact ⟨groups, _, _, l', hprepared.listed, hspec, hrun,
    funds_of_searchEnds hprepared.unlocked hprepared.offered hends⟩

/-- The foreign coin of the example. -/
def foreignCoin : Utxo := ⟨⟨repeatedTxid 3, 0⟩, ⟨1000, ⟨[81]⟩⟩⟩

theorem foreignCoin_outpoint_ne (script : Script) (value : UInt64) :
    foreignCoin.outpoint ≠ (paidCoin script value).outpoint :=
  show (⟨repeatedTxid 3, 0⟩ : Outpoint) ≠ ⟨repeatedTxid 1, 0⟩ by decide

/-- The foreign coin alone is too little to pay 5000. -/
theorem totalValue_lt_of_foreignCoin :
    totalValue [.ofKeyHash foreignCoin] < sumAmounts [5000] + wholeSat
      (FeeRate.minimumRelay.feeFor headerWeight +
        FeeRate.minimumRelay.feeFor (TxOut.weight ⟨5000, ⟨[81]⟩⟩) +
          FeeRate.minimumRelay.feeFor (inputWeight + keyHashSatisfactionWeight)) := by
  decide +kernel

/-- With a coin of 5600 it is enough. -/
theorem le_totalValue_of_foreignCoin :
    sumAmounts [5000] + wholeSat (FeeRate.minimumRelay.feeFor headerWeight +
      FeeRate.minimumRelay.feeFor (TxOut.weight ⟨5000, ⟨[81]⟩⟩) +
        FeeRate.minimumRelay.feeFor (inputWeight + keyHashSatisfactionWeight) +
          FeeRate.minimumRelay.feeFor (inputWeight + keyHashSatisfactionWeight)) ≤
      sumAmounts [1000, 5600] := by
  decide +kernel

/-- A wallet pays 5000 from a foreign coin of 1000, and its own coin of 5600 is added. -/
theorem funds_of_foreignCoin :
    ∃ (l l' : Ledger) (w : Wallet) (c : Coin) (created : CreatedTransaction), Reachable l ∧
      record? Wallet l.store w.id = some w ∧ PathsDerive l.store w ∧
      record? Coin l.store c.outpoint = some c ∧
      l.run (buildTransaction w.id [⟨5000, ⟨[81]⟩⟩] .minimumRelay [foreignCoin]) =
        (.ok (some created), l') ∧
      created.transaction.inputs.map (·.previous) = [foreignCoin.outpoint, c.outpoint] := by
  obtain ⟨l, w, next, h⟩ := exists_paidWallet 5600
  have hderives := h.keyed.pathsDerive
  obtain ⟨l₁, hderive⟩ := exists_run_deriveScript_eq_ok h.reachable.wellFormed h.unwatched h.derivable
  have hexplicit : [foreignCoin] ≠ [] := List.cons_ne_nil _ _
  obtain ⟨-, hfunds⟩ := funds_of_buildTransaction h.reachable h.stored hderives [⟨5000, ⟨[81]⟩⟩]
    .minimumRelay hexplicit .listed
  obtain ⟨groups, pool, result, l', hgroups, hpool, hrun, hfunds⟩ := hfunds next.script l₁ hderive
  -- the coin of the wallet is all that may be added
  obtain ⟨_, groups', _, hprepared, -⟩ := exists_run_buildTransaction h.reachable h.unwatched h.stored
    h.derivable [⟨5000, ⟨[81]⟩⟩] (List.cons_ne_nil _ _) .minimumRelay [foreignCoin] .listed
  obtain rfl := hprepared.groups_eq h.reachable hderive hgroups
  obtain ⟨path, rest, rfl⟩ := hpool.exists_eq_cons (h.groupCoins_eq hprepared)
    (fun u hu => List.mem_singleton.1 hu ▸ foreignCoin_outpoint_ne next.script 5600)
  have hshort : Short (Payout.attemptWith ⟨[⟨5000, ⟨[81]⟩⟩], next.script, .minimumRelay⟩ [foreignCoin]
      ((path, paidCoin next.script 5600) :: rest) 0) :=
    Payout.short_of_lt (List.cons_ne_nil _ _) rfl totalValue_lt_of_foreignCoin
  obtain ⟨made, hmade⟩ : ∃ made, Payout.attempt ⟨[⟨5000, ⟨[81]⟩⟩], next.script, .minimumRelay⟩
      [foreignCoin, (paidCoin next.script 5600).utxo] = .ok made :=
    Payout.exists_attempt_eq_ok (List.cons_ne_nil _ _) rfl le_totalValue_of_foreignCoin
  obtain ⟨created, rfl, -, hcompletes⟩ := hfunds.paid 1 (Nat.succ_le_succ (Nat.zero_le _))
    (fun j hj => by rwa [Nat.lt_one_iff.1 hj]) made hmade
  exact ⟨l, l', w, paidCoin next.script 5600, created, h.reachable, h.stored, hderives,
    (h.coins _ _).2 ⟨rfl, rfl⟩, hrun, hcompletes.previous⟩

end Ledger

end CoinLedger
