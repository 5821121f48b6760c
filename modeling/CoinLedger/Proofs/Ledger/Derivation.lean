import CoinLedger.Proofs.Ledger.Moves

/-! # Derivation is unique and leaves no gaps

`Progress` ties the store and what calls have derived to the ledger at the start of a run.  The index
of a wallet is behind the one at the start by the number of its commits, and what a call has derived
is the script with the next index: nobody else can commit for a wallet while its lock is held.
`invariants_of_run` says that this holds whatever moves were made, in any order.

The order in which wallets take turns is forgotten by the store, `Progress.store_eq`, since their
scripts make different rows, or the same row with the same value.  `commits_of_run` puts all of this
together. -/

namespace CoinLedger.Ledger.Derivations

/-! ### The store -/

theorem commitsOf_append {d d' : Derivations} {c : Commit} (h : d'.log = d.log ++ [c])
    (id : String) :
    d'.commitsOf id = if c.walletId = id then d.commitsOf id ++ [c] else d.commitsOf id := by
  rw [commitsOf, h, List.filter_append, commitsOf]
  by_cases hid : c.walletId = id
  · simp [hid]
  · simp [hid]

/-- A commit of a wallet was there before, or it is the one that comes last. -/
theorem getElem?_commitsOf_append {d d' : Derivations} {c c' : Commit} (h : d'.log = d.log ++ [c])
    {id : String} {k : Nat} (hc' : (d'.commitsOf id)[k]? = some c') :
    (d.commitsOf id)[k]? = some c' ∨
      c.walletId = id ∧ k = (d.commitsOf id).length ∧ c' = c := by
  rw [commitsOf_append h] at hc'
  by_cases hid : c.walletId = id
  · rw [if_pos hid] at hc'
    rcases Nat.lt_or_ge k (d.commitsOf id).length with hk | hk
    · rw [List.getElem?_append_left hk] at hc'
      exact .inl hc'
    · rw [List.getElem?_append_right hk, List.getElem?_singleton] at hc'
      split at hc'
      · exact .inr ⟨hid, by omega, (Option.some.inj hc').symm⟩
      · cases hc'
  · rw [if_neg hid] at hc'
    exact .inl hc'

/-- Commits again what was committed. -/
def replay (s : Store) (log : List Commit) : Except Error Store :=
  log.foldlM (fun s c => CoinLedger.commit s (c.next.batch c.walletId)) s

/-- What the ledger and the calls have to do with the ledger at the start. -/
structure Progress (l : Ledger) (d : Derivations) : Prop where
  sound : Sound Wallet d.ledger.store
  masterOf : ∀ w, record? Wallet l.store w.id = some w → d.ledger.masterOf w = l.masterOf w
  /-- The index of a wallet is raised by each commit. -/
  wallets : ∀ id, record? Wallet d.ledger.store id =
    (record? Wallet l.store id).map fun w => w.advance (d.commitsOf id).length
  /-- Nobody has committed for the wallet since the next script was derived. -/
  derived : ∀ {i : Nat} {id : String} {next : NextScript}, d.calls[i]? = some ⟨id, .derived next⟩ →
    ∃ w, record? Wallet l.store id = some w ∧ IsNext l w (d.commitsOf id).length next
  committed : ∀ {id : String} {k : Nat} {c : Commit}, (d.commitsOf id)[k]? = some c →
    ∃ w, record? Wallet l.store id = some w ∧ IsNext l w k c.next
  rows : ∀ key, key.head? ≠ some EntityKind.wallet.byte →
    d.ledger.store.get? key =
      (l.store.get? key).or (d.log.findSome? fun c => c.next.row? c.walletId key)
  replay : replay l.store d.log = .ok d.ledger.store

/-- What is derived was derived before, if the call that moves derives nothing. -/
theorem derived_of_enter {d d' : Derivations} {i : Nat} {id : String} {phase phase' : Phase}
    (hcall : d.calls[i]? = some ⟨id, phase⟩) (hcalls : d'.calls = (d.enter i phase').calls)
    (hphase' : ∀ next, phase' ≠ .derived next) {j : Nat} {id' : String} {next : NextScript}
    (h : d'.calls[j]? = some ⟨id', .derived next⟩) :
    j ≠ i ∧ d.calls[j]? = some ⟨id', .derived next⟩ := by
  rw [hcalls] at h
  have hj : j ≠ i := by
    rintro rfl
    rw [calls_enter_self hcall] at h
    exact hphase' next (Call.mk.inj (Option.some.inj h)).2
  rw [calls_enter_of_ne hj] at h
  exact ⟨hj, h⟩

namespace Progress

variable {l : Ledger} {d d' : Derivations}

theorem start (hs : Sound Wallet l.store) (walletIds : List String) :
    Progress l (start l walletIds) where
  sound := hs
  masterOf _ _ := rfl
  wallets id := by
    have hnone : ((Derivations.start l walletIds).commitsOf id).length = 0 := rfl
    simp only [hnone, Wallet.advance_zero]
    exact Option.map_id'.symm
  derived {i id next} h := by
    rw [Derivations.start, List.getElem?_map] at h
    obtain ⟨_, -, heq⟩ := Option.map_eq_some_iff.1 h
    cases (Call.mk.inj heq).2
  committed h := nomatch h
  rows key _ := Option.or_none.symm
  replay := rfl

theorem bound (h : Progress l d) {id : String} {w : Wallet}
    (hw : record? Wallet l.store id = some w) :
    w.lastIndex.toNat + (d.commitsOf id).length < UInt32.size := by
  cases hk : (d.commitsOf id).length with
  | zero => exact w.lastIndex.toNat_lt
  | succ k =>
      have hlt : k < (d.commitsOf id).length := by omega
      obtain ⟨w', hw', hnext⟩ := h.committed (List.getElem?_eq_getElem hlt)
      obtain rfl : w = w' := Option.some.inj (hw.symm.trans hw')
      exact hnext.lt

theorem record?_of_start (h : Progress l d) {id : String} {w : Wallet}
    (hw : record? Wallet l.store id = some w) :
    record? Wallet d.ledger.store id = some (w.advance (d.commitsOf id).length) := by
  rw [h.wallets, hw]
  rfl

/-- Nothing is committed. -/
theorem keep (h : Progress l d) (hlearned : Learned d.ledger d'.ledger) (hlog : d'.log = d.log)
    (hderived : ∀ {i : Nat} {id : String} {next : NextScript}, d'.calls[i]? = some ⟨id, .derived next⟩ →
      ∃ w, record? Wallet l.store id = some w ∧ IsNext l w (d.commitsOf id).length next) :
    Progress l d' := by
  have hcommits : ∀ id, d'.commitsOf id = d.commitsOf id := fun id => by
    rw [commitsOf, hlog, commitsOf]
  constructor
  · exact hlearned.store ▸ h.sound
  · intro w hw
    have hstored : record? Wallet d.ledger.store w.id =
        some (w.advance (d.commitsOf w.id).length) := h.record?_of_start hw
    have hsame : d'.ledger.masterOf w = d.ledger.masterOf w :=
      hlearned.masterOf (w.advance _) hstored
    exact hsame.trans (h.masterOf w hw)
  · intro id
    rw [hlearned.store, h.wallets, hcommits]
  · intro i id next hcall
    rw [hcommits]
    exact hderived hcall
  · intro id k c hc
    rw [hcommits] at hc
    exact h.committed hc
  · intro key hkey
    rw [hlearned.store, h.rows key hkey, hlog]
  · rw [hlog, hlearned.store]
    exact h.replay

theorem masterOf_eq (h : Progress l d) {id : String} {w : Wallet}
    (hw : record? Wallet l.store id = some w) : d.ledger.masterOf w = l.masterOf w := by
  have hid : (w.advance (d.commitsOf id).length).id = id := h.sound.key_eq (h.record?_of_start hw)
  obtain rfl : w.id = id := hid
  exact h.masterOf w hw

/-- What a call derives is the next script of its wallet. -/
theorem isNext (h : Progress l d) {id : String} {next : NextScript}
    (hnext : d.ledger.nextOf id = .ok next) :
    ∃ w, record? Wallet l.store id = some w ∧ IsNext l w (d.commitsOf id).length next := by
  obtain ⟨_, hstored, hisNext⟩ := isNext_of_nextOf h.sound hnext
  rw [h.wallets] at hstored
  obtain ⟨w, hw, rfl⟩ := Option.map_eq_some_iff.1 hstored
  exact ⟨w, hw, hisNext.of_advance (h.masterOf_eq hw) (h.bound hw)⟩

/-- A call commits what it has derived. -/
theorem commit (h : Progress l d) (hlocked : Locked d) {i : Nat} {id : String} {next : NextScript}
    {s : Store} (hcall : d.calls[i]? = some ⟨id, .derived next⟩)
    (hcommit : CoinLedger.commit d.ledger.store (next.batch id) = .ok s)
    (hledger : d'.ledger = { d.ledger with store := s })
    (hlog : d'.log = d.log ++ [⟨i, id, next⟩])
    (hcalls : d'.calls = (d.enter i (.committed next)).calls) : Progress l d' := by
  obtain ⟨w, hw, hnext⟩ := h.derived hcall
  have hstored := h.record?_of_start hw
  have hlt : (w.advance (d.commitsOf id).length).lastIndex < next.index := by
    rw [UInt32.lt_iff_toNat_lt, Wallet.toNat_lastIndex_advance (h.bound hw), hnext.index]
    omega
  obtain ⟨hsound, hwallets, hrows⟩ := NextScript.commit_batch h.sound hcommit
  have hwallets := hwallets _ hstored hlt
  have hcommits := commitsOf_append hlog
  have hstore : d'.ledger.store = s := by rw [hledger]
  constructor
  · exact hstore ▸ hsound
  · intro w' hw'
    rw [hledger]
    exact h.masterOf w' hw'
  · intro id'
    rw [hstore, hwallets, hcommits]
    by_cases hid : id = id'
    · subst hid
      rw [if_pos rfl, if_pos rfl, hnext.advance_succ, hw, List.length_append]
      rfl
    · rw [if_neg hid, if_neg hid, h.wallets]
  · intro j id' next' hj
    obtain ⟨hne, hj⟩ := derived_of_enter hcall hcalls nofun hj
    -- two calls that are about to commit hold two locks
    have hid : id ≠ id' := by
      rintro rfl
      exact hne (hlocked.unique ⟨_, hj, rfl⟩ ⟨_, hcall, rfl⟩)
    rw [hcommits, if_neg hid]
    exact h.derived hj
  · intro id' k c hc
    rcases getElem?_commitsOf_append hlog hc with hc | ⟨rfl, rfl, rfl⟩
    · exact h.committed hc
    · exact ⟨w, hw, hnext⟩
  · intro key hkey
    rw [hstore, hrows key hkey, h.rows key hkey, hlog, List.findSome?_append, Option.or_assoc,
      List.findSome?_singleton]
  · have hreplay := h.replay
    unfold Derivations.replay at hreplay ⊢
    rw [hlog, List.foldlM_append, hreplay, hstore, ok_bind, List.foldlM_cons, hcommit]
    rfl

theorem change (h : Progress l d) (hlocked : Locked d) (hchange : Change d d') :
    Progress l d' := by
  cases hchange with
  | lock hcall _ =>
      refine h.keep (.refl _) rfl fun hj => h.derived (derived_of_enter hcall rfl ?_ hj).2
      exact nofun
  | @derive i id next l' hcall hnext hlearned =>
      refine h.keep hlearned rfl ?_
      intro j id' next' hj
      by_cases hji : j = i
      · subst hji
        rw [calls_enter_self (d := { d with ledger := l' }) hcall] at hj
        obtain ⟨rfl, hphase⟩ := Call.mk.inj (Option.some.inj hj)
        obtain rfl := Phase.derived.inj hphase
        exact h.isNext hnext
      · rw [calls_enter_of_ne hji] at hj
        exact h.derived hj
  | commit hcall hcommit => exact h.commit hlocked hcall hcommit rfl rfl rfl
  | giveUp hcall _ hended hlearned =>
      refine h.keep hlearned rfl fun hj => h.derived (derived_of_enter hcall rfl ?_ hj).2
      rintro next rfl
      rcases hended with ⟨e, he⟩ | he <;> cases he
  | withdraw hcall =>
      refine h.keep (.refl _) rfl fun hj => h.derived (derived_of_enter hcall rfl ?_ hj).2
      exact nofun

end Progress

/-- A wallet has a next script after any commits unless it has used all indexes. -/
theorem Progress.exists_nextOf {l : Ledger} {d : Derivations} (h : Progress l d) {id : String}
    {w : Wallet} {master : Key.ExtendedKey} {k : Nat} {p : Key.Path}
    (hw : record? Wallet l.store id = some w) (hmaster : l.masterOf w = .ok master)
    (hk : (d.commitsOf id).length = k) (hindex : w.lastIndex.toNat + k + 1 < UInt32.size)
    (hpath : Key.Path.parse? (w.pathFor (toString (w.lastIndex.toNat + k + 1))) = some p)
    (hdepth : master.depth + p.length ≤ 255) : ∃ next, d.ledger.nextOf id = .ok next := by
  have hstored : record? Wallet d.ledger.store id = some (w.advance k) :=
    hk ▸ h.record?_of_start hw
  have htoNat : (w.advance k).lastIndex.toNat = w.lastIndex.toNat + k :=
    Wallet.toNat_lastIndex_advance (by omega)
  refine exists_nextOf_eq_ok h.sound hstored ?_ ((h.masterOf_eq hw).trans hmaster) ?_ hdepth
  · rw [htoNat]
    exact hindex
  · rw [htoNat]
    exact hpath

/-! ### Runs -/

/-- The invariants hold after every run. -/
theorem invariants_of_run {l : Ledger} {walletIds : List String} {moves : List Move}
    {d : Derivations} (hs : Sound Wallet l.store) (hrun : (start l walletIds).run moves = some d) :
    Locked d ∧ Logged d ∧ Progress l d :=
  run_induction (P := fun d => Locked d ∧ Logged d ∧ Progress l d) (fun _ h => h.2.2.sound)
    (fun _ _ ⟨hlocked, hlogged, hprogress⟩ hchange =>
      ⟨hlocked.change hchange, hlogged.change hchange, hprogress.change hlocked hchange⟩)
    hrun ⟨.start l walletIds, .start l walletIds, .start hs walletIds⟩

/-! ### The order of commits -/

section

variable {α β κ : Type} [DecidableEq κ] (key : α → κ) {f : α → Option β} {xs ys : List α}

/-- What is found first in a list is found first in its class. -/
theorem findSome?_filter_eq_some {v : β} (h : xs.findSome? f = some v) :
    ∃ x ∈ xs, f x = some v ∧ (xs.filter fun y => key y == key x).findSome? f = some v := by
  obtain ⟨before, x, after, rfl, hx, hbefore⟩ := List.findSome?_eq_some_iff.1 h
  refine ⟨x, by simp, hx, ?_⟩
  have hnone : (before.filter fun y => key y == key x).findSome? f = none :=
    List.findSome?_eq_none_iff.2 fun y hy => hbefore y (List.mem_filter.1 hy).1
  rw [List.filter_append, List.findSome?_append, hnone, Option.none_or,
    List.filter_cons_of_pos (by simp), List.findSome?_cons, hx]

/-- How classes take turns does not matter to what is found first, if different classes agree. -/
theorem findSome?_eq_of_classes
    (hclass : ∀ k, (xs.filter fun x => key x == k).findSome? f =
      (ys.filter fun y => key y == k).findSome? f)
    (hagree : ∀ x ∈ xs, ∀ y ∈ ys, key x ≠ key y → ∀ v v', f x = some v → f y = some v' → v = v') :
    xs.findSome? f = ys.findSome? f := by
  cases hxs : xs.findSome? f with
  | none =>
      rw [List.findSome?_eq_none_iff] at hxs
      refine (List.findSome?_eq_none_iff.2 fun y hy => ?_).symm
      have hnone : (xs.filter fun x => key x == key y).findSome? f = none :=
        List.findSome?_eq_none_iff.2 fun x hx => hxs x (List.mem_filter.1 hx).1
      rw [hclass, List.findSome?_eq_none_iff] at hnone
      exact hnone y (List.mem_filter.2 ⟨hy, beq_self_eq_true _⟩)
  | some v =>
      obtain ⟨x, hx, hxv, hfirst⟩ := findSome?_filter_eq_some key hxs
      rw [hclass] at hfirst
      cases hys : ys.findSome? f with
      | none =>
          rw [List.findSome?_eq_none_iff] at hys
          have hnone : (ys.filter fun y => key y == key x).findSome? f = none :=
            List.findSome?_eq_none_iff.2 fun y hy => hys y (List.mem_filter.1 hy).1
          cases hfirst.symm.trans hnone
      | some v' =>
          obtain ⟨y, hy, hyv, hfirst'⟩ := findSome?_filter_eq_some key hys
          by_cases hxy : key x = key y
          · rw [hxy, hfirst'] at hfirst
            exact hfirst.symm
          · exact congrArg some (hagree x hx y hy hxy v v' hxv hyv)

end

namespace Progress

variable {l : Ledger} {d d' : Derivations}

theorem isNext_getElem (h : Progress l d) {id : String} {w : Wallet}
    (hw : record? Wallet l.store id = some w) {k : Nat} (hk : k < (d.commitsOf id).length) :
    IsNext l w k (d.commitsOf id)[k].next := by
  obtain ⟨w', hw', hnext⟩ := h.committed (List.getElem?_eq_getElem hk)
  obtain rfl : w = w' := Option.some.inj (hw.symm.trans hw')
  exact hnext

theorem length_script (h : Progress l d) {c : Commit} (hc : c ∈ d.log) :
    c.next.script.bytes.length = 22 := by
  have hmem : c ∈ d.commitsOf c.walletId := List.mem_filter.2 ⟨hc, beq_self_eq_true _⟩
  obtain ⟨k, hk, hget⟩ := List.getElem_of_mem hmem
  obtain ⟨w, -, hnext⟩ := h.committed (List.getElem?_eq_some_iff.2 ⟨hk, hget⟩)
  obtain ⟨p, -, hscript⟩ := hnext.script
  exact NextScript.length_of_scriptAt hscript

/-- The scripts of a wallet are determined by their number. -/
theorem map_next_eq (h : Progress l d) (h' : Progress l d') {id : String}
    (hlength : (d'.commitsOf id).length = (d.commitsOf id).length) :
    (d'.commitsOf id).map Commit.next = (d.commitsOf id).map Commit.next := by
  refine List.ext_getElem (by simp [hlength]) ?_
  intro k hk' hk
  rw [List.length_map] at hk hk'
  rw [List.getElem_map, List.getElem_map]
  obtain ⟨w, hw, hnext⟩ := h.committed (List.getElem?_eq_getElem hk)
  exact (h'.isNext_getElem hw hk').unique hnext

theorem findSome?_commitsOf (d : Derivations) (id : String) (key : Bytes) :
    (d.commitsOf id).findSome? (fun c => c.next.row? c.walletId key) =
      ((d.commitsOf id).map Commit.next).findSome? fun next => next.row? id key := by
  rw [List.findSome?_map]
  have hids : ∀ c ∈ d.commitsOf id, c.walletId = id := fun c hc => by
    simpa using (List.mem_filter.1 hc).2
  generalize d.commitsOf id = commits at hids
  induction commits with
  | nil => rfl
  | cons c commits ih =>
      obtain ⟨hc, hcommits⟩ := List.forall_mem_cons.1 hids
      rw [List.findSome?_cons, List.findSome?_cons, ih hcommits, hc]
      rfl

/-- The store depends on how many scripts were committed for each wallet, and on nothing else. -/
theorem store_eq (h : Progress l d) (h' : Progress l d')
    (hlength : ∀ id, (d'.commitsOf id).length = (d.commitsOf id).length) :
    d'.ledger.store = d.ledger.store := by
  refine h'.sound.ext h.sound ?_ ?_
  · intro id
    rw [h'.wallets, h.wallets, hlength]
  · intro key hkey
    rw [h'.rows key hkey, h.rows key hkey]
    congr 1
    apply findSome?_eq_of_classes Commit.walletId
    · intro id
      have hclasses := findSome?_commitsOf d' id key
      rw [h.map_next_eq h' (hlength id), ← findSome?_commitsOf d id key] at hclasses
      exact hclasses
    · intro c hc c' hc' hid v v' hv hv'
      exact NextScript.row?_agree hid (h'.length_script hc) (h.length_script hc') hv hv'

end Progress

/-- **Derivation is unique and leaves no gaps, whatever calls run at the same time.**  After any run
of moves, the scripts that were committed for a wallet have the indexes behind the one at the start,
in the order of the commits, and the index of the wallet is behind it by their number; if the
template of the wallet is one that wallets are made with, they are derived at different paths, so that
two of them are the same only if keys at different paths have the same script.  The log holds what
calls have committed, each call once, and the store is what these commits alone make of the store at
the start.  A lock is held by one call; a waiting call can take it unless a call of the same wallet
holds it, and a call that holds it can go on.  Any other run from the same ledger after which each
wallet has as many commits ends with the same store. -/
theorem commits_of_run {l : Ledger} {walletIds : List String} {moves : List Move} {d : Derivations}
    (hs : Sound Wallet l.store) (hrun : (start l walletIds).run moves = some d) :
    (∀ id w, requireWallet l.store id = .ok w →
      (d.commitsOf id).map (fun c => c.next.index.toNat) =
          List.range' (w.lastIndex.toNat + 1) (d.commitsOf id).length ∧
        (∃ w', requireWallet d.ledger.store id = .ok w' ∧
          w'.lastIndex.toNat = w.lastIndex.toNat + (d.commitsOf id).length ∧
          w' = { w with lastIndex := w'.lastIndex }) ∧
        (Key.checkTemplate w.derivationPath = .ok () → (d.commitsOf id).Pairwise fun a b =>
          ∃ p q, Key.Path.parse? a.next.path = some p ∧ Key.Path.parse? b.next.path = some q ∧
            p ≠ q ∧ l.scriptAt w p = .ok a.next.script ∧ l.scriptAt w q = .ok b.next.script)) ∧
      (∀ id e, requireWallet l.store id = .error e → d.commitsOf id = []) ∧
      (∀ c, c ∈ d.log ↔ d.calls[c.call]? = some ⟨c.walletId, .committed c.next⟩) ∧
      (d.log.map Commit.call).Nodup ∧
      replay l.store d.log = .ok d.ledger.store ∧
      (∀ i j id, d.Holds i id → d.Holds j id → i = j) ∧
      (∀ i id, d.calls[i]? = some ⟨id, .waiting⟩ →
        ((d.step (.lock i)).isSome = true ↔ ∀ j, ¬d.Holds j id)) ∧
      (∀ i id, d.Holds i id →
        (d.step (.derive i)).isSome = true ∨ (d.step (.commit i)).isSome = true) ∧
      ∀ walletIds' moves' d', (start l walletIds').run moves' = some d' →
        (∀ id, (d'.commitsOf id).length = (d.commitsOf id).length) →
        d'.ledger.store = d.ledger.store := by
  obtain ⟨hlocked, hlogged, h⟩ := invariants_of_run hs hrun
  refine ⟨?_, ?_, hlogged.mem_log_iff, hlogged.nodup, h.replay,
    fun i j id => hlocked.unique, fun i id => isSome_lock_iff hlocked,
    fun i id => isSome_step_of_holds, ?_⟩
  · intro id w hw
    have hrecord : record? Wallet l.store id = some w := by
      rw [requireWallet_eq hs] at hw
      split at hw
      · rename_i hrecord
        rw [hrecord, Except.ok.inj hw]
      · cases hw
    refine ⟨?_, ⟨w.advance (d.commitsOf id).length, ?_, ?_, rfl⟩, ?_⟩
    · refine List.ext_getElem (by simp) ?_
      intro k hk hk'
      rw [List.length_map] at hk
      rw [List.getElem_map, List.getElem_range', (h.isNext_getElem hrecord hk).index]
      omega
    · rw [requireWallet_eq h.sound, h.wallets, hrecord]
      rfl
    · exact Wallet.toNat_lastIndex_advance (h.bound hrecord)
    · intro htemplate
      rw [List.pairwise_iff_getElem]
      intro i j hi hj hij
      exact (h.isNext_getElem hrecord hi).path_ne htemplate (h.isNext_getElem hrecord hj)
        (Nat.ne_of_lt hij)
  · intro id e hnone
    apply List.eq_nil_iff_forall_not_mem.2
    intro c hc
    obtain ⟨k, hk, -⟩ := List.getElem_of_mem hc
    obtain ⟨w, hw, -⟩ := h.committed (List.getElem?_eq_getElem hk)
    rw [requireWallet_eq hs, hw] at hnone
    cases hnone
  · intro walletIds' moves' d' hrun' hlength
    exact h.store_eq (invariants_of_run hs hrun').2.2 hlength

/-! ### A run of three calls -/

/-- A wallet that has made no script yet. -/
def newWallet : Wallet := ⟨"w", "", "", "m/84h/*", 0, .zero, []⟩

/-- A ledger with one wallet, whose master key it has computed. -/
def oneWalletLedger : Ledger :=
  ⟨putEntity ByteMap.empty newWallet, .regtest, [("w", ⟨.regtest, 0, 1, []⟩)], none⟩

theorem wellFormed_oneWalletLedger : WellFormed oneWalletLedger.store :=
  wellFormed_empty.putEntity newWallet

theorem record?_oneWalletLedger : record? Wallet oneWalletLedger.store "w" = some newWallet := by
  rw [oneWalletLedger, record?_putEntity]
  exact if_pos rfl

/-- The first call is cancelled, and the indexes of the others are the first two. -/
theorem commits_of_threeCalls :
    ∃ d, (start oneWalletLedger ["w", "w", "w"]).run
        [.lock 0, .cancel 0, .lock 1, .derive 1, .commit 1, .lock 2, .derive 2, .commit 2] = some d ∧
      (d.commitsOf "w").map (fun c => c.next.index.toNat) = [1, 2] ∧
      ∃ w, requireWallet d.ledger.store "w" = .ok w ∧ w.lastIndex.toNat = 2 := by
  have hs : Sound Wallet oneWalletLedger.store := wellFormed_oneWalletLedger.sound
  have hmaster : oneWalletLedger.masterOf newWallet = .ok ⟨.regtest, 0, 1, []⟩ := rfl
  -- the first call takes the lock and is cancelled
  obtain ⟨d₁, hrun₁, hledger₁, hheld₁, hlog₁, hcalls₁⟩ : ∃ d,
      (start oneWalletLedger ["w", "w", "w"]).run [.lock 0, .cancel 0] = some d ∧
        d.ledger = oneWalletLedger ∧ d.held = [] ∧ d.log = [] ∧
        d.calls = [⟨"w", .cancelled⟩, ⟨"w", .waiting⟩, ⟨"w", .waiting⟩] :=
    ⟨_, rfl, rfl, rfl, rfl, rfl⟩
  have hwf₁ : WellFormed d₁.ledger.store := hledger₁ ▸ wellFormed_oneWalletLedger
  have h₁ := (invariants_of_run hs hrun₁).2.2
  have hlength₁ : (d₁.commitsOf "w").length = 0 := by rw [commitsOf, hlog₁]; rfl
  obtain ⟨next₁, hnext₁⟩ := h₁.exists_nextOf (p := [⟨84, true, by decide⟩, ⟨1, false, by decide⟩])
    record?_oneWalletLedger hmaster hlength₁ (by decide) (by decide) (by decide)
  -- the second call finds it free
  obtain ⟨d₂, hturn₂, hwf₂, hheld₂, hlog₂, hcalls₂⟩ := exists_run_turn (i := 1) hwf₁
    (by rw [hcalls₁]; rfl) (by simp [hheld₁]) hnext₁
  have hrun₂ : (start oneWalletLedger ["w", "w", "w"]).run
      ([.lock 0, .cancel 0] ++ [.lock 1, .derive 1, .commit 1]) = some d₂ := by
    rw [run_append, hrun₁]
    exact hturn₂
  have h₂ := (invariants_of_run hs hrun₂).2.2
  have hlength₂ : (d₂.commitsOf "w").length = 1 := by rw [commitsOf, hlog₂, hlog₁]; rfl
  obtain ⟨next₂, hnext₂⟩ := h₂.exists_nextOf (p := [⟨84, true, by decide⟩, ⟨2, false, by decide⟩])
    record?_oneWalletLedger hmaster hlength₂ (by decide) (by decide) (by decide)
  obtain ⟨d₃, hturn₃, -, -, hlog₃, -⟩ := exists_run_turn (i := 2) hwf₂
    (by rw [hcalls₂ 2 (by decide), hcalls₁]; rfl) (by simp [hheld₂, hheld₁]) hnext₂
  have hrun₃ : (start oneWalletLedger ["w", "w", "w"]).run
      (([.lock 0, .cancel 0] ++ [.lock 1, .derive 1, .commit 1]) ++
        [.lock 2, .derive 2, .commit 2]) = some d₃ := by
    rw [run_append, hrun₂]
    exact hturn₃
  have hlength₃ : (d₃.commitsOf "w").length = 2 := by rw [commitsOf, hlog₃, hlog₂, hlog₁]; rfl
  have hwallet : requireWallet oneWalletLedger.store "w" = .ok newWallet := by
    rw [requireWallet_eq hs, record?_oneWalletLedger]
  obtain ⟨hindexes, ⟨w, hw, hlast, -⟩, -⟩ := (commits_of_run hs hrun₃).1 "w" newWallet hwallet
  rw [hlength₃] at hindexes hlast
  exact ⟨d₃, hrun₃, hindexes, w, hw, hlast⟩

end CoinLedger.Ledger.Derivations
