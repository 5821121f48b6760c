import CoinLedger.Ledger.Derivation
import CoinLedger.Proofs.Ledger.NextScript

/-! # Moves of calls that derive scripts

`change_of_step` lists what a move of a call can do (`Change`): it takes a lock that is free, derives,
commits, or ends without a commit.  `run_induction` makes it an induction over runs, and two
invariants follow.  `Locked` ties the locks that are held to the calls that hold them, one for each
lock, so that a waiting call waits for calls of its own wallet only (`isSome_lock_iff`), and these go
on by themselves (`isSome_step_of_holds`).  `Logged` ties the log to the calls that have committed.

`exists_run_eq_deriveScript` says that the moves of a call that runs alone are those of
`deriveScript`, and `exists_run_turn` that a call that finds its lock free can go through. -/

namespace CoinLedger.Ledger.Derivations

/-! ### What a move can do -/

section

variable {d : Derivations} {i j : Nat} {phase phase' : Phase} {id : String}

theorem calls_enter_self (h : d.calls[i]? = some ⟨id, phase⟩) :
    (d.enter i phase').calls[i]? = some ⟨id, phase'⟩ := by
  rw [enter, List.getElem?_modify, h]
  simp

theorem calls_enter_of_ne (h : j ≠ i) : (d.enter i phase).calls[j]? = d.calls[j]? := by
  rw [enter, List.getElem?_modify]
  simp [h.symm]

end

/-- What a move can do.  A call that ends without a commit may have made the ledger compute a master
key. -/
inductive Change (d : Derivations) : Derivations → Prop where
  | lock {i : Nat} {id : String} (hcall : d.calls[i]? = some ⟨id, .waiting⟩) (hfree : id ∉ d.held) :
      Change d (enter { d with held := id :: d.held } i .locked)
  | derive {i : Nat} {id : String} {next : NextScript} {l : Ledger}
      (hcall : d.calls[i]? = some ⟨id, .locked⟩) (hnext : d.ledger.nextOf id = .ok next)
      (hlearned : Learned d.ledger l) :
      Change d (enter { d with ledger := l } i (.derived next))
  | commit {i : Nat} {id : String} {next : NextScript} {s : Store}
      (hcall : d.calls[i]? = some ⟨id, .derived next⟩)
      (hcommit : CoinLedger.commit d.ledger.store (next.batch id) = .ok s) :
      Change d (enter (release (record { d with ledger := { d.ledger with store := s } }
        ⟨i, id, next⟩) id) i (.committed next))
  | giveUp {i : Nat} {id : String} {phase ended : Phase} {l : Ledger}
      (hcall : d.calls[i]? = some ⟨id, phase⟩) (hholds : phase.holdsLock = true)
      (hended : (∃ e, ended = .failed e) ∨ ended = .cancelled) (hlearned : Learned d.ledger l) :
      Change d (enter (release { d with ledger := l } id) i ended)
  | withdraw {i : Nat} {id : String} (hcall : d.calls[i]? = some ⟨id, .waiting⟩) :
      Change d (d.enter i .cancelled)

theorem change_of_step {d d' : Derivations} (hs : Sound Wallet d.ledger.store) {move : Move}
    (h : d.step move = some d') : Change d d' := by
  cases move with
  | lock i =>
      simp only [step, lock] at h
      split at h
      · rename_i id hcall
        split at h
        · cases h
        · rename_i hfree
          obtain rfl := Option.some.inj h
          exact .lock hcall hfree
      · cases h
  | derive i =>
      simp only [step, derive] at h
      split at h
      · rename_i id hcall
        obtain ⟨hnext, hlearned⟩ := run_nextScript hs id
        split at h
        · rename_i next l hrun
          obtain rfl := Option.some.inj h
          rw [hrun] at hnext hlearned
          exact .derive hcall hnext.symm hlearned
        · rename_i e l hrun
          obtain rfl := Option.some.inj h
          rw [hrun] at hlearned
          exact .giveUp hcall rfl (.inl ⟨e, rfl⟩) hlearned
      · cases h
  | commit i =>
      simp only [step, commit, run_write] at h
      split at h
      · rename_i id next hcall
        cases hcommit : CoinLedger.commit d.ledger.store (next.batch id) with
        | ok s =>
            rw [hcommit] at h
            obtain rfl := Option.some.inj h
            exact .commit hcall hcommit
        | error e =>
            rw [hcommit] at h
            obtain rfl := Option.some.inj h
            exact .giveUp (l := d.ledger) hcall rfl (.inl ⟨e, rfl⟩) (.refl d.ledger)
      · cases h
  | cancel i =>
      simp only [step, cancel] at h
      split at h
      · rename_i id phase hcall
        split at h
        · rename_i hholds
          obtain rfl := Option.some.inj h
          exact .giveUp (l := d.ledger) hcall hholds (.inr rfl) (.refl d.ledger)
        · split at h
          · obtain rfl := Option.some.inj h
            exact .withdraw hcall
          · cases h
      · cases h

theorem run_append (d : Derivations) (moves more : List Move) :
    d.run (moves ++ more) = (d.run moves).bind fun d' => d'.run more :=
  List.foldlM_append

/-- An invariant of all changes holds after a run. -/
theorem run_induction {P : Derivations → Prop} (hsound : ∀ d, P d → Sound Wallet d.ledger.store)
    (hchange : ∀ d d', P d → Change d d' → P d') :
    ∀ {moves : List Move} {d d' : Derivations}, d.run moves = some d' → P d → P d'
  | [], d, d', h, hd => by
      obtain rfl : d = d' := Option.some.inj h
      exact hd
  | move :: moves, d, d', h, hd => by
      rw [run, List.foldlM_cons] at h
      obtain ⟨d₁, hstep, hrest⟩ := Option.bind_eq_some_iff.1 h
      exact run_induction hsound hchange hrest
        (hchange d d₁ hd (change_of_step (hsound d hd) hstep))

/-! ### Locks -/

/-- A call for the wallet holds its lock. -/
def Holds (d : Derivations) (i : Nat) (id : String) : Prop :=
  ∃ phase, d.calls[i]? = some ⟨id, phase⟩ ∧ phase.holdsLock = true

/-- A lock is held just while one call holds it. -/
structure Locked (d : Derivations) : Prop where
  nodup : d.held.Nodup
  mem_held_iff : ∀ id, id ∈ d.held ↔ ∃ i, d.Holds i id
  unique : ∀ {i j : Nat} {id : String}, d.Holds i id → d.Holds j id → i = j

section

variable {d d' : Derivations} {i : Nat} {id : String} {phase phase' : Phase}

theorem holds_self (hcall : d.calls[i]? = some ⟨id, phase⟩) (id' : String) :
    d.Holds i id' ↔ id' = id ∧ phase.holdsLock = true := by
  rw [Holds, hcall]
  constructor
  · rintro ⟨_, heq, hholds⟩
    obtain ⟨rfl, rfl⟩ := Call.mk.inj (Option.some.inj heq)
    exact ⟨rfl, hholds⟩
  · rintro ⟨rfl, hholds⟩
    exact ⟨phase, rfl, hholds⟩

/-- A call that enters a phase holds the lock of its wallet as the phase says. -/
theorem holds_enter (hcall : d.calls[i]? = some ⟨id, phase⟩)
    (hcalls : d'.calls = (d.enter i phase').calls) (j : Nat) (id' : String) :
    d'.Holds j id' ↔ if j = i then id' = id ∧ phase'.holdsLock = true else d.Holds j id' := by
  by_cases hj : j = i
  · subst hj
    rw [if_pos rfl]
    exact holds_self (hcalls ▸ calls_enter_self hcall) id'
  · rw [if_neg hj, Holds, Holds, hcalls, calls_enter_of_ne hj]

end

namespace Locked

variable {d d' : Derivations} {i : Nat} {id : String}

theorem start (l : Ledger) (walletIds : List String) : Locked (start l walletIds) := by
  have hfree : ∀ i id, ¬(Derivations.start l walletIds).Holds i id := by
    rintro i id ⟨phase, hcall, hholds⟩
    rw [Derivations.start, List.getElem?_map] at hcall
    obtain ⟨_, -, heq⟩ := Option.map_eq_some_iff.1 hcall
    obtain ⟨-, rfl⟩ := Call.mk.inj heq
    cases hholds
  refine ⟨List.nodup_nil, fun id => ⟨?_, ?_⟩, ?_⟩
  · intro h
    cases h
  · rintro ⟨i, hi⟩
    exact absurd hi (hfree i id)
  · intro i j id hi
    exact absurd hi (hfree i id)

/-- Nobody takes a lock, and nobody gives one back. -/
theorem keep (h : Locked d) (hheld : d'.held = d.held)
    (hholds : ∀ j id', d'.Holds j id' ↔ d.Holds j id') : Locked d' where
  nodup := hheld ▸ h.nodup
  mem_held_iff id' := by
    rw [hheld, h.mem_held_iff]
    exact exists_congr fun j => (hholds j id').symm
  unique hi hj := h.unique ((hholds _ _).1 hi) ((hholds _ _).1 hj)

/-- A free lock is taken. -/
theorem take (h : Locked d) (hfree : id ∉ d.held) (hheld : d'.held = id :: d.held)
    (hholds : ∀ j id', d'.Holds j id' ↔ (j = i ∧ id' = id) ∨ d.Holds j id') : Locked d' where
  nodup := by
    rw [hheld]
    exact List.nodup_cons.2 ⟨hfree, h.nodup⟩
  mem_held_iff id' := by
    rw [hheld, List.mem_cons, h.mem_held_iff]
    constructor
    · rintro (rfl | ⟨j, hj⟩)
      · exact ⟨i, (hholds _ _).2 (.inl ⟨rfl, rfl⟩)⟩
      · exact ⟨j, (hholds _ _).2 (.inr hj)⟩
    · rintro ⟨j, hj⟩
      rcases (hholds _ _).1 hj with ⟨-, rfl⟩ | hj
      · exact .inl rfl
      · exact .inr ⟨j, hj⟩
  unique {j k id'} hj hk := by
    have hother : ∀ {n}, d.Holds n id → False := fun hn => hfree ((h.mem_held_iff id).2 ⟨_, hn⟩)
    rcases (hholds _ _).1 hj with ⟨rfl, rfl⟩ | hj
    · rcases (hholds _ _).1 hk with ⟨rfl, -⟩ | hk
      · rfl
      · exact (hother hk).elim
    · rcases (hholds _ _).1 hk with ⟨rfl, rfl⟩ | hk
      · exact (hother hj).elim
      · exact h.unique hj hk

/-- A lock is given back by the call that holds it. -/
theorem giveBack (h : Locked d) (hi : d.Holds i id) (hheld : d'.held = d.held.erase id)
    (hholds : ∀ j id', d'.Holds j id' ↔ j ≠ i ∧ d.Holds j id') : Locked d' where
  nodup := by
    rw [hheld]
    exact h.nodup.erase id
  mem_held_iff id' := by
    rw [hheld, h.nodup.mem_erase_iff, h.mem_held_iff]
    constructor
    · rintro ⟨hne, j, hj⟩
      refine ⟨j, (hholds _ _).2 ⟨?_, hj⟩⟩
      rintro rfl
      obtain ⟨phase, hcall, -⟩ := hi
      obtain ⟨phase', hcall', -⟩ := hj
      have heq := Option.some.inj (hcall'.symm.trans hcall)
      exact hne (Call.mk.inj heq).1
    · rintro ⟨j, hj⟩
      obtain ⟨hji, hj⟩ := (hholds _ _).1 hj
      refine ⟨?_, j, hj⟩
      rintro rfl
      exact hji (h.unique hj hi)
  unique hj hk := h.unique ((hholds _ _).1 hj).2 ((hholds _ _).1 hk).2

theorem change (h : Locked d) (hchange : Change d d') : Locked d' := by
  cases hchange with
  | @lock i id hcall hfree =>
      refine h.take (i := i) hfree rfl ?_
      intro j id'
      refine Iff.trans (holds_enter hcall rfl j id') ?_
      by_cases hj : j = i
      · subst hj
        simp [holds_self hcall, Phase.holdsLock]
      · simp [hj]
  | @derive i id next l hcall hnext hlearned =>
      refine h.keep rfl ?_
      intro j id'
      refine Iff.trans (holds_enter hcall rfl j id') ?_
      by_cases hj : j = i
      · subst hj
        simp [holds_self hcall, Phase.holdsLock]
      · simp [hj]
  | @commit i id next s hcall hcommit =>
      refine h.giveBack ⟨_, hcall, rfl⟩ rfl ?_
      intro j id'
      refine Iff.trans (holds_enter hcall rfl j id') ?_
      by_cases hj : j = i
      · simp [hj, Phase.holdsLock]
      · simp [hj]
  | @giveUp i id phase ended l hcall hholds hended hlearned =>
      have hfree : ended.holdsLock = false := by
        rcases hended with ⟨e, rfl⟩ | rfl <;> rfl
      refine h.giveBack ⟨_, hcall, hholds⟩ rfl ?_
      intro j id'
      refine Iff.trans (holds_enter hcall rfl j id') ?_
      by_cases hj : j = i
      · simp [hj, hfree]
      · simp [hj]
  | @withdraw i id hcall =>
      refine h.keep rfl ?_
      intro j id'
      refine Iff.trans (holds_enter hcall rfl j id') ?_
      by_cases hj : j = i
      · subst hj
        simp [holds_self hcall, Phase.holdsLock]
      · simp [hj]

end Locked

/-! ### Waiting -/

/-- A waiting call can take the lock unless a call of the same wallet holds it. -/
theorem isSome_lock_iff {d : Derivations} (h : Locked d) {i : Nat} {id : String}
    (hcall : d.calls[i]? = some ⟨id, .waiting⟩) :
    (d.step (.lock i)).isSome = true ↔ ∀ j, ¬d.Holds j id := by
  rw [← not_exists, ← h.mem_held_iff]
  simp only [step, lock, hcall]
  by_cases hheld : id ∈ d.held
  · simp [hheld]
  · simp [hheld]

/-- A call that holds a lock waits for nobody. -/
theorem isSome_step_of_holds {d : Derivations} {i : Nat} {id : String} (h : d.Holds i id) :
    (d.step (.derive i)).isSome = true ∨ (d.step (.commit i)).isSome = true := by
  obtain ⟨phase, hcall, hholds⟩ := h
  cases phase with
  | locked =>
      refine .inl ?_
      simp only [step, derive, hcall]
      split <;> rfl
  | derived next =>
      refine .inr ?_
      simp only [step, commit, hcall]
      split <;> rfl
  | waiting | committed _ | failed _ | cancelled => cases hholds

/-! ### The log -/

/-- The log holds what calls have committed, each of them once. -/
structure Logged (d : Derivations) : Prop where
  mem_log_iff : ∀ c : Commit, c ∈ d.log ↔ d.calls[c.call]? = some ⟨c.walletId, .committed c.next⟩
  nodup : (d.log.map Commit.call).Nodup

namespace Logged

variable {d d' : Derivations} {i : Nat} {id : String} {phase phase' : Phase}

theorem start (l : Ledger) (walletIds : List String) : Logged (start l walletIds) := by
  refine ⟨fun c => ⟨?_, ?_⟩, List.nodup_nil⟩
  · intro h
    cases h
  · intro h
    rw [Derivations.start, List.getElem?_map] at h
    obtain ⟨_, -, heq⟩ := Option.map_eq_some_iff.1 h
    cases (Call.mk.inj heq).2

/-- Nothing is committed. -/
theorem keep (h : Logged d) (hcall : d.calls[i]? = some ⟨id, phase⟩)
    (hphase : ∀ next, phase ≠ .committed next) (hlog : d'.log = d.log)
    (hcalls : d'.calls = (d.enter i phase').calls) (hphase' : ∀ next, phase' ≠ .committed next) :
    Logged d' := by
  refine ⟨?_, hlog ▸ h.nodup⟩
  intro c
  rw [hlog, h.mem_log_iff, hcalls]
  by_cases hc : c.call = i
  · rw [hc, hcall, calls_enter_self hcall]
    constructor
    · exact fun heq => absurd (Call.mk.inj (Option.some.inj heq)).2 (hphase _)
    · exact fun heq => absurd (Call.mk.inj (Option.some.inj heq)).2 (hphase' _)
  · rw [calls_enter_of_ne hc]

/-- A call commits. -/
theorem commit (h : Logged d) {next : NextScript} (hcall : d.calls[i]? = some ⟨id, .derived next⟩)
    (hlog : d'.log = d.log ++ [⟨i, id, next⟩])
    (hcalls : d'.calls = (d.enter i (.committed next)).calls) : Logged d' := by
  have hnew : ∀ c ∈ d.log, c.call ≠ i := by
    rintro c hc rfl
    rw [h.mem_log_iff, hcall] at hc
    cases (Call.mk.inj (Option.some.inj hc)).2
  refine ⟨?_, ?_⟩
  · intro c
    rw [hlog, List.mem_append, List.mem_singleton, hcalls]
    by_cases hc : c.call = i
    · have hnot : c ∉ d.log := fun hmem => hnew c hmem hc
      rw [hc, calls_enter_self hcall]
      constructor
      · rintro (hmem | rfl)
        · exact absurd hmem hnot
        · rfl
      · intro heq
        obtain ⟨hid, hnext⟩ := Call.mk.inj (Option.some.inj heq)
        obtain rfl := Phase.committed.inj hnext
        exact .inr (by rw [← hc, hid])
    · rw [calls_enter_of_ne hc, h.mem_log_iff]
      constructor
      · rintro (heq | rfl)
        · exact heq
        · exact absurd rfl hc
      · exact .inl
  · rw [hlog, List.map_append, List.map_singleton, List.nodup_append]
    refine ⟨h.nodup, List.nodup_singleton i, ?_⟩
    rintro _ hmem _ hi rfl
    obtain ⟨c, hc, rfl⟩ := List.mem_map.1 hmem
    exact hnew c hc (List.mem_singleton.1 hi)

theorem change (h : Logged d) (hchange : Change d d') : Logged d' := by
  cases hchange with
  | lock hcall _ => exact h.keep hcall nofun rfl rfl nofun
  | derive hcall _ _ => exact h.keep hcall nofun rfl rfl nofun
  | commit hcall _ => exact h.commit hcall rfl rfl
  | giveUp hcall hholds hended _ =>
      refine h.keep hcall ?_ rfl rfl ?_
      · rintro next rfl
        cases hholds
      · rintro next rfl
        rcases hended with ⟨e, he⟩ | he <;> cases he
  | withdraw hcall => exact h.keep hcall nofun rfl rfl nofun

end Logged

/-! ### Calls of `deriveScript` -/

/-- A call that runs alone does what `deriveScript` does before it asks for the script to be
tracked. -/
theorem exists_run_eq_deriveScript (l : Ledger) (id : String) :
    ∃ moves d, (start l [id]).run moves = some d ∧
      ((∃ next, d.calls = [⟨id, .committed next⟩] ∧
          l.run (deriveScript id) =
            d.ledger.run (trackOnChain id next.script >>= fun _ => pure next.script)) ∨
        ∃ e, d.calls = [⟨id, .failed e⟩] ∧ l.run (deriveScript id) = (.error e, d.ledger)) := by
  unfold deriveScript
  rw [run_bind]
  cases hnext : l.run (nextScript id) with
  | mk result l' =>
      cases result with
      | error e =>
          refine ⟨[.lock 0, .derive 0], ⟨l', [], [⟨id, .failed e⟩], []⟩, ?_, .inr ⟨e, rfl, rfl⟩⟩
          simp [run, step, start, lock, derive, enter, release, hnext]
      | ok next =>
          simp only [run_bind, run_write]
          cases hcommit : CoinLedger.commit l'.store (next.batch id) with
          | error e =>
              refine ⟨[.lock 0, .derive 0, .commit 0], ⟨l', [], [⟨id, .failed e⟩], []⟩, ?_,
                .inr ⟨e, rfl, rfl⟩⟩
              simp [run, step, start, lock, derive, commit, enter, release, hnext, run_write, hcommit]
          | ok s =>
              refine ⟨[.lock 0, .derive 0, .commit 0], ⟨{ l' with store := s }, [],
                [⟨id, .committed next⟩], [⟨0, id, next⟩]⟩, ?_, .inl ⟨next, rfl, rfl⟩⟩
              simp [run, step, start, lock, derive, commit, enter, release, record, hnext, run_write,
                hcommit]

/-! ### Turns -/

section

variable {d : Derivations} {i : Nat} {id : String} {next : NextScript}

theorem exists_step_lock (hcall : d.calls[i]? = some ⟨id, .waiting⟩) (hfree : id ∉ d.held) :
    ∃ d', d.step (.lock i) = some d' ∧ d'.calls = (d.enter i .locked).calls ∧
      d'.ledger = d.ledger ∧ d'.held = id :: d.held ∧ d'.log = d.log := by
  simp only [step, lock, hcall, if_neg hfree]
  exact ⟨_, rfl, rfl, rfl, rfl, rfl⟩

theorem exists_step_derive {l : Ledger} (hcall : d.calls[i]? = some ⟨id, .locked⟩)
    (hrun : d.ledger.run (nextScript id) = (.ok next, l)) :
    ∃ d', d.step (.derive i) = some d' ∧ d'.calls = (d.enter i (.derived next)).calls ∧
      d'.ledger = l ∧ d'.held = d.held ∧ d'.log = d.log := by
  simp only [step, derive, hcall, hrun]
  exact ⟨_, rfl, rfl, rfl, rfl, rfl⟩

theorem exists_step_commit {s : Store} (hcall : d.calls[i]? = some ⟨id, .derived next⟩)
    (hcommit : CoinLedger.commit d.ledger.store (next.batch id) = .ok s) :
    ∃ d', d.step (.commit i) = some d' ∧ d'.calls = (d.enter i (.committed next)).calls ∧
      d'.ledger.store = s ∧ d'.held = d.held.erase id ∧ d'.log = d.log ++ [⟨i, id, next⟩] := by
  simp only [step, commit, hcall, run_write, hcommit]
  exact ⟨_, rfl, rfl, rfl, rfl, rfl⟩

/-- A call that finds the lock free, and a next script, can go through. -/
theorem exists_run_turn (hwf : WellFormed d.ledger.store)
    (hcall : d.calls[i]? = some ⟨id, .waiting⟩) (hfree : id ∉ d.held)
    (hnext : d.ledger.nextOf id = .ok next) :
    ∃ d', d.run [.lock i, .derive i, .commit i] = some d' ∧ WellFormed d'.ledger.store ∧
      d'.held = d.held ∧ d'.log = d.log ++ [⟨i, id, next⟩] ∧
      ∀ j, j ≠ i → d'.calls[j]? = d.calls[j]? := by
  obtain ⟨hrun, hlearned⟩ := run_nextScript hwf.sound id
  rw [hnext] at hrun
  obtain ⟨l, hl⟩ : ∃ l, d.ledger.run (nextScript id) = (.ok next, l) := ⟨_, Prod.ext hrun rfl⟩
  rw [hl] at hlearned
  have hstore : l.store = d.ledger.store := hlearned.store
  obtain ⟨w, hw, -⟩ := isNext_of_nextOf hwf.sound hnext
  obtain ⟨s, hs⟩ := NextScript.exists_commit_batch_eq_ok hwf hw next
  obtain ⟨d₁, hstep₁, hcalls₁, hledger₁, hheld₁, hlog₁⟩ := exists_step_lock hcall hfree
  have hcall₁ : d₁.calls[i]? = some ⟨id, .locked⟩ := hcalls₁ ▸ calls_enter_self hcall
  obtain ⟨d₂, hstep₂, hcalls₂, hledger₂, hheld₂, hlog₂⟩ :=
    exists_step_derive hcall₁ (hledger₁ ▸ hl)
  have hcall₂ : d₂.calls[i]? = some ⟨id, .derived next⟩ := hcalls₂ ▸ calls_enter_self hcall₁
  rw [← hstore, ← hledger₂] at hs
  obtain ⟨d₃, hstep₃, hcalls₃, hstore₃, hheld₃, hlog₃⟩ := exists_step_commit hcall₂ hs
  refine ⟨d₃, ?_, ?_, ?_, ?_, ?_⟩
  · simp [run, hstep₁, hstep₂, hstep₃]
  · rw [hstore₃]
    refine WellFormed.commit ?_ hs
    rw [hledger₂, hstore]
    exact hwf
  · rw [hheld₃, hheld₂, hheld₁, List.erase_cons_head]
  · rw [hlog₃, hlog₂, hlog₁]
  · intro j hj
    rw [hcalls₃, calls_enter_of_ne hj, hcalls₂, calls_enter_of_ne hj, hcalls₁, calls_enter_of_ne hj]

end

end CoinLedger.Ledger.Derivations
