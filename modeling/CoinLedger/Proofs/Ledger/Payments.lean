import CoinLedger.Proofs.Entity.Layout
import CoinLedger.Proofs.Ledger.Requests
import CoinLedger.Proofs.Ledger.Tables
import CoinLedger.Proofs.Store.Scans

/-! # Payments under updates

An update of a payment tells that it failed or is complete, and perhaps its preimage.  The failure
of a completed payment is not believed, and neither is what comes with it; so what is believed of a
list of updates is all of it up to the first completion, and the completions behind it
(`Payment.believed`).  `Payment.after` is the payment that is left: complete if it was or if some
update says so, with the first preimage that was believed.

`Payment.foldl_hear` says that hearing the updates one by one leads there, and
`payments_after_updates` that a ledger does so for all of its payments at once, whichever of them the
updates are about. -/

namespace CoinLedger

/-! ### One payment -/

/-- What is told about a payment. -/
structure PaymentUpdate where
  key : PaymentKey
  failed : Bool
  preimage : Option String
deriving DecidableEq

namespace PaymentUpdate

/-- What a ledger is asked to do about it. -/
def action (u : PaymentUpdate) : Action Unit := Ledger.updatePayment u.key u.failed u.preimage

/-- What is written about it. -/
def operation (u : PaymentUpdate) : Operation := .updatePayment u.key u.failed u.preimage

end PaymentUpdate

namespace Payment

/-- The payment after one update of it. -/
def hear (p : Payment) (u : PaymentUpdate) : Payment :=
  if u.failed = true ∧ p.status = .complete then p else p.update u.failed u.preimage

/-- The updates that are believed: the failures up to the first completion, and all completions. -/
def believed (p : Payment) (updates : List PaymentUpdate) : List PaymentUpdate :=
  if p.status = .complete then updates.filter fun u => !u.failed
  else updates.takeWhile (·.failed) ++ (updates.dropWhile (·.failed)).filter fun u => !u.failed

/-- How far the payment is after updates of it. -/
def statusAfter (p : Payment) (updates : List PaymentUpdate) : PaymentStatus :=
  if p.status = .complete ∨ ∃ u ∈ updates, u.failed = false then .complete
  else if updates = [] then p.status
  else .failed

/-- The payment after updates of it. -/
def after (p : Payment) (updates : List PaymentUpdate) : Payment :=
  { p with
    status := p.statusAfter updates
    preimage := p.preimage.or ((p.believed updates).findSome? (·.preimage)) }

/-- The updates of this payment. -/
def told (p : Payment) (updates : List PaymentUpdate) : List PaymentUpdate :=
  updates.filter fun u => u.key = Entity.key p

variable {p : Payment} {u : PaymentUpdate} {updates : List PaymentUpdate}

/-- The failure of a completed payment is not believed. -/
theorem hear_of_complete (hfailed : u.failed = true) (hcomplete : p.status = .complete) :
    p.hear u = p := if_pos ⟨hfailed, hcomplete⟩

/-- All else is. -/
theorem hear_of_believed (h : u.failed = false ∨ p.status ≠ .complete) :
    p.hear u = { p with
      status := if u.failed then .failed else .complete
      preimage := p.preimage.or u.preimage } := by
  have hheard : ¬(u.failed = true ∧ p.status = .complete) := by
    rintro ⟨hfailed, hcomplete⟩
    rcases h with h | h
    · rw [h] at hfailed
      cases hfailed
    · exact h hcomplete
  rw [hear, if_neg hheard, update]
  cases p.preimage <;> rfl

theorem statusAfter_of_complete (h : p.status = .complete) (updates : List PaymentUpdate) :
    p.statusAfter updates = .complete := if_pos (.inl h)

theorem believed_of_complete (h : p.status = .complete) (updates : List PaymentUpdate) :
    p.believed updates = updates.filter fun u => !u.failed := if_pos h

theorem statusAfter_cons (h : u.failed = false ∨ p.status ≠ .complete)
    (updates : List PaymentUpdate) :
    p.statusAfter (u :: updates) = (p.hear u).statusAfter updates := by
  rw [hear_of_believed h]
  cases hfailed : u.failed with
  | false => simp [statusAfter, hfailed]
  | true =>
      have hpending : p.status ≠ .complete := h.resolve_left (by simp [hfailed])
      simp [statusAfter, hfailed, hpending]

theorem believed_cons (h : u.failed = false ∨ p.status ≠ .complete)
    (updates : List PaymentUpdate) :
    p.believed (u :: updates) = u :: (p.hear u).believed updates := by
  rw [hear_of_believed h]
  cases hfailed : u.failed with
  | false => simp [believed, hfailed]
  | true =>
      have hpending : p.status ≠ .complete := h.resolve_left (by simp [hfailed])
      simp [believed, hfailed, hpending]

@[simp] theorem after_nil (p : Payment) : p.after [] = p := by
  have hstatus : p.statusAfter [] = p.status := by
    by_cases h : p.status = .complete
    · rw [statusAfter_of_complete h, h]
    · simp [statusAfter, h]
  have hbelieved : p.believed [] = [] := by simp [believed]
  rw [after, hstatus, hbelieved, List.findSome?_nil, Option.or_none]

/-- The first of several updates is heard before the others. -/
theorem after_cons (p : Payment) (u : PaymentUpdate) (updates : List PaymentUpdate) :
    p.after (u :: updates) = (p.hear u).after updates := by
  by_cases h : u.failed = false ∨ p.status ≠ .complete
  · have hpreimage : (p.hear u).preimage = p.preimage.or u.preimage := by rw [hear_of_believed h]
    have hfirst : ∀ us : List PaymentUpdate, (u :: us).findSome? (·.preimage) =
        u.preimage.or (us.findSome? (·.preimage)) := by
      intro us
      rw [List.findSome?_cons]
      cases u.preimage <;> rfl
    rw [after, after, statusAfter_cons h, believed_cons h, hfirst, hpreimage, Option.or_assoc,
      hear_of_believed h]
  · obtain ⟨hfailed, hcomplete⟩ : u.failed = true ∧ p.status = .complete := by simpa using h
    rw [hear_of_complete hfailed hcomplete, after, after, statusAfter_of_complete hcomplete,
      statusAfter_of_complete hcomplete, believed_of_complete hcomplete,
      believed_of_complete hcomplete, List.filter_cons_of_neg (by simp [hfailed])]

/-- Updates that are heard one by one lead to the payment that they tell. -/
theorem foldl_hear (p : Payment) (updates : List PaymentUpdate) :
    updates.foldl hear p = p.after updates := by
  induction updates generalizing p with
  | nil => rw [List.foldl_nil, after_nil]
  | cons u updates ih => rw [List.foldl_cons, ih, after_cons]

/-- A completed payment stays one. -/
theorem status_after_of_complete (h : p.status = .complete) (updates : List PaymentUpdate) :
    (p.after updates).status = .complete := statusAfter_of_complete h updates

/-- A preimage that is known stays. -/
theorem preimage_after_of_some {preimage : String} (h : p.preimage = some preimage)
    (updates : List PaymentUpdate) : (p.after updates).preimage = some preimage := by
  rw [after, h, Option.some_or]

end Payment

/-! ### The table of payments -/

namespace Operation

/-- What an operation makes of the payments with the bytes of this key. -/
def onPayment (k : PaymentKey) : Operation → Option Payment → Option Payment
  | upsertPayment p, found =>
      if rowKey Payment (Entity.key p) = rowKey Payment k then some p else found
  | updatePayment key failed preimage, found =>
      if rowKey Payment key = rowKey Payment k then (updated failed preimage found).or found
      else found
  | _, found => found

theorem updated_or (u : PaymentUpdate) (found : Option Payment) :
    (updated u.failed u.preimage found).or found = found.map fun p => p.hear u := by
  cases found with
  | none => rfl
  | some p =>
      simp only [updated, Payment.hear, Bool.and_eq_true, beq_iff_eq, Option.map_some]
      split <;> rfl

theorem key_of_updated {failed : Bool} {preimage : Option String} {found : Option Payment}
    {p : Payment} (h : updated failed preimage found = some p) :
    ∃ known, found = some known ∧ Entity.key p = Entity.key known := by
  cases found with
  | none => cases h
  | some known =>
      rw [updated] at h
      split at h
      · cases h
      · exact ⟨known, rfl, by rw [← Option.some.inj h]; rfl⟩

end Operation

instance : Pointwise Payment where
  on := Operation.onPayment
  on_of_notMem_writes {op} hop k found := by
    cases op with
    | upsertPayment _ | updatePayment _ _ _ => simp [Operation.writes, Entity.kind] at hop
    | _ => rfl
  record?_of_mem_writes {s s' op} hs hop h k := by
    cases op with
    | upsertPayment p =>
        obtain rfl : putEntity s p = s' := Except.ok.inj h
        rw [record?, get?_putEntity, Operation.onPayment]
        split
        · rw [Option.bind_some, decodeEntity?_encodeEntity]
        · rfl
    | updatePayment key failed preimage =>
        refine hs.record?_reviseEntity (fun p hp => ?_) h k
        obtain ⟨known, hknown, hkey⟩ := Operation.key_of_updated hp
        rw [hkey, hs.rowKey_eq hknown]
    | _ => simp [Operation.writes, Entity.kind] at hop

/-- Each payment hears the updates with the bytes of its key. -/
theorem onAll_operations (k : PaymentKey) (updates : List PaymentUpdate) (found : Option Payment) :
    Pointwise.onAll k (updates.map PaymentUpdate.operation) found =
      found.map fun p =>
        (updates.filter fun u => rowKey Payment u.key = rowKey Payment k).foldl Payment.hear p := by
  induction updates generalizing found with
  | nil => simp
  | cons u updates ih =>
      rw [List.map_cons, Pointwise.onAll_cons, ih]
      by_cases hkey : rowKey Payment u.key = rowKey Payment k
      · have hon : Pointwise.on k u.operation found = found.map fun p => p.hear u :=
          (if_pos hkey).trans (Operation.updated_or u found)
        rw [hon, Option.map_map, List.filter_cons_of_pos (by simpa using hkey)]
        rfl
      · have hon : Pointwise.on k u.operation found = found := if_neg hkey
        rw [hon, List.filter_cons_of_neg (by simpa using hkey)]

/-- The payment with a key after updates. -/
theorem record?_operations {s s' : Store} (hs : Sound Payment s) {updates : List PaymentUpdate}
    (h : commit s (updates.map PaymentUpdate.operation) = .ok s') (k : PaymentKey) :
    record? Payment s' k = (record? Payment s k).map fun p =>
      p.after (updates.filter fun u => rowKey Payment u.key = rowKey Payment k) := by
  rw [Pointwise.record?_commit hs h, onAll_operations]
  simp only [Payment.foldl_hear]

/-! ### Ledgers -/

namespace Ledger

/-- Updates are written one after the other, and all of them succeed. -/
theorem run_forM_action (updates : List PaymentUpdate) :
    ∀ {l : Ledger}, WellFormed l.store →
      ∃ s', commit l.store (updates.map PaymentUpdate.operation) = .ok s' ∧
        l.run (updates.forM PaymentUpdate.action) = (.ok (), { l with store := s' }) := by
  induction updates with
  | nil => exact fun {l} _ => ⟨l.store, rfl, rfl⟩
  | cons u updates ih =>
      intro l hs
      have hneeds : ∀ op ∈ [u.operation], op.needsWallet = false := by
        simp [PaymentUpdate.operation, Operation.needsWallet]
      obtain ⟨s₁, hfirst⟩ := exists_commit_eq_ok hs hneeds
      have hrun : l.run u.action = (.ok (), { l with store := s₁ }) := by
        have hwrite : commit l.store [.updatePayment u.key u.failed u.preimage] = .ok s₁ := hfirst
        rw [PaymentUpdate.action, updatePayment, run_write, hwrite]
      obtain ⟨s', hrest, hruns⟩ := ih (l := { l with store := s₁ }) (hs.commit hfirst)
      refine ⟨s', ?_, ?_⟩
      · rw [List.map_cons, ← List.singleton_append, commit_append, hfirst]
        exact hrest
      · show l.run (u.action >>= fun _ => updates.forM PaymentUpdate.action) = _
        rw [run_bind, hrun]
        exact hruns

/-- The updates of a stored payment are those with the bytes of its key. -/
theorem told_eq {s : Store} {updates : List PaymentUpdate}
    (hstored : ∀ p : Payment, HasRow s p → (TypedKey.payment (Entity.key p)).Plain)
    (hupdates : ∀ u ∈ updates, (TypedKey.payment u.key).Plain) {p : Payment} (hp : HasRow s p) :
    p.told updates =
      updates.filter fun u => rowKey Payment u.key = rowKey Payment (Entity.key p) := by
  refine List.filter_congr fun u hu => ?_
  have hkeys : rowKey Payment u.key = rowKey Payment (Entity.key p) ↔ u.key = Entity.key p :=
    ⟨fun h => payment_keyBytes_inj (hupdates u hu) (hstored p hp) (List.cons.inj h).2, congrArg _⟩
  simp only [hkeys]

/-- The stored payments after updates are those that were stored before, each as it was told. -/
theorem hasRow_commit_iff {s s' : Store} {updates : List PaymentUpdate} (hs : Sound Payment s)
    (hs' : Sound Payment s') (hcommit : commit s (updates.map PaymentUpdate.operation) = .ok s')
    (hstored : ∀ p : Payment, HasRow s p → (TypedKey.payment (Entity.key p)).Plain)
    (hupdates : ∀ u ∈ updates, (TypedKey.payment u.key).Plain) (p' : Payment) :
    HasRow s' p' ↔ ∃ p : Payment, HasRow s p ∧ p.after (p.told updates) = p' := by
  constructor
  · intro hp'
    have hfound := hs'.hasRow_iff.1 hp'
    rw [record?_operations hs hcommit] at hfound
    obtain ⟨p, hp, htold⟩ := Option.map_eq_some_iff.1 hfound
    have hrow : HasRow s p := hs.hasRow_of_record? hp
    exact ⟨p, hrow, by rw [told_eq hstored hupdates hrow, hs.rowKey_eq hp, htold]⟩
  · rintro ⟨p, hp, rfl⟩
    have hfound : record? Payment s' (Entity.key p) = some (p.after (p.told updates)) := by
      rw [record?_operations hs hcommit, hs.hasRow_iff.1 hp, Option.map_some,
        told_eq hstored hupdates hp]
    exact hs'.hasRow_of_record? hfound

/-- **Payments become what is told about them.**  In a store whose payments have plain keys, let
updates be made of payments with plain keys.  All of them succeed, and each stored payment is then
what the updates with its key make of it (`Payment.after`): complete if it was or if one of them says
so, else failed if there is one; with the preimage it had, or else the first one that is believed;
and the same in all else.  No payment is made, and the rows with other keys stay as they are.  So a
completed payment stays complete, and a known preimage stays. -/
theorem payments_after_updates {l : Ledger} (hs : WellFormed l.store)
    (hstored : ∀ p : Payment, HasRow l.store p → (TypedKey.payment (Entity.key p)).Plain)
    {updates : List PaymentUpdate} (hupdates : ∀ u ∈ updates, (TypedKey.payment u.key).Plain) :
    ∃ s', l.run (updates.forM PaymentUpdate.action) = (.ok (), { l with store := s' }) ∧
      (∀ p' : Payment, HasRow s' p' ↔
        ∃ p : Payment, HasRow l.store p ∧ p.after (p.told updates) = p') ∧
      (∀ p p' : Payment, HasRow l.store p → HasRow s' p' → Entity.key p' = Entity.key p →
        (p.status = .complete → p'.status = .complete) ∧
          ∀ preimage, p.preimage = some preimage → p'.preimage = some preimage) ∧
      (∀ key, (s'.get? key).isSome = (l.store.get? key).isSome) ∧
      ∀ key, (∀ u ∈ updates, rowKey Payment u.key ≠ key) → s'.get? key = l.store.get? key := by
  obtain ⟨s', hcommit, hrun⟩ := run_forM_action updates hs
  have hs' : Sound Payment s' := (hs.commit hcommit).sound
  have hothers : ∀ key, (∀ u ∈ updates, rowKey Payment u.key ≠ key) →
      s'.get? key = l.store.get? key := by
    intro key hkey
    have hwrites : ∀ op ∈ updates.map PaymentUpdate.operation,
        op.writes ⊆ [Entity.kind Payment] := by
      simp [PaymentUpdate.operation, Operation.writes, Entity.kind]
    refine get?_commit (α := Payment) hs hcommit hwrites ?_
    rintro k rfl
    have hnone : (updates.filter fun u => rowKey Payment u.key = rowKey Payment k) = [] :=
      List.filter_eq_nil_iff.2 fun u hu => by simpa using hkey u hu
    rw [record?_operations hs.sound hcommit, hnone]
    simp
  refine ⟨s', hrun, hasRow_commit_iff hs.sound hs' hcommit hstored hupdates, ?_, ?_, hothers⟩
  · intro p p' hp hp' hkey
    have hafter : HasRow s' (p.after (p.told updates)) :=
      (hasRow_commit_iff hs.sound hs' hcommit hstored hupdates _).2 ⟨p, hp, rfl⟩
    obtain rfl : p' = p.after (p.told updates) := by
      have hfound := hs'.hasRow_iff.1 hp'
      rw [hkey] at hfound
      exact Option.some.inj (hfound.symm.trans (hs'.hasRow_iff.1 hafter))
    exact ⟨fun h => p.status_after_of_complete h _, fun _ h => p.preimage_after_of_some h _⟩
  · intro key
    by_cases hkey : ∃ u ∈ updates, rowKey Payment u.key = key
    · obtain ⟨u, -, rfl⟩ := hkey
      rw [hs'.get?_rowKey, hs.sound.get?_rowKey, record?_operations hs.sound hcommit]
      simp
    · rw [hothers key (by simpa using hkey)]

/-! ### Two payments -/

/-- A payment that is not complete, and of which no preimage is known. -/
def pendingPayment (hash : String) : Payment where
  walletId := "alias"
  paymentHash := hash
  inbound := false
  paymentId := "01"
  preimage := none
  secret := none
  timestamp := 1700000000
  valueMsat := 1000000
  status := .pending

/-- A ledger with two payments. -/
def twoPaymentsLedger : Ledger :=
  (Ledger.ofStore .empty .regtest none).serveAll
    [.recordPayment (pendingPayment "aa"), .recordPayment (pendingPayment "bb")]

theorem store_serve_recordPayment (l : Ledger) (p : Payment) :
    (l.serve (.recordPayment p)).store = putEntity l.store p := by
  have hcommit : commit l.store [.upsertPayment p] = .ok (putEntity l.store p) :=
    commit_singleton l.store (.upsertPayment p)
  rw [serve, Request.action, recordPayment, run_write, hcommit]

theorem store_twoPaymentsLedger : twoPaymentsLedger.store =
    putEntity (putEntity (.empty : Store) (pendingPayment "aa")) (pendingPayment "bb") := by
  rw [twoPaymentsLedger, serveAll_cons, serveAll_cons, serveAll_nil, store_serve_recordPayment,
    store_serve_recordPayment]
  rfl

theorem hasRow_twoPaymentsLedger_iff {p : Payment} :
    HasRow twoPaymentsLedger.store p ↔ p = pendingPayment "aa" ∨ p = pendingPayment "bb" := by
  rw [store_twoPaymentsLedger]
  constructor
  · intro hp
    rcases hp.of_putEntity with rfl | hp
    · exact .inr rfl
    · rcases hp.of_putEntity with rfl | hp
      · exact .inl rfl
      · cases hp
  · rintro (rfl | rfl)
    · exact (hasRow_putEntity_self _ _).put (by decide)
    · exact hasRow_putEntity_self _ _

/-- One payment fails and its preimage is told; it is completed, and fails again.  The other one
fails, and one that is not known is completed. -/
def mixedUpdates : List PaymentUpdate :=
  [⟨Entity.key (pendingPayment "aa"), true, some "p"⟩,
    ⟨Entity.key (pendingPayment "bb"), true, none⟩,
    ⟨Entity.key (pendingPayment "aa"), false, some "q"⟩,
    ⟨Entity.key (pendingPayment "cc"), false, some "r"⟩,
    ⟨Entity.key (pendingPayment "aa"), true, some "s"⟩]

theorem payments_after_mixedUpdates :
    ∃ s', Reachable twoPaymentsLedger ∧
      twoPaymentsLedger.run (mixedUpdates.forM PaymentUpdate.action) =
        (.ok (), { twoPaymentsLedger with store := s' }) ∧
      HasRow s' { pendingPayment "aa" with status := .complete, preimage := some "p" } ∧
      HasRow s' { pendingPayment "bb" with status := .failed } := by
  have hreach : Reachable twoPaymentsLedger := (Reachable.opened .regtest none).serveAll _
  have hstored : ∀ p : Payment, HasRow twoPaymentsLedger.store p →
      (TypedKey.payment (Entity.key p)).Plain := by
    intro p hp
    rcases hasRow_twoPaymentsLedger_iff.1 hp with rfl | rfl <;> decide
  have hupdates : ∀ u ∈ mixedUpdates, (TypedKey.payment u.key).Plain := by decide
  obtain ⟨s', hrun, hrows, -⟩ := payments_after_updates hreach.wellFormed hstored hupdates
  refine ⟨s', hreach, hrun, (hrows _).2 ⟨_, hasRow_twoPaymentsLedger_iff.2 (.inl rfl), ?_⟩,
    (hrows _).2 ⟨_, hasRow_twoPaymentsLedger_iff.2 (.inr rfl), ?_⟩⟩
  · decide
  · decide

end Ledger

end CoinLedger
