/-! # Results of several steps

A computation that may fail has a result only if all its steps have one.  The lemmas here take such
a computation apart: `bind_ok` and `map_ok` one step, `foldlM_ok` and `mapM_ok` the first step of a
list.  If there is an error, it is the one of some step (`bind_error`, `map_error`).  `foldlM_rel`
goes through a list of steps with a relation between states, and `map_foldlM` with a change of state
that commutes with every step.

`map_eq_map_of_keys` is for the lists that come out of such computations: entries with the same keys
have the same values if their keys say so. -/

namespace CoinLedger

section

variable {ε α β γ κ σ τ : Type}

theorem bind_ok {x : Except ε α} {f : α → Except ε β} {b : β} (h : x >>= f = .ok b) :
    ∃ a, x = .ok a ∧ f a = .ok b := by
  cases x with
  | error e => cases h
  | ok a => exact ⟨a, rfl, h⟩

theorem ok_bind (a : α) (f : α → Except ε β) : (Except.ok a >>= f) = f a := rfl

theorem map_ok {x : Except ε α} {f : α → β} {b : β} (h : x.map f = .ok b) :
    ∃ a, x = .ok a ∧ f a = b := by
  cases x with
  | error e => cases h
  | ok a => exact ⟨a, rfl, Except.ok.inj h⟩

theorem bind_error {x : Except ε α} {f : α → Except ε β} {e : ε} (h : x >>= f = .error e) :
    x = .error e ∨ ∃ a, x = .ok a ∧ f a = .error e := by
  cases x with
  | error e' => exact .inl (congrArg Except.error (Except.error.inj h))
  | ok a => exact .inr ⟨a, rfl, h⟩

theorem map_error {x : Except ε α} {f : α → β} {e : ε} (h : x.map f = .error e) : x = .error e := by
  cases x with
  | error e' => exact congrArg Except.error (Except.error.inj h)
  | ok a => cases h

theorem foldlM_ok {f : σ → α → Except ε σ} {a : α} {as : List α} {s t : σ}
    (h : (a :: as).foldlM f s = .ok t) : ∃ s', f s a = .ok s' ∧ as.foldlM f s' = .ok t := by
  rw [List.foldlM_cons] at h
  exact bind_ok h

theorem mapM_ok {f : α → Except ε β} {a : α} {as : List α} {bs : List β}
    (h : (a :: as).mapM f = .ok bs) :
    ∃ b bs', f a = .ok b ∧ as.mapM f = .ok bs' ∧ bs = b :: bs' := by
  rw [List.mapM_cons] at h
  obtain ⟨b, hb, h⟩ := bind_ok h
  obtain ⟨bs', hbs', h⟩ := bind_ok h
  exact ⟨b, bs', hb, hbs', (Except.ok.inj h).symm⟩

/-- A relation that every step keeps relates the first state to the last one. -/
theorem foldlM_rel (R : σ → σ → Prop) {f : σ → α → Except ε σ} (hrefl : ∀ s, R s s)
    (htrans : ∀ {s t u}, R s t → R t u → R s u) :
    ∀ {as : List α} {s t : σ}, (∀ s s' a, a ∈ as → f s a = .ok s' → R s s') →
      as.foldlM f s = .ok t → R s t
  | [], s, t, _, h => by
      obtain rfl : s = t := Except.ok.inj h
      exact hrefl s
  | a :: as, s, t, hstep, h => by
      obtain ⟨s', ha, hrest⟩ := foldlM_ok h
      have hnext := foldlM_rel R hrefl htrans
        (fun s s' b hb => hstep s s' b (List.mem_cons_of_mem _ hb)) hrest
      exact htrans (hstep s s' a List.mem_cons_self ha) hnext

/-- A change of state that commutes with every step commutes with all of them. -/
theorem map_foldlM {h : σ → τ} {f : σ → α → Except ε σ} {g : τ → α → Except ε τ}
    (hstep : ∀ s a, (f s a).map h = g (h s) a) :
    ∀ (as : List α) (s : σ), (as.foldlM f s).map h = as.foldlM g (h s)
  | [], _ => rfl
  | a :: as, s => by
      rw [List.foldlM_cons, List.foldlM_cons, ← hstep s a]
      cases f s a with
      | error e => rfl
      | ok s' => exact map_foldlM hstep as s'

theorem map_eq_map_of_keys {xs : List α} {ys : List β} {f : α → κ} {g : β → κ} {p : α → γ} {q : β → γ}
    (h : xs.map f = ys.map g) (hsame : ∀ x ∈ xs, ∀ y ∈ ys, f x = g y → p x = q y) :
    xs.map p = ys.map q := by
  induction xs generalizing ys with
  | nil =>
      obtain rfl : ys = [] := List.map_eq_nil_iff.1 h.symm
      rfl
  | cons x xs ih =>
      cases ys with
      | nil => cases h
      | cons y ys =>
          obtain ⟨hfirst, hrest⟩ := List.cons.inj h
          rw [List.map_cons, List.map_cons, hsame x List.mem_cons_self y List.mem_cons_self hfirst,
            ih hrest fun x' hx' y' hy' =>
              hsame x' (List.mem_cons_of_mem x hx') y' (List.mem_cons_of_mem y hy')]

end

end CoinLedger
