import CoinLedger.Ledger.Query
import CoinLedger.Proofs.Ledger.DerivedScripts

/-! # What a store never loses

Wallets, scripts and the scripts of wallets stay where they are once they are stored.  A wallet gets
more scripts and aliases and keeps all else (`Wallet.Grows`), a script stays as it is, and a script
of a wallet gets a path at most, if none was known (`WalletScript.FillsIn`).  `Grown` says this of two
stores, row by row.

The other tables are not of this kind: transactions and their coins go when they are replaced, and
blobs when they are deleted.  None of these removals reaches a row of the three tables, since all that
a batch does to them is decided by the rules `Operation.onWallet`, `Operation.onScript` and
`Operation.onWalletScript` (`grown_commit`).  Every request commits one batch or none, and so the
history grows along every run (`Reachable.grown`). -/

namespace CoinLedger

open Ledger

/-! ### Rows that are kept -/

/-- Where the first store has a row of this kind the second one has a row too, and the records in
both are related. -/
def KeepsRows (α : Type) {κ : Type} [Entity α κ] (R : α → α → Prop) (s s' : Store) : Prop :=
  ∀ key value, s.get? key = some value → key.head? = some (Entity.kind α).byte →
    ∃ a a', decodeEntity? α value = some a ∧ s'.get? key = some (encodeEntity a') ∧ R a a'

namespace KeepsRows

variable {α κ : Type} [Entity α κ] [LawfulEntity α] {R : α → α → Prop} {s s' s'' : Store}

theorem refl (hs : Sound α s) (hrefl : ∀ a, R a a) : KeepsRows α R s s := by
  intro key value hvalue hkey
  obtain ⟨a, -, rfl⟩ := hs key value hvalue hkey
  exact ⟨a, a, by simp, hvalue, hrefl a⟩

theorem trans (htrans : ∀ {a b c}, R a b → R b c → R a c) (h : KeepsRows α R s s')
    (h' : KeepsRows α R s' s'') : KeepsRows α R s s'' := by
  intro key value hvalue hkey
  obtain ⟨a, b, ha, hb, hab⟩ := h key value hvalue hkey
  obtain ⟨b', c, hb', hc, hbc⟩ := h' key _ hb hkey
  obtain rfl : b = b' := by simpa using hb'
  exact ⟨a, c, ha, hc, htrans hab hbc⟩

/-- What a batch keeps of single records, it keeps of the rows. -/
theorem of_commit [Stored α] [Pointwise α] (hs : Sound α s) {batch : Batch}
    (h : commit s batch = .ok s')
    (hkeep : ∀ key a, ∃ b, Pointwise.onAll key batch (some a) = some b ∧ R a b) :
    KeepsRows α R s s' := by
  intro key value hvalue hkey
  obtain ⟨a, rfl, rfl⟩ := hs key value hvalue hkey
  have hs' : Sound α s' := (writes_commit h).sound hs
  have ha : record? α s (Entity.key a) = some a := by simp [record?, hvalue]
  obtain ⟨b, hb, hab⟩ := hkeep (Entity.key a) a
  refine ⟨a, b, by simp, ?_, hab⟩
  rw [hs'.get?_rowKey, Pointwise.record?_commit hs h, ha, hb]
  rfl

end KeepsRows

/-! ### The history -/

/-- The second store has all the wallets and scripts of the first one, and what is known of them was
only added to. -/
structure Grown (s s' : Store) : Prop where
  wallets : KeepsRows Wallet Wallet.Grows s s'
  scripts : KeepsRows ScriptRecord (· = ·) s s'
  walletScripts : KeepsRows WalletScript WalletScript.FillsIn s s'

namespace Grown

variable {s s' s'' : Store}

theorem refl (hs : WellFormed s) : Grown s s where
  wallets := .refl hs.sound .refl
  scripts := .refl hs.sound fun _ => rfl
  walletScripts := .refl hs.sound .refl

theorem trans (h : Grown s s') (h' : Grown s' s'') : Grown s s'' where
  wallets := h.wallets.trans .trans h'.wallets
  scripts := h.scripts.trans .trans h'.scripts
  walletScripts := h.walletScripts.trans .trans h'.walletScripts

end Grown

/-- No batch takes anything from the history, whichever operations are in it. -/
theorem grown_commit {s s' : Store} (hs : WellFormed s) {batch : Batch}
    (h : commit s batch = .ok s') : Grown s s' where
  wallets := .of_commit hs.sound h fun id w => exists_onAll_wallet_eq_some id batch w
  scripts := .of_commit hs.sound h fun _ r =>
    Pointwise.exists_onAll_eq_some (fun _ => rfl) .trans
      (fun _ known => ⟨known, Operation.onScript_some known, rfl⟩) batch r
  walletScripts := .of_commit hs.sound h fun k w => exists_onAll_walletScript_eq_some k batch w

namespace Ledger

variable {l : Ledger}

theorem grown_serve (hs : WellFormed l.store) (r : Request) : Grown l.store (l.serve r).store := by
  rcases serve_ok hs.sound r with hstore | ⟨batch, -, hcommit⟩
  · rw [hstore]
    exact .refl hs
  · exact grown_commit hs hcommit

theorem grown_serveAll (hs : WellFormed l.store) (requests : List Request) :
    Grown l.store (l.serveAll requests).store := by
  induction requests generalizing l with
  | nil => exact .refl hs
  | cons r requests ih => exact (grown_serve hs r).trans (ih (wellFormed_serve hs r))

end Ledger

/-- **The history only grows.**  No request, served or refused, no run of requests and no query takes
a wallet or a script away, and what was known of it stays. -/
theorem Reachable.grown {l : Ledger} (h : Reachable l) :
    (∀ r : Request, Grown l.store (l.serve r).store) ∧
      (∀ requests : List Request, Grown l.store (l.serveAll requests).store) ∧
      ∀ {α : Type} (q : Query α), Grown l.store (l.run q.action).2.store := by
  refine ⟨grown_serve h.wellFormed, grown_serveAll h.wellFormed, fun q => ?_⟩
  rw [Query.run_action]
  exact .refl h.wellFormed

/-- A payment makes a script of a wallet without a path, and a later report fills the path in. -/
theorem grown_of_filledPath :
    ∃ (l : Ledger) (id path : String) (r : Request), Reachable l ∧
      Grown l.store (l.serve r).store ∧
      record? WalletScript l.store ⟨id, aliasScript⟩ = some ⟨id, aliasScript, none⟩ ∧
      record? WalletScript (l.serve r).store ⟨id, aliasScript⟩ =
        some ⟨id, aliasScript, some path⟩ := by
  obtain ⟨id, hw, -⟩ := exists_wallet_aliasLedger
  have hs := reachable_aliasLedger.wellFormed
  let first := (paymentReport id aliasScript 1000 none).request
  let second := (paymentReport id aliasScript 1000 (some "0")).request
  have hreach : Reachable (aliasLedger.serve first) := .served reachable_aliasLedger first
  have hbefore : record? WalletScript (aliasLedger.serve first).store ⟨id, aliasScript⟩ =
      some ⟨id, aliasScript, none⟩ := by
    rw [record?_walletScript_payment hs hw, if_pos rfl, record?_aliasLedger (by decide)]
    rfl
  -- the first payment changed no wallet
  have hw₁ : record? Wallet (aliasLedger.serve first).store id = some (aliasWallet id) := by
    have hrows : SameRows (Entity.kind Wallet) aliasLedger.store (aliasLedger.serve first).store :=
      sameRows_serve hs.sound (by simp [first, Report.request, Request.writes, Entity.kind])
    rw [hrows.record?_eq, hw]
  refine ⟨_, id, (aliasWallet id).pathFor "0", second, hreach, hreach.grown.1 second, hbefore, ?_⟩
  rw [record?_walletScript_payment hreach.wellFormed hw₁, if_pos rfl, hbefore]
  rfl

end CoinLedger
