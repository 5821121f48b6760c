import CoinLedger.Ledger.Wallets
import CoinLedger.Proofs.Key.Template
import CoinLedger.Proofs.Store.Frame

/-! # The next script of a wallet

`nextScript` reads the wallet, takes the index behind the last one and derives the script at the
path of this index.  `IsNext` says what comes out as a rule on the wallet alone: the script with the
`k`-th index behind the last one is determined by the wallet and by its master key, `masterOf`
(`IsNext.unique`), and scripts with different indexes have different paths
(`IsNext.path_ne`).  Computing master keys changes no answer (`Learned`).

`NextScript.commit_batch` says what committing a script does to the rows of the store. -/

namespace CoinLedger

open Ledger

/-! ### Master keys -/

/-- The master key that a ledger has for a wallet. -/
def Ledger.masterOf (l : Ledger) (w : Wallet) : Except Error Key.ExtendedKey :=
  match l.masterKeys.lookup w.id with
  | some master => .ok master
  | none => Key.masterKey w.mnemonic l.network

/-- The second ledger is the first one, up to master keys of stored wallets that were computed. -/
structure Ledger.Learned (l l' : Ledger) : Prop where
  store : l'.store = l.store
  masterOf : ∀ w, record? Wallet l.store w.id = some w → l'.masterOf w = l.masterOf w

theorem Ledger.Learned.refl (l : Ledger) : Learned l l := ⟨rfl, fun _ _ => rfl⟩

theorem Ledger.learned_remember {l : Ledger} {w : Wallet} {master : Key.ExtendedKey}
    (hw : record? Wallet l.store w.id = some w) (hmaster : l.masterOf w = .ok master) :
    Learned l { l with masterKeys := (w.id, master) :: l.masterKeys } := by
  refine ⟨rfl, ?_⟩
  intro w' hw'
  by_cases hid : w'.id = w.id
  · obtain rfl : w = w' := by
      rw [hid, hw] at hw'
      exact Option.some.inj hw'
    rw [hmaster, Ledger.masterOf, List.lookup_cons, beq_self_eq_true]
  · rw [Ledger.masterOf, List.lookup_cons, beq_false_of_ne hid]
    rfl

theorem Ledger.run_masterKeyOf (l : Ledger) (w : Wallet) :
    (l.run (masterKeyOf w)).1 = l.masterOf w ∧
      (record? Wallet l.store w.id = some w → Learned l (l.run (masterKeyOf w)).2) := by
  unfold masterKeyOf
  cases hlookup : l.masterKeys.lookup w.id with
  | some master =>
      have hmaster : l.masterOf w = .ok master := by rw [Ledger.masterOf, hlookup]
      simp only [run_bind, run_get, hlookup, hmaster]
      exact ⟨rfl, fun _ => .refl l⟩
  | none =>
      have hmaster : l.masterOf w = Key.masterKey w.mnemonic l.network := by
        rw [Ledger.masterOf, hlookup]
      simp only [run_bind, run_get, run_check, hlookup, hmaster]
      cases hkey : Key.masterKey w.mnemonic l.network with
      | error e => exact ⟨rfl, fun _ => .refl l⟩
      | ok master => exact ⟨rfl, fun hw => learned_remember hw (hmaster.trans hkey)⟩

/-! ### The rule -/

/-- The script of a wallet at a path. -/
def Ledger.scriptAt (l : Ledger) (w : Wallet) (path : Key.Path) : Except Error Script := do
  let master ← l.masterOf w
  let key ← master.descend path
  return .ofPublicKey key.publicKey

/-- The script whose index is `k + 1` behind the last one of the wallet. -/
structure IsNext (l : Ledger) (w : Wallet) (k : Nat) (next : NextScript) : Prop where
  index : next.index.toNat = w.lastIndex.toNat + k + 1
  path : next.path = w.pathFor (toString next.index.toNat)
  script : ∃ path, Key.Path.parse? next.path = some path ∧ l.scriptAt w path = .ok next.script

namespace IsNext

variable {l : Ledger} {w : Wallet} {k k' : Nat} {a b : NextScript}

theorem unique (ha : IsNext l w k a) (hb : IsNext l w k b) : a = b := by
  have hindex : a.index = b.index := UInt32.toNat_inj.1 (ha.index.trans hb.index.symm)
  have hpath : a.path = b.path := by rw [ha.path, hb.path, hindex]
  obtain ⟨p, hp, hscript⟩ := ha.script
  obtain ⟨q, hq, hscript'⟩ := hb.script
  obtain rfl : p = q := Option.some.inj (hp.symm.trans (hpath ▸ hq))
  have hscripts : a.script = b.script := Except.ok.inj (hscript.symm.trans hscript')
  cases a
  cases b
  simp only at hindex hpath hscripts
  rw [hindex, hpath, hscripts]

/-- Scripts with different indexes are derived at different paths. -/
theorem path_ne (htemplate : Key.checkTemplate w.derivationPath = .ok ()) (ha : IsNext l w k a)
    (hb : IsNext l w k' b) (hk : k ≠ k') :
    ∃ p q, Key.Path.parse? a.path = some p ∧ Key.Path.parse? b.path = some q ∧ p ≠ q ∧
      l.scriptAt w p = .ok a.script ∧ l.scriptAt w q = .ok b.script := by
  have hcount := (Key.checkTemplate_eq_ok_iff.1 htemplate).1
  obtain ⟨p, hp, hscript⟩ := ha.script
  obtain ⟨q, hq, hscript'⟩ := hb.script
  refine ⟨p, q, hp, hq, ?_, hscript, hscript'⟩
  rintro rfl
  rw [ha.path, Wallet.pathFor] at hp
  rw [hb.path, Wallet.pathFor] at hq
  have hindex := Key.parse?_fill_injective hcount hp hq
  rw [ha.index, hb.index] at hindex
  omega

end IsNext

/-- The wallet after its index was raised. -/
def Wallet.advance (w : Wallet) (k : Nat) : Wallet :=
  { w with lastIndex := .ofNat (w.lastIndex.toNat + k) }

@[simp] theorem Wallet.advance_zero (w : Wallet) : w.advance 0 = w := by
  simp [Wallet.advance]

theorem Wallet.toNat_lastIndex_advance {w : Wallet} {k : Nat}
    (h : w.lastIndex.toNat + k < UInt32.size) :
    (w.advance k).lastIndex.toNat = w.lastIndex.toNat + k :=
  UInt32.toNat_ofNat_of_lt' h

namespace IsNext

variable {l l' : Ledger} {w : Wallet} {k : Nat} {next : NextScript}

theorem lt (h : IsNext l w k next) : w.lastIndex.toNat + k + 1 < UInt32.size := by
  rw [← h.index]
  exact next.index.toNat_lt

theorem advance_succ (h : IsNext l w k next) :
    { w.advance k with lastIndex := next.index } = w.advance (k + 1) := by
  have hindex : next.index = .ofNat (w.lastIndex.toNat + (k + 1)) := by
    rw [← Nat.add_assoc, ← h.index, UInt32.ofNat_toNat]
  rw [hindex]
  rfl

/-- The next script of a wallet that has advanced. -/
theorem of_advance (hmaster : l'.masterOf w = l.masterOf w)
    (hbound : w.lastIndex.toNat + k < UInt32.size) (h : IsNext l' (w.advance k) 0 next) :
    IsNext l w k next := by
  obtain ⟨p, hp, hscript⟩ := h.script
  refine ⟨?_, h.path, p, hp, ?_⟩
  · rw [h.index, Wallet.toNat_lastIndex_advance hbound]
  · rw [← hscript, scriptAt, scriptAt, ← hmaster]
    rfl

end IsNext

/-! ### Deriving -/

theorem derive_ok {master : Key.ExtendedKey} {path : String} {key : Key.DerivedKey}
    (h : Key.DerivedKey.derive master path = .ok key) :
    ∃ steps below, Key.Path.parse? path = some steps ∧ master.descend steps = .ok below ∧
      key.script = .ofPublicKey below.publicKey := by
  obtain ⟨steps, hsteps, h⟩ := bind_ok h
  obtain ⟨below, hbelow, h⟩ := bind_ok h
  refine ⟨steps, below, ?_, hbelow, ?_⟩
  · unfold Key.parsePath at hsteps
    cases hparse : Key.Path.parse? path with
    | none =>
        rw [hparse] at hsteps
        cases hsteps
    | some p =>
        rw [hparse] at hsteps
        rw [Except.ok.inj hsteps]
  · rw [← Except.ok.inj h]
    rfl

theorem nextIndex_ok {walletId : String} {last index : UInt32}
    (h : nextIndex walletId last = .ok index) : index.toNat = last.toNat + 1 := by
  unfold nextIndex at h
  split at h
  · rename_i hlt
    rw [← Except.ok.inj h, UInt32.toNat_add]
    exact Nat.mod_eq_of_lt hlt
  · cases h

theorem requireWallet_eq {s : Store} (hs : Sound Wallet s) (walletId : String) :
    requireWallet s walletId =
      match record? Wallet s walletId with
      | some w => .ok w
      | none => .error (.walletNotFound walletId) := by
  unfold requireWallet
  rw [hs.getEntity]
  cases record? Wallet s walletId <;> rfl

theorem record?_of_requireWallet {s : Store} (hs : Sound Wallet s) {walletId : String} {w : Wallet}
    (h : requireWallet s walletId = .ok w) : record? Wallet s walletId = some w := by
  rw [requireWallet_eq hs] at h
  split at h
  · rename_i stored hstored
    rw [hstored, Except.ok.inj h]
  · cases h

/-- What `nextScript` computes, master keys being at hand. -/
def Ledger.nextOf (l : Ledger) (walletId : String) : Except Error NextScript := do
  let wallet ← requireWallet l.store walletId
  let index ← nextIndex walletId wallet.lastIndex
  let path := wallet.pathFor (toString index.toNat)
  let master ← l.masterOf wallet
  let key ← Key.DerivedKey.derive master path
  return ⟨index, path, key.script⟩

theorem run_nextScript {l : Ledger} (hs : Sound Wallet l.store) (walletId : String) :
    (l.run (nextScript walletId)).1 = l.nextOf walletId ∧
      Learned l (l.run (nextScript walletId)).2 := by
  unfold nextScript Ledger.nextOf
  rw [run_bind, run_read, requireWallet_eq hs]
  cases hw : record? Wallet l.store walletId with
  | none => exact ⟨rfl, .refl l⟩
  | some w =>
      have hid : w.id = walletId := hs.key_eq hw
      simp only [run_bind, run_check, ok_bind]
      cases nextIndex walletId w.lastIndex with
      | error e => exact ⟨rfl, .refl l⟩
      | ok index =>
          obtain ⟨hmaster, hlearned⟩ := run_masterKeyOf l w
          have hlearned := hlearned (hid ▸ hw)
          simp only [ok_bind]
          rw [← hmaster]
          generalize l.run (masterKeyOf w) = run at hlearned ⊢
          obtain ⟨_ | master, l'⟩ := run
          · exact ⟨rfl, hlearned⟩
          · simp only [ok_bind]
            cases Key.DerivedKey.derive master (w.pathFor (toString index.toNat)) <;>
              exact ⟨rfl, hlearned⟩

/-- What is derived is the next script of the stored wallet. -/
theorem isNext_of_nextOf {l : Ledger} (hs : Sound Wallet l.store) {walletId : String}
    {next : NextScript} (h : l.nextOf walletId = .ok next) :
    ∃ w, record? Wallet l.store walletId = some w ∧ IsNext l w 0 next := by
  obtain ⟨w, hw, h⟩ := bind_ok h
  obtain ⟨index, hindex, h⟩ := bind_ok h
  obtain ⟨master, hmaster, h⟩ := bind_ok h
  obtain ⟨key, hkey, h⟩ := bind_ok h
  obtain rfl := Except.ok.inj h
  obtain ⟨steps, below, hsteps, hbelow, hscript⟩ := derive_ok hkey
  refine ⟨w, record?_of_requireWallet hs hw, nextIndex_ok hindex, rfl, steps, hsteps, ?_⟩
  rw [Ledger.scriptAt, hmaster]
  simp only [bind, Except.bind, hbelow, hscript]
  rfl

/-! ### Scripts that can be derived -/

theorem exists_descend_eq_ok : ∀ (path : Key.Path) {master : Key.ExtendedKey},
    master.depth + path.length ≤ 255 → ∃ key, master.descend path = .ok key
  | [], master, _ => ⟨master, rfl⟩
  | step :: path, master, hdepth => by
      rw [List.length_cons] at hdepth
      have hlt : ¬255 ≤ master.depth := by omega
      rw [Key.ExtendedKey.descend, Key.ExtendedKey.child, if_neg hlt]
      apply exists_descend_eq_ok path
      simp only
      omega

/-- A wallet has a next script unless it has used all indexes, as far as keys go. -/
theorem exists_nextOf_eq_ok {l : Ledger} (hs : Sound Wallet l.store) {walletId : String}
    {w : Wallet} {master : Key.ExtendedKey} {path : Key.Path}
    (hw : record? Wallet l.store walletId = some w) (hindex : w.lastIndex.toNat + 1 < UInt32.size)
    (hmaster : l.masterOf w = .ok master)
    (hpath : Key.Path.parse? (w.pathFor (toString (w.lastIndex.toNat + 1))) = some path)
    (hdepth : master.depth + path.length ≤ 255) : ∃ next, l.nextOf walletId = .ok next := by
  obtain ⟨key, hkey⟩ := exists_descend_eq_ok path hdepth
  have hnext : nextIndex walletId w.lastIndex = .ok (w.lastIndex + 1) := if_pos hindex
  have htoNat : (w.lastIndex + 1).toNat = w.lastIndex.toNat + 1 := nextIndex_ok hnext
  unfold Ledger.nextOf Key.DerivedKey.derive Key.parsePath
  rw [requireWallet_eq hs, hw]
  simp only [bind, Except.bind, hnext, hmaster, htoNat, hpath, hkey]
  exact ⟨_, rfl⟩

/-! ### Committing -/

theorem get?_reviseEntity_of_head?_ne {α κ : Type} [Entity α κ] {s s' : Store} {k : κ}
    {f : Option α → Except Error (Option α)} (h : reviseEntity α s k f = .ok s') {key : Bytes}
    (hkey : key.head? ≠ some (Entity.kind α).byte) : s'.get? key = s.get? key := by
  obtain ⟨-, made, -, -, rfl⟩ := reviseEntity_ok h
  cases made with
  | none => rfl
  | some a =>
      have hne : rowKey α (Entity.key a) ≠ key := by
        rintro rfl
        exact hkey (head?_rowKey _)
      rw [Option.elim_some, get?_putEntity, if_neg hne]

/-- The row of a record, under its own key. -/
def rowOf {α κ : Type} [Entity α κ] (a : α) (key : Bytes) : Option Bytes :=
  if rowKey α (Entity.key a) = key then some (encodeEntity a) else none

/-- A record is made where there is no row. -/
theorem get?_reviseEntity_inserted {α κ : Type} [Entity α κ] {s s' : Store} (a : α)
    (h : reviseEntity α s (Entity.key a) (.ok ∘ Operation.inserted a) = .ok s') (key : Bytes) :
    s'.get? key = (s.get? key).or (rowOf a key) := by
  obtain ⟨found, made, hfound, hmade, rfl⟩ := reviseEntity_ok h
  obtain rfl : Operation.inserted a found = made := Except.ok.inj hmade
  unfold getEntity at hfound
  cases hrow : RowSource.row? s (rowKey α (Entity.key a)) with
  | none =>
      obtain rfl : none = found := by
        rw [hrow] at hfound
        exact Except.ok.inj hfound
      rw [Operation.inserted, Option.elim_some, get?_putEntity, rowOf]
      by_cases hkey : rowKey α (Entity.key a) = key
      · subst hkey
        have hnone : s.get? (rowKey α (Entity.key a)) = none := hrow
        simp [hnone]
      · simp [hkey]
  | some bs =>
      rw [hrow] at hfound
      obtain ⟨b, -, rfl⟩ := map_ok hfound
      rw [Operation.inserted, Option.elim_none, rowOf]
      by_cases hkey : rowKey α (Entity.key a) = key
      · subst hkey
        have hsome : s.get? (rowKey α (Entity.key a)) = some bs := hrow
        simp [hsome]
      · simp [hkey]

namespace Ledger.NextScript

/-- The rows that are made for a script of a wallet. -/
def row? (next : NextScript) (walletId : String) (key : Bytes) : Option Bytes :=
  (rowOf (⟨next.script⟩ : ScriptRecord) key).or
    (rowOf (⟨walletId, next.script, some next.path⟩ : WalletScript) key)

variable {s s' : Store} {walletId : String} {next : NextScript}

/-- A script that is committed raises the index of the wallet, and makes rows that are not there. -/
theorem commit_batch (hs : Sound Wallet s) (h : commit s (next.batch walletId) = .ok s') :
    Sound Wallet s' ∧
      (∀ w, record? Wallet s walletId = some w → w.lastIndex < next.index → ∀ id,
        record? Wallet s' id =
          if walletId = id then some { w with lastIndex := next.index } else record? Wallet s id) ∧
      ∀ key, key.head? ≠ some EntityKind.wallet.byte →
        s'.get? key = (s.get? key).or (next.row? walletId key) := by
  rw [commit_eq_foldlM] at h
  obtain ⟨s₁, hraise, h⟩ := foldlM_ok h
  obtain ⟨s₂, hscript, h⟩ := foldlM_ok h
  obtain ⟨s₃, hwalletScript, h⟩ := foldlM_ok h
  obtain rfl : s₃ = s' := Except.ok.inj h
  have hkey : ∀ a, Operation.raisedIndex walletId next.index (record? Wallet s walletId) =
      .ok (some a) → a.id = walletId := by
    intro a ha
    cases hw : record? Wallet s walletId with
    | none =>
        rw [hw] at ha
        cases ha
    | some w =>
        have hid : w.id = walletId := hs.key_eq hw
        rw [hw, Operation.raisedIndex] at ha
        split at ha
        · rw [← Option.some.inj (Except.ok.inj ha)]
          exact hid
        · cases ha
  obtain ⟨hs₁, made, hmade, hrecord⟩ := hs.reviseEntity hkey hraise
  have hrows : SameRows .wallet s₁ s₃ :=
    (SameRows.reviseEntity (by decide) hscript).trans
      (SameRows.reviseEntity (by decide) hwalletScript)
  refine ⟨hrows.sound hs₁, ?_, ?_⟩
  · intro w hw hlt id
    rw [hw, Operation.raisedIndex, if_pos hlt] at hmade
    rw [hrows.record?_eq, hrecord, ← Except.ok.inj hmade]
    rfl
  · intro key hkey
    rw [get?_reviseEntity_inserted _ hwalletScript, get?_reviseEntity_inserted _ hscript,
      get?_reviseEntity_of_head?_ne hraise hkey, Option.or_assoc]
    rfl

/-- A script of a stored wallet can be committed. -/
theorem exists_commit_batch_eq_ok {w : Wallet} (hs : WellFormed s)
    (hw : record? Wallet s walletId = some w) (next : NextScript) :
    ∃ s', commit s (next.batch walletId) = .ok s' := by
  have hraise : ∃ s₁, (Operation.raiseIndex walletId next.index).apply s = .ok s₁ := by
    simp only [Operation.apply, reviseEntity, hs.sound.getEntity, hw, bind, Except.bind,
      Operation.raisedIndex]
    by_cases hlt : w.lastIndex < next.index
    · rw [if_pos hlt]
      exact ⟨_, rfl⟩
    · rw [if_neg hlt]
      exact ⟨_, rfl⟩
  obtain ⟨s₁, hs₁⟩ := hraise
  have hscripts : ∀ op ∈ (next.batch walletId).tail, op.needsWallet = false := by
    simp [batch, Operation.needsWallet]
  obtain ⟨s', hs'⟩ := exists_commit_eq_ok ((Operation.writes_apply hs₁).wellFormed hs) hscripts
  refine ⟨s', ?_⟩
  rw [commit_eq_foldlM] at hs' ⊢
  rw [batch, List.foldlM_cons, hs₁]
  exact hs'

/-! ### Rows of different wallets -/

theorem length_of_scriptAt {l : Ledger} {w : Wallet} {path : Key.Path} {script : Script}
    (h : l.scriptAt w path = .ok script) : script.bytes.length = 22 := by
  obtain ⟨master, -, h⟩ := bind_ok h
  obtain ⟨key, -, h⟩ := bind_ok h
  rw [← Except.ok.inj h]
  simp [Script.ofPublicKey]

theorem row?_some {key value : Bytes} (h : next.row? walletId key = some value) :
    (rowKey ScriptRecord next.script = key ∧
        encodeEntity (⟨next.script⟩ : ScriptRecord) = value) ∨
      rowKey WalletScript ⟨walletId, next.script⟩ = key ∧
        encodeEntity (⟨walletId, next.script, some next.path⟩ : WalletScript) = value := by
  unfold row? rowOf at h
  split at h
  · rename_i hkey
    exact .inl ⟨hkey, Option.some.inj h⟩
  · rw [Option.none_or] at h
    split at h
    · rename_i hkey
      exact .inr ⟨hkey, Option.some.inj h⟩
    · cases h

/-- Scripts of different wallets make the same row only with the same value. -/
theorem row?_agree {id id' : String} (hid : id ≠ id') {next next' : NextScript}
    (hlength : next.script.bytes.length = 22) (hlength' : next'.script.bytes.length = 22)
    {key value value' : Bytes} (h : next.row? id key = some value)
    (h' : next'.row? id' key = some value') : value = value' := by
  have hkinds : ∀ (a b : Script) (id : String),
      rowKey ScriptRecord a ≠ rowKey WalletScript ⟨id, b⟩ := fun a b id =>
    rowKey_ne (by decide) a _
  rcases row?_some h with ⟨rfl, rfl⟩ | ⟨rfl, rfl⟩
  · rcases row?_some h' with ⟨hkey, rfl⟩ | ⟨hkey, -⟩
    · rw [rowKey_inj.1 hkey]
    · exact absurd hkey.symm (hkinds _ _ _)
  · rcases row?_some h' with ⟨hkey, -⟩ | ⟨hkey, -⟩
    · exact absurd hkey (hkinds _ _ _)
    · exact absurd (walletScript_rowKey_inj (hlength.trans hlength'.symm) hkey.symm).1 hid

end Ledger.NextScript

end CoinLedger
