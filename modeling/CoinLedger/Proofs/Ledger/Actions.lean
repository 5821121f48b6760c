import CoinLedger.Ledger.Request
import CoinLedger.Proofs.Results

/-! # What actions leave alone

An action that writes nothing leaves the store as it is (`Keeps`), and one that asks nobody about the
chain goes the same way whoever watches it (`Offline`).  Both are put together from the steps of an
action. -/

namespace CoinLedger.Ledger

variable {α β : Type}

/-! ### Actions that write nothing -/

/-- The action leaves the store as it is. -/
def Keeps (a : Action α) : Prop := ∀ l : Ledger, (l.run a).2.store = l.store

namespace Keeps

theorem pure (x : α) : Keeps (Pure.pure x : Action α) := fun _ => rfl

theorem throw (e : Error) : Keeps (MonadExcept.throw e : Action α) := fun _ => rfl

theorem bind {a : Action α} {f : α → Action β} (ha : Keeps a) (hf : ∀ x, Keeps (f x)) :
    Keeps (a >>= f) := by
  intro l
  rw [run_bind]
  have hstore := ha l
  rcases hrun : l.run a with ⟨_ | x, l'⟩
  · rw [hrun] at hstore
    exact hstore
  · rw [hrun] at hstore
    exact (hf x l').trans hstore

theorem read (f : Store → Except Error α) : Keeps (Ledger.read f) := by
  intro l
  rw [run_read]

theorem check (r : Except Error α) : Keeps (Ledger.check r) := by
  intro l
  rw [run_check]

theorem get : Keeps MonadState.get := fun _ => rfl

theorem remember (walletId : String) (master : Key.ExtendedKey) :
    Keeps (Ledger.remember walletId master) := fun _ => rfl

theorem masterKeyOf (w : Wallet) : Keeps (Ledger.masterKeyOf w) := by
  refine .bind .get fun l => ?_
  cases l.masterKeys.lookup w.id with
  | some master => exact .pure master
  | none => exact .bind (.check _) fun master => .bind (.remember _ _) fun _ => .pure master

theorem nextScript (walletId : String) : Keeps (Ledger.nextScript walletId) :=
  .bind (.read _) fun w => .bind (.check _) fun _ => .bind (.masterKeyOf w) fun _ =>
    .bind (.check _) fun _ => .pure _

theorem trackOnChain (walletId : String) (script : Script) :
    Keeps (Ledger.trackOnChain walletId script) := by
  refine .bind .get fun l => ?_
  cases l.chain with
  | some table => exact .bind (.check _) fun _ _ => rfl
  | none => exact .pure _

theorem signTransaction (walletId : String) (tx : Transaction) :
    Keeps (Ledger.signTransaction walletId tx) :=
  .bind (.read _) fun w => .bind (.masterKeyOf w) fun _ => .bind (.read _) fun _ =>
    .bind (.check _) fun _ => .bind (.check _) fun _ => .pure _

end Keeps

/-! ### Actions that have nothing to do with the chain -/

/-- The ledger, watched over by this service. -/
def watchedBy (l : Ledger) (chain : Option ChainTable) : Ledger := { l with chain := chain }

theorem serve_setChain (l : Ledger) (chain : Option ChainTable) :
    l.serve (.setChain chain) = l.watchedBy chain := rfl

/-- The action goes the same way whoever watches the chain, and leaves the service as it is. -/
def Offline (a : Action α) : Prop :=
  ∀ (l : Ledger) (chain : Option ChainTable),
    (l.watchedBy chain).run a = ((l.run a).1, (l.run a).2.watchedBy chain)

namespace Offline

theorem pure (x : α) : Offline (Pure.pure x : Action α) := fun _ _ => rfl

theorem bind {a : Action α} {f : α → Action β} (ha : Offline a) (hf : ∀ x, Offline (f x)) :
    Offline (a >>= f) := by
  intro l chain
  rw [run_bind, run_bind, ha l chain]
  rcases l.run a with ⟨_ | x, l'⟩
  · rfl
  · exact hf x l' chain

theorem get_bind {f : Ledger → Action β} (hf : ∀ l, Offline (f l))
    (hchain : ∀ l chain, f (watchedBy l chain) = f l) : Offline (MonadState.get >>= f) := by
  intro l chain
  rw [run_bind, run_bind, run_get, run_get]
  simp only [hchain]
  exact hf l l chain

theorem read (f : Store → Except Error α) : Offline (Ledger.read f) := by
  intro l chain
  rw [run_read, run_read]
  rfl

theorem check (r : Except Error α) : Offline (Ledger.check r) := by
  intro l chain
  rw [run_check, run_check]

theorem write (batch : Batch) : Offline (Ledger.write batch) := by
  intro l chain
  rw [run_write, run_write, watchedBy]
  cases commit l.store batch <;> rfl

theorem remember (walletId : String) (master : Key.ExtendedKey) :
    Offline (Ledger.remember walletId master) := fun _ _ => rfl

theorem masterKeyOf (w : Wallet) : Offline (Ledger.masterKeyOf w) := by
  refine .get_bind (fun l => ?_) fun _ _ => rfl
  cases l.masterKeys.lookup w.id with
  | some master => exact .pure master
  | none => exact .bind (.check _) fun master => .bind (.remember _ _) fun _ => .pure master

theorem nextScript (walletId : String) : Offline (Ledger.nextScript walletId) :=
  .bind (.read _) fun w => .bind (.check _) fun _ => .bind (.masterKeyOf w) fun _ =>
    .bind (.check _) fun _ => .pure _

theorem chain_eq {a : Action α} (ha : Offline a) (l : Ledger) : (l.run a).2.chain = l.chain :=
  congrArg (fun run => run.2.chain) (ha l l.chain)

end Offline

end CoinLedger.Ledger
