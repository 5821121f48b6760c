import CoinLedger.Proofs.Ledger.Convergence
import CoinLedger.Proofs.Ledger.DeriveScript
import CoinLedger.Proofs.Ledger.Replacement

/-! # Scripts that were derived

A script that was derived for a wallet stays a script of the wallet, and a path that is known of it
is never changed (`record?_serve_of_path`).  Paths are reported by events too.  If what they report
is true, a known path is one at which the wallet has the key of the script (`PathsRight`); this is
kept by every request, since what comes in with its batch is `Vouched` for.

But deriving a script does not make its path known if the script was a script of the wallet already
without one, as a tracked script is, or one that an event reported without a path.  The coins of a
script are offered for spending just as long as its path is known, and
`offered_of_derivedScript` says when that is. -/

namespace CoinLedger

open Ledger

/-! ### Paths that are known -/

/-- The script is a script of the wallet, and this is its path. -/
def PathKnown (s : Store) (walletId : String) (script : Script) (path : String) : Prop :=
  record? WalletScript s ⟨walletId, script⟩ = some ⟨walletId, script, some path⟩

namespace Operation

variable {op : Operation} {k : WalletScriptKey}

/-- The script of a wallet that an operation brings in. -/
def walletScript? : Operation → Option WalletScript
  | insertWalletScript w | mergeWalletScript w => some w
  | _ => none

theorem mem_writes_of_walletScript? {w : WalletScript} (h : op.walletScript? = some w) :
    .walletScript ∈ op.writes := by
  cases op with
  | insertWalletScript w | mergeWalletScript w => simp [writes]
  | _ => cases h

/-- Where there is no script yet, an operation makes the one that it brings in. -/
theorem walletScript?_of_onWalletScript_none {row : WalletScript}
    (h : op.onWalletScript k none = some row) :
    op.walletScript? = some row ∧ rowKey WalletScript (Entity.key row) = rowKey WalletScript k := by
  cases op with
  | insertWalletScript w | mergeWalletScript w =>
      rw [onWalletScript] at h
      split at h
      · rename_i hkey
        obtain rfl : w = row := Option.some.inj h
        exact ⟨rfl, hkey⟩
      · cases h
  | _ => cases h

theorem walletScript?_of_suppliedPath {path : String} (h : op.suppliedPath k = some path) :
    ∃ w, op.walletScript? = some w ∧ rowKey WalletScript (Entity.key w) = rowKey WalletScript k ∧
      w.derivationPath = some path := by
  cases op with
  | mergeWalletScript w =>
      rw [suppliedPath] at h
      split at h
      · rename_i hkey
        exact ⟨w, rfl, hkey, h⟩
      · cases h
  | _ => cases h

/-- A path was known before, or an operation brings it in. -/
theorem path_of_onWalletScript {found : Option WalletScript} {row : WalletScript} {path : String}
    (h : op.onWalletScript k found = some row) (hpath : row.derivationPath = some path) :
    (∃ known, found = some known ∧ known.derivationPath = some path) ∨
      ∃ w, op.walletScript? = some w ∧ rowKey WalletScript (Entity.key w) = rowKey WalletScript k ∧
        w.derivationPath = some path := by
  cases found with
  | none =>
      obtain ⟨hbrought, hkey⟩ := walletScript?_of_onWalletScript_none h
      exact .inr ⟨row, hbrought, hkey, hpath⟩
  | some known =>
      rw [onWalletScript_some] at h
      rw [← Option.some.inj h] at hpath
      cases hknown : known.derivationPath with
      | none =>
          rw [hknown, Option.none_or] at hpath
          exact .inr (walletScript?_of_suppliedPath hpath)
      | some path' =>
          rw [hknown, Option.some_or] at hpath
          exact .inl ⟨known, rfl, hknown.trans hpath⟩

end Operation

section

variable {k : WalletScriptKey} {batch : Batch}

theorem isSome_onAll_walletScript {found : Option WalletScript} (h : found.isSome = true) :
    (Pointwise.onAll k batch found).isSome = true := by
  obtain ⟨known, rfl⟩ := Option.isSome_iff_exists.1 h
  obtain ⟨filled, hfilled, -⟩ := exists_onAll_walletScript_eq_some k batch known
  rw [hfilled]
  rfl

theorem onAll_walletScript_of_path {known : WalletScript} {path : String}
    (h : known.derivationPath = some path) :
    Pointwise.onAll k batch (some known) = some known := by
  obtain ⟨filled, hfilled, hfills⟩ := exists_onAll_walletScript_eq_some k batch known
  rw [hfilled, hfills.eq_of_path h]

theorem path_of_onAll {found : Option WalletScript} {row : WalletScript} {path : String}
    (h : Pointwise.onAll k batch found = some row) (hpath : row.derivationPath = some path) :
    (∃ known, found = some known ∧ known.derivationPath = some path) ∨
      ∃ op ∈ batch, ∃ w, op.walletScript? = some w ∧
        rowKey WalletScript (Entity.key w) = rowKey WalletScript k ∧ w.derivationPath = some path := by
  induction batch generalizing found with
  | nil => exact .inl ⟨row, h, hpath⟩
  | cons op batch ih =>
      rcases ih h with ⟨known, hknown, hsame⟩ | ⟨op', hop', hbrought⟩
      · rcases Operation.path_of_onWalletScript hknown hsame with hbefore | hbrought
        · exact .inl hbefore
        · exact .inr ⟨op, List.mem_cons_self, hbrought⟩
      · exact .inr ⟨op', List.mem_cons_of_mem _ hop', hbrought⟩

end

/-! ### What requests do to known paths -/

namespace Ledger

variable {l : Ledger} {k : WalletScriptKey}

theorem isSome_walletScript_serve (hs : WellFormed l.store) (r : Request)
    (h : (record? WalletScript l.store k).isSome = true) :
    (record? WalletScript (l.serve r).store k).isSome = true := by
  rcases serve_ok hs.sound r with hstore | ⟨batch, -, hcommit⟩
  · rw [hstore]
    exact h
  · rw [Pointwise.record?_commit hs.sound hcommit]
    exact isSome_onAll_walletScript h

theorem record?_serve_of_path (hs : WellFormed l.store) (r : Request) {known : WalletScript}
    {path : String} (h : record? WalletScript l.store k = some known)
    (hpath : known.derivationPath = some path) :
    record? WalletScript (l.serve r).store k = some known := by
  rcases serve_ok hs.sound r with hstore | ⟨batch, -, hcommit⟩
  · rw [hstore, h]
  · rw [Pointwise.record?_commit hs.sound hcommit, h]
    exact onAll_walletScript_of_path hpath

theorem isSome_walletScript_serveAll (hs : WellFormed l.store) (requests : List Request)
    (h : (record? WalletScript l.store k).isSome = true) :
    (record? WalletScript (l.serveAll requests).store k).isSome = true := by
  induction requests generalizing l with
  | nil => exact h
  | cons r requests ih => exact ih (wellFormed_serve hs r) (isSome_walletScript_serve hs r h)

theorem record?_serveAll_of_path (hs : WellFormed l.store) (requests : List Request)
    {known : WalletScript} {path : String} (h : record? WalletScript l.store k = some known)
    (hpath : known.derivationPath = some path) :
    record? WalletScript (l.serveAll requests).store k = some known := by
  induction requests generalizing l with
  | nil => exact h
  | cons r requests ih => exact ih (wellFormed_serve hs r) (record?_serve_of_path hs r h hpath)

end Ledger

/-! ### Paths that are right -/

/-- At this path a wallet has the key of a script, and the two are named by the bytes of this key. -/
def RightPath (s : Store) (k : WalletScriptKey) (path : String) : Prop :=
  ∃ w script, record? Wallet s w.id = some w ∧
    rowKey WalletScript ⟨w.id, script⟩ = rowKey WalletScript k ∧ w.Unlocks path script

/-- All paths that are known are right. -/
def PathsRight (s : Store) : Prop :=
  ∀ k row path, record? WalletScript s k = some row → row.derivationPath = some path →
    RightPath s k path

/-- All paths that a batch brings in are right. -/
def Vouched (s : Store) (batch : Batch) : Prop :=
  ∀ op ∈ batch, ∀ w, op.walletScript? = some w → ∀ path, w.derivationPath = some path →
    RightPath s (Entity.key w) path

theorem RightPath.keeps {s s' : Store} {k : WalletScriptKey} {path : String}
    (h : RightPath s k path) (hkeeps : KeepsWallets s s') : RightPath s' k path := by
  obtain ⟨w, script, hw, hkey, hunlocks⟩ := h
  obtain ⟨w', hw', hsame⟩ := hkeeps w.id w hw
  refine ⟨w', script, ?_, ?_, hsame.unlocks_iff.2 hunlocks⟩
  · rw [hsame.id, hw']
  · rw [hsame.id, hkey]

theorem PathsRight.commit {s s' : Store} {batch : Batch} (h : PathsRight s) (hs : WellFormed s)
    (hbatch : Vouched s batch) (hcommit : commit s batch = .ok s') : PathsRight s' := by
  intro k row path hrow hpath
  have hkeeps := keepsWallets_of_commit hs.sound hcommit
  rw [Pointwise.record?_commit hs.sound hcommit] at hrow
  rcases path_of_onAll hrow hpath with ⟨known, hknown, hsame⟩ | ⟨op, hop, w, hw, hkey, hsame⟩
  · exact (h k known path hknown hsame).keeps hkeeps
  · obtain ⟨owner, script, howner, hkey', hunlocks⟩ := (hbatch op hop w hw path hsame).keeps hkeeps
    exact ⟨owner, script, howner, hkey'.trans hkey, hunlocks⟩

namespace Ledger

/-- What a request reports about paths is true: at a reported path the wallet has the key of the
script. -/
def Truthful (l : Ledger) : Request → Prop
  | .observe name source event => ∀ w, findWallet l.store name = .ok (some w) →
      ∀ row ∈ reportedScripts w source event, ∀ path, row.derivationPath = some path →
        w.Unlocks path row.script
  | _ => True

/-- What requests that are served one after the other report about paths is true. -/
def TruthfulAll : Ledger → List Request → Prop
  | _, [] => True
  | l, r :: requests => Truthful l r ∧ TruthfulAll (l.serve r) requests

variable {l : Ledger}

theorem vouched_derived (hs : Sound Wallet l.store) (hl : Informed l) {walletId : String}
    {next : NextScript} (hnext : l.nextOf walletId = .ok next) :
    Vouched l.store (next.batch walletId) := by
  obtain ⟨w, hw, hunlocks⟩ := hl.unlocks_of_nextOf hs hnext
  have hid : w.id = walletId := hs.key_eq hw
  intro op hop row hrow path hpath
  rcases List.mem_cons.1 hop with rfl | hop
  · cases hrow
  rcases List.mem_cons.1 hop with rfl | hop
  · cases hrow
  obtain rfl := List.mem_singleton.1 hop
  obtain rfl := Option.some.inj hrow
  obtain rfl := Option.some.inj hpath
  exact ⟨w, next.script, hid ▸ hw, by rw [hid]; rfl, hunlocks⟩

/-- An event brings in the scripts that it reports, and no others. -/
theorem mem_reportedScripts_of_mem_observation {w : Wallet} {source : TrackedSource}
    {e : TransactionEvent} {op : Operation} (hop : op ∈ observation w source e) {row : WalletScript}
    (hrow : op.walletScript? = some row) : row ∈ reportedScripts w source e := by
  cases recorded_of_mem_observation hop with
  | derivedScript _ hreported | singleScript _ hreported =>
      obtain rfl := Option.some.inj hrow
      exact hreported
  | _ => cases hrow

/-- A request brings in right paths only, if it reports the truth. -/
theorem vouched_of_batch (hs : Sound Wallet l.store) (hl : Informed l) {r : Request}
    (hr : Truthful l r) {batch : Batch} (h : r.batch l = .ok batch) : Vouched l.store batch := by
  have hwrites : ∀ op ∈ batch, op.walletScript? ≠ none → .walletScript ∈ r.writes := by
    intro op hop hne
    obtain ⟨w, hw⟩ := Option.ne_none_iff_exists'.1 hne
    exact r.writes_of_mem_batch h op hop (Operation.mem_writes_of_walletScript? hw)
  cases r with
  | deriveScript walletId =>
      obtain ⟨next, hnext, h⟩ := bind_ok h
      obtain rfl := Except.ok.inj h
      exact vouched_derived hs hl hnext
  | buildTransaction walletId outputs feeRate explicit order =>
      obtain ⟨_, -, h⟩ := bind_ok h
      dsimp only at h
      split at h
      · cases h
      · obtain ⟨next, hnext, h⟩ := bind_ok h
        obtain rfl := Except.ok.inj h
        exact vouched_derived hs hl hnext
  | trackScript walletId script =>
      obtain ⟨_, -, h⟩ := bind_ok h
      obtain rfl := Except.ok.inj h
      intro op hop row hrow path hpath
      rcases List.mem_cons.1 hop with rfl | hop
      · cases hrow
      · obtain rfl := List.mem_singleton.1 hop
        obtain rfl := Option.some.inj hrow
        cases hpath
  | attachSpendableData walletId outputs =>
      obtain rfl := Except.ok.inj h
      intro op hop row hrow path hpath
      obtain ⟨output, -, hop⟩ := List.mem_flatMap.1 hop
      simp only [SpendableOutput.batch, List.mem_cons, List.not_mem_nil, or_false] at hop
      rcases hop with rfl | rfl | rfl | rfl
      · cases hrow
      · obtain rfl := Option.some.inj hrow
        cases hpath
      · cases hrow
      · cases hrow
  | observe name source event =>
      obtain ⟨found, hfound, h⟩ := bind_ok h
      cases found with
      | none => cases h
      | some w =>
          obtain rfl := Except.ok.inj h
          intro op hop row hrow path hpath
          have hreported := mem_reportedScripts_of_mem_observation hop hrow
          have hid : row.walletId = w.id := walletId_of_mem_reportedScripts hreported
          have hunlocks := hr w hfound row hreported path hpath
          refine ⟨w, row.script, record?_of_findWallet hs hfound, ?_, hunlocks⟩
          rw [← hid]
          rfl
  | _ =>
      intro op hop w hw
      have hmem := hwrites op hop (by simp [hw])
      simp [Request.writes] at hmem

theorem pathsRight_serve (hs : WellFormed l.store) (hl : Informed l) (h : PathsRight l.store)
    {r : Request} (hr : Truthful l r) : PathsRight (l.serve r).store := by
  rcases serve_ok hs.sound r with hstore | ⟨batch, hbatch, hcommit⟩
  · rw [hstore]
    exact h
  · exact h.commit hs (vouched_of_batch hs.sound hl hr hbatch) hcommit

theorem pathsRight_serveAll (hl : Reachable l) (h : PathsRight l.store) {requests : List Request}
    (hrequests : TruthfulAll l requests) : PathsRight (l.serveAll requests).store := by
  induction requests generalizing l with
  | nil => exact h
  | cons r requests ih =>
      have hstep := pathsRight_serve hl.wellFormed hl.informed h hrequests.1
      exact ih (hl.served r) hstep hrequests.2

end Ledger

theorem pathsRight_empty : PathsRight .empty := by
  rintro k row path ⟨⟩

/-! ### Coins that are offered -/

section

variable {s : Store} {walletId : String} {script : Script}

/-- A script with a right path that is listed for a wallet is the wallet's own. -/
theorem pathKnown_of_mem_listedScripts (hs : WellFormed s) (hright : PathsRight s)
    (hids : ∀ {id}, (record? Wallet s id).isSome = true → 0 ∉ Bytes.utf8 id)
    (hwallet : (record? Wallet s walletId).isSome = true) (hlength : script.bytes.length = 22)
    {row : WalletScript} (hrow : row ∈ listedScripts s walletId) (hscript : row.script = script)
    {path : String} (hpath : row.derivationPath = some path) :
    PathKnown s walletId script path := by
  obtain ⟨hstored, hstart⟩ := (hs.sound.mem_recordsFrom rfl).1 hrow
  obtain ⟨w, script', hw, hkey, hunlocks⟩ := hright _ row path hstored hpath
  -- a wallet with a key for the script has it at the same bytes, so that the row names this wallet
  have hsame : w.id = row.walletId :=
    (walletScript_rowKey_inj (by rw [hunlocks.length_script, hscript, hlength]) hkey).1
  have hid : row.walletId = walletId := by
    refine (walletScripts_start_prefix_iff (hids hwallet) ?_).1 hstart
    show 0 ∉ Bytes.utf8 row.walletId
    rw [← hsame]
    exact hids (by rw [hw]; rfl)
  obtain ⟨rowId, rowScript, rowPath⟩ := row
  obtain rfl : rowId = walletId := hid
  obtain rfl : rowScript = script := hscript
  obtain rfl : rowPath = some path := hpath
  exact hstored

/-- Among the scripts that are listed for a wallet a script has the path that is known of it. -/
theorem pathOf?_eq_some_iff (hs : WellFormed s) (hright : PathsRight s)
    (hids : ∀ {id}, (record? Wallet s id).isSome = true → 0 ∉ Bytes.utf8 id)
    (hwallet : (record? Wallet s walletId).isSome = true) (hlength : script.bytes.length = 22)
    (path : String) :
    pathOf? (listedScripts s walletId) script = some path ↔ PathKnown s walletId script path := by
  have hown : ∀ {path}, pathOf? (listedScripts s walletId) script = some path →
      PathKnown s walletId script path := by
    intro path h
    obtain ⟨row, hrow, hscript, hpath⟩ := mem_of_pathOf? h
    exact pathKnown_of_mem_listedScripts hs hright hids hwallet hlength hrow hscript hpath
  refine ⟨hown, fun hknown => ?_⟩
  have hlisted : (⟨walletId, script, some path⟩ : WalletScript) ∈ listedScripts s walletId :=
    (hs.sound.mem_recordsFrom rfl).2 ⟨hknown, ⟨script.bytes, rfl⟩⟩
  obtain ⟨path', hpath'⟩ := exists_pathOf?_eq_some hlisted rfl rfl
  obtain rfl : path' = path := by
    have hsame := Option.some.inj ((hown hpath').symm.trans hknown)
    exact Option.some.inj (congrArg WalletScript.derivationPath hsame)
  exact hpath'

end

/-- The script is kept for the wallet, a path that is known of it is one at which the wallet has its
key, and its coins are offered just as long as a path is known. -/
structure KeptScript (s : Store) (w : Wallet) (script : Script) : Prop where
  stored : (record? WalletScript s ⟨w.id, script⟩).isSome = true
  unlocks : ∀ path, PathKnown s w.id script path → w.Unlocks path script
  offered : ∃ groups, spendableGroups s w.id = .ok groups ∧ ∀ path c,
    record? Coin s c.outpoint = some c → c.spentBy = none → c.script = script →
      ((∃ g ∈ groups, g.path = path ∧ c ∈ g.coins) ↔ PathKnown s w.id script path)

theorem keptScript_of_pathsRight {l : Ledger} (hl : Reachable l) (hright : PathsRight l.store)
    {w : Wallet} (hw : HasKeysOf l.store w) {script : Script} (hlength : script.bytes.length = 22)
    (hstored : (record? WalletScript l.store ⟨w.id, script⟩).isSome = true) :
    KeptScript l.store w script where
  stored := hstored
  unlocks path hknown := by
    obtain ⟨stored, hw, hsame⟩ := hw
    obtain ⟨w', script', hw', hkey, hunlocks⟩ := hright _ _ path hknown rfl
    obtain ⟨hid, rfl⟩ :=
      walletScript_rowKey_inj (hunlocks.length_script.trans hlength.symm) hkey
    obtain rfl : w' = stored := by
      rw [hid, hw] at hw'
      exact (Option.some.inj hw').symm
    exact hsame.unlocks_iff.1 hunlocks
  offered := by
    obtain ⟨groups, hgroups, hof⟩ := exists_groupsOf hl.wellFormed w.id
    refine ⟨groups, hgroups, fun path c hc hunspent hscript => ?_⟩
    have hwallet : (record? Wallet l.store w.id).isSome = true := by
      obtain ⟨stored, hw, -⟩ := hw
      rw [hw]
      rfl
    have hiff := pathOf?_eq_some_iff hl.wellFormed hright hl.zero_notMem_id hwallet hlength path
    rw [hof.mem, ← hiff, ← hscript]
    exact ⟨Spendable.path, fun hpath => ⟨hc, hunspent, hpath⟩⟩

/-! ### Deriving -/

/-- The row of a script that is derived is made if it is not there, and otherwise stays as it is. -/
theorem record?_walletScript_derived {s s' : Store} (hs : WellFormed s) {walletId : String}
    {next : NextScript} (h : commit s (next.batch walletId) = .ok s') :
    record? WalletScript s' ⟨walletId, next.script⟩ =
      (record? WalletScript s ⟨walletId, next.script⟩).or
        (some ⟨walletId, next.script, some next.path⟩) := by
  rw [Pointwise.record?_commit hs.sound h]
  exact if_pos rfl

/-- The coins of a script that was derived are offered in all later ledgers just as long as a path is
known of it, and a known path stays.  After the script was derived a path is known unless the script
was a script of the wallet before, and no path was known of it. -/
theorem offered_of_derivedScript {network : Network} {chain : Option ChainTable}
    {before after : List Request} {l l' : Ledger} {walletId : String} {script : Script}
    (hl : (ofStore .empty network chain).serveAll before = l)
    (hbefore : TruthfulAll (ofStore .empty network chain) before)
    (hrun : l.run (deriveScript walletId) = (.ok script, l')) (hafter : TruthfulAll l' after) :
    (∃ w, record? Wallet l.store walletId = some w ∧
      KeptScript (l'.serveAll after).store w script) ∧
    ((∃ path, PathKnown l'.store walletId script path) ↔
      record? WalletScript l.store ⟨walletId, script⟩ = none ∨
        ∃ path, PathKnown l.store walletId script path) ∧
    ∀ path, PathKnown l'.store walletId script path →
      PathKnown (l'.serveAll after).store walletId script path := by
  have hreach : Reachable l := hl ▸ (Reachable.opened network chain).serveAll before
  have hright : PathsRight l.store := by
    rw [← hl]
    exact pathsRight_serveAll (.opened network chain) pathsRight_empty hbefore
  have hserve := serve_deriveScript hrun
  have hs := hreach.wellFormed
  have hreach' : Reachable l' := hserve ▸ hreach.served _
  have hright' : PathsRight l'.store := by
    rw [← hserve]
    exact pathsRight_serve hs hreach.informed hright trivial
  obtain ⟨next, hnext, rfl, hcommit⟩ := run_deriveScript_ok hs.sound hrun
  obtain ⟨w, hw, hunlocks⟩ := hreach.informed.unlocks_of_nextOf hs.sound hnext
  obtain rfl : w.id = walletId := hs.sound.key_eq hw
  have hrow := record?_walletScript_derived hs hcommit
  have hstored : (record? WalletScript l'.store ⟨w.id, next.script⟩).isSome = true := by
    rw [hrow]
    simp
  have hkeeps : KeepsWallets l.store (l'.serveAll after).store :=
    (keepsWallets_of_commit hs.sound hcommit).trans (keepsWallets_serveAll hreach'.wellFormed after)
  refine ⟨⟨w, hw, ?_⟩, ?_, ?_⟩
  · exact keptScript_of_pathsRight (hreach'.serveAll after)
      (pathsRight_serveAll hreach' hright' hafter) (HasKeysOf.keeps ⟨w, hw, .refl w⟩ hkeeps)
      hunlocks.length_script (isSome_walletScript_serveAll hreach'.wellFormed after hstored)
  · simp only [PathKnown, hrow]
    cases record? WalletScript l.store ⟨w.id, next.script⟩ with
    | none => simp
    | some row => simp
  · exact fun path hknown => record?_serveAll_of_path hreach'.wellFormed after hknown rfl

/-! ### Payments to derived scripts -/

/-- The coin that the payments of the examples make. -/
def paidCoin (script : Script) (value : UInt64) : Coin := ⟨⟨repeatedTxid 1, 0⟩, script, value, none⟩

/-- A report of a transaction that pays a script of the wallet; the key path may be missing. -/
def paymentReport (walletId : String) (script : Script) (value : UInt64)
    (keyPath : Option String) : Report where
  wallet := walletId
  source := .scheme "scheme"
  event :=
    { txid := repeatedTxid 1, block := none, replaced := none, inputs := [],
      outputs := [⟨0, script, value, keyPath⟩] }

section

variable {l : Ledger} {walletId : String} {script : Script} {value : UInt64}
  {keyPath : Option String}

theorem truthful_payment : Truthful l (paymentReport walletId script value none).request := by
  intro w _ row hrow path hpath
  obtain rfl : row = ⟨w.id, script, none⟩ := List.mem_singleton.1 hrow
  cases hpath

theorem wallet?_payment (hs : WellFormed l.store) {w : Wallet}
    (hw : record? Wallet l.store walletId = some w) :
    (paymentReport walletId script value keyPath).wallet? l.store = some w := by
  have hfind : findWallet l.store walletId = .ok (some w) := by
    rw [findWallet, hs.sound.getEntity, hw]
    rfl
  rw [Report.wallet?,
    show (paymentReport walletId script value keyPath).wallet = walletId from rfl, hfind]

theorem chain_payment (hs : WellFormed l.store) :
    (l.serve (paymentReport walletId script value keyPath).request).chain = l.chain := by
  obtain ⟨s, -, hpaid⟩ := (paymentReport walletId script value keyPath).serve_request hs
  rw [hpaid]

/-- The payment changes no next script. -/
theorem nextOf_payment (hs : WellFormed l.store) (hl : Informed l) (id : String) :
    (l.serve (paymentReport walletId script value keyPath).request).nextOf id = l.nextOf id := by
  refine nextOf_serve hs hl ?_ ?_ id
  · rintro _ ⟨⟩
  · simp [Report.request, Request.writes]

/-- The payment makes its coin if it is not there, and no other one. -/
theorem record?_coin_payment (hs : WellFormed l.store) {w : Wallet}
    (hw : record? Wallet l.store walletId = some w) (o : Outpoint) :
    record? Coin (l.serve (paymentReport walletId script value keyPath).request).store o =
      if (paidCoin script value).outpoint = o then
        (record? Coin l.store o).or (some (paidCoin script value))
      else record? Coin l.store o := by
  have hserve := record?_coin_serveAll hs [paymentReport walletId script value keyPath] o
  have hheard : heard l.store [paymentReport walletId script value keyPath] =
      [(paymentReport walletId script value keyPath).event] := by
    rw [heard, List.filter_cons_of_pos (by rw [wallet?_payment hs hw]; rfl)]
    rfl
  rw [hheard] at hserve
  exact hserve

/-- The payment makes its script a script of the wallet, and no other one. -/
theorem record?_walletScript_payment (hs : WellFormed l.store) {w : Wallet}
    (hw : record? Wallet l.store walletId = some w) (k : WalletScriptKey) :
    record? WalletScript (l.serve (paymentReport walletId script value keyPath).request).store k =
      if rowKey WalletScript ⟨walletId, script⟩ = rowKey WalletScript k then
        some ((⟨walletId, script, keyPath.map w.pathFor⟩ : WalletScript).fill
          (record? WalletScript l.store k))
      else record? WalletScript l.store k := by
  have hid : w.id = walletId := hs.sound.key_eq hw
  have hserve := record?_serveAll (α := WalletScript) hs
    [paymentReport walletId script value keyPath] k
  rw [List.flatMap_cons, List.flatMap_nil, List.append_nil] at hserve
  have hreported : reportedScripts w (paymentReport walletId script value keyPath).source
      (paymentReport walletId script value keyPath).event =
        [⟨walletId, script, keyPath.map w.pathFor⟩] := by
    rw [← hid]
    rfl
  exact hserve.trans (onAll_batch_of_reportedScripts (wallet?_payment hs hw) rfl hreported k _)

end

/-- The request that makes the wallet of the examples. -/
def makeAlias : Request :=
  .createWallet Key.zeroMnemonic "test" "m/84'/1'/0'/0/*" .zero ["alias"]

theorem serveAll_makeAlias : (ofStore .empty .regtest none).serveAll [makeAlias] = aliasLedger := rfl

/-- A script is derived and then paid, and the payment is offered. -/
theorem offered_of_derivedPayment :
    ∃ (before after : List Request) (l l' : Ledger) (walletId : String) (script : Script),
      (ofStore .empty .regtest none).serveAll before = l ∧
      TruthfulAll (ofStore .empty .regtest none) before ∧
      l.run (deriveScript walletId) = (.ok script, l') ∧ TruthfulAll l' after ∧
      ∃ groups, spendableGroups (l'.serveAll after).store walletId = .ok groups ∧
        paidCoin script 1000 ∈ groupCoins groups := by
  obtain ⟨id, next, hw, hnext⟩ := exists_nextOf_aliasLedger
  obtain ⟨-, -, hchain⟩ := exists_store_aliasLedger
  have hs := reachable_aliasLedger.wellFormed
  obtain ⟨l', hrun⟩ := exists_run_deriveScript_eq_ok hs hchain hnext
  have hbefore : TruthfulAll (ofStore .empty .regtest none) [makeAlias] := ⟨trivial, trivial⟩
  have hafter : TruthfulAll l' [(paymentReport id next.script 1000 none).request] :=
    ⟨truthful_payment, trivial⟩
  obtain ⟨⟨w, hw', hkept⟩, hknown, hstays⟩ :=
    offered_of_derivedScript serveAll_makeAlias hbefore hrun hafter
  obtain rfl : aliasWallet id = w := Option.some.inj (hw.symm.trans hw')
  -- nothing was known of the script, so that its path is known now
  obtain ⟨path, hpath⟩ := hknown.2 (.inl (record?_aliasLedger (by decide) _))
  have hserve := serve_deriveScript hrun
  have hs' : WellFormed l'.store := hserve ▸ wellFormed_serve hs _
  obtain ⟨w', hw', -⟩ : HasKeysOf l'.store (aliasWallet id) := by
    rw [← hserve]
    exact HasKeysOf.keeps ⟨_, hw, .refl _⟩ (keepsWallets_serve hs.sound _)
  have hnone : record? Coin l'.store (paidCoin next.script 1000).outpoint = none := by
    have hrows : SameRows (Entity.kind Coin) aliasLedger.store l'.store := by
      rw [← hserve]
      exact sameRows_serve hs.sound (by simp [Request.writes, Entity.kind])
    rw [hrows.record?_eq]
    exact record?_aliasLedger (by decide) _
  obtain ⟨groups, hgroups, hoffered⟩ := hkept.offered
  have hpaid : record? Coin (l'.serve (paymentReport id next.script 1000 none).request).store
      (paidCoin next.script 1000).outpoint = some (paidCoin next.script 1000) := by
    refine (record?_coin_payment hs' hw' _).trans ?_
    rw [if_pos rfl, hnone, Option.none_or]
  obtain ⟨g, hg, -, hcoin⟩ :=
    (hoffered path (paidCoin next.script 1000) hpaid rfl rfl).2 (hstays path hpath)
  exact ⟨_, _, aliasLedger, l', id, next.script, serveAll_makeAlias, hbefore, hrun, hafter, groups,
    hgroups, List.mem_flatMap.2 ⟨g, hg, hcoin⟩⟩

/-- A script is paid before it is derived, and no path is reported.  After it was derived no path is
known of it, and the payment is not offered. -/
theorem not_offered_of_paidBeforeDerived :
    ∃ (before : List Request) (l l' : Ledger) (walletId : String) (script : Script) (c : Coin),
      (ofStore .empty .regtest none).serveAll before = l ∧
      TruthfulAll (ofStore .empty .regtest none) before ∧
      l.run (deriveScript walletId) = (.ok script, l') ∧
      record? WalletScript l'.store ⟨walletId, script⟩ = some ⟨walletId, script, none⟩ ∧
      record? Coin l'.store c.outpoint = some c ∧ c.spentBy = none ∧ c.script = script ∧
      ∃ groups, spendableGroups l'.store walletId = .ok groups ∧ c ∉ groupCoins groups := by
  obtain ⟨id, next, hw, hnext⟩ := exists_nextOf_aliasLedger
  obtain ⟨-, -, hchain⟩ := exists_store_aliasLedger
  have hs := reachable_aliasLedger.wellFormed
  let payment := (paymentReport id next.script 1000 none).request
  have hs₁ : WellFormed (aliasLedger.serve payment).store := wellFormed_serve hs payment
  have hnext₁ : (aliasLedger.serve payment).nextOf id = .ok next :=
    (nextOf_payment hs reachable_aliasLedger.informed id).trans hnext
  have hchain₁ : (aliasLedger.serve payment).chain = none := (chain_payment hs).trans hchain
  obtain ⟨l', hrun⟩ := exists_run_deriveScript_eq_ok hs₁ hchain₁ hnext₁
  obtain ⟨next', hnext', -, hcommit⟩ := run_deriveScript_ok hs₁.sound hrun
  obtain rfl : next = next' := Except.ok.inj (hnext₁.symm.trans hnext')
  -- the payment made the row of the script, and deriving the script leaves it as it is
  have hrow : record? WalletScript l'.store ⟨id, next.script⟩ = some ⟨id, next.script, none⟩ := by
    rw [record?_walletScript_derived hs₁ hcommit, record?_walletScript_payment hs hw, if_pos rfl,
      record?_aliasLedger (by decide)]
    rfl
  have hcoin : record? Coin l'.store (paidCoin next.script 1000).outpoint =
      some (paidCoin next.script 1000) := by
    have hrows : SameRows (Entity.kind Coin) (aliasLedger.serve payment).store l'.store :=
      (writes_commit hcommit).sameRows (by simp [NextScript.batch, Operation.writes, Entity.kind])
    rw [hrows.record?_eq, record?_coin_payment hs hw, if_pos rfl, record?_aliasLedger (by decide),
      Option.none_or]
  have hbefore : (ofStore .empty .regtest none).serveAll [makeAlias, payment] =
      aliasLedger.serve payment := by
    rw [serveAll_cons, serveAll_cons, serveAll_nil, aliasLedger, makeAlias]
  have hrequests : (ofStore .empty .regtest none).serveAll
      ([makeAlias, payment] ++ [.deriveScript id]) = l' := by
    rw [serveAll_append, hbefore, serveAll_cons, serveAll_nil, serve_deriveScript hrun]
  have hreach : Reachable l' := hrequests ▸ (Reachable.opened .regtest none).serveAll _
  have hright : PathsRight l'.store := by
    rw [← hrequests]
    exact pathsRight_serveAll (.opened .regtest none) pathsRight_empty
      ⟨trivial, truthful_payment, trivial, trivial⟩
  obtain ⟨w, hw₁, hunlocks⟩ := reachable_aliasLedger.informed.unlocks_of_nextOf hs.sound hnext
  obtain rfl : aliasWallet id = w := Option.some.inj (hw.symm.trans hw₁)
  have hkeys : HasKeysOf l'.store (aliasWallet id) := by
    refine HasKeysOf.keeps ⟨_, hw, .refl _⟩ ((keepsWallets_serve hs.sound payment).trans ?_)
    exact keepsWallets_of_commit hs₁.sound hcommit
  have hkept := keptScript_of_pathsRight hreach hright hkeys hunlocks.length_script
    (by rw [show (aliasWallet id).id = id from rfl, hrow]; rfl)
  obtain ⟨groups, hgroups, hoffered⟩ := hkept.offered
  refine ⟨[makeAlias, payment], _, l', id, next.script, paidCoin next.script 1000, hbefore,
    ⟨trivial, truthful_payment, trivial⟩, hrun, hrow, hcoin, rfl, rfl, groups, hgroups, ?_⟩
  intro hmem
  obtain ⟨g, hg, hc⟩ := List.mem_flatMap.1 hmem
  have hknown := (hoffered g.path _ hcoin rfl rfl).1 ⟨g, hg, rfl, hc⟩
  rw [PathKnown, show (aliasWallet id).id = id from rfl, hrow] at hknown
  cases hknown

end CoinLedger
