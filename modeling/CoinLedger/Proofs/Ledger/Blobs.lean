import Mathlib.Data.List.Find
import CoinLedger.Proofs.Ledger.Requests

/-! # What is kept under a name

A blob is stored under its scope and its name, one behind the other.  In one scope, or in scopes of
one length, such a key tells the name (`Blob.composeKey_inj`), but a name without a scope may begin
like the id of a wallet.

`Put` is a request that writes or removes a blob.  Of all requests to an empty ledger only these
count for blobs, and of these the last one with a key (`record?_blob_serveAll`).  So reading a name
gives what was put last under the key of the name, in whatever scope, and the list of a scope has
what was put last under a key if it was put in this scope (`blobs_of_requests`).  Both are the last
put of this scope and name if no put of another scope has its key, which is to be expected of the
scopes of wallets (`unshared_of_length`); `blobs_of_collision` shows two scopes that get into each
other's way. -/

namespace CoinLedger

open Ledger

/-! ### Names in keys -/

namespace Blob

theorem dropScope?_append (xs ys : List Char) : dropScope? xs (xs ++ ys) = some ys := by
  induction xs with
  | nil => rw [List.nil_append, dropScope?]
  | cons x xs ih => rw [List.cons_append, dropScope?, if_pos rfl, ih]

@[simp] theorem name_composeKey (scope : Option String) (name : String) (value : Bytes) :
    Blob.name ⟨composeKey scope name, scope, value⟩ = name := by
  unfold Blob.name
  rw [composeKey, String.toList_append, dropScope?_append]
  exact String.ofList_toList

/-- The key of a scope that takes a known number of characters tells the scope and the name. -/
theorem composeKey_inj {scope scope' : Option String} {name name' : String}
    (hlength : (scope.getD "").length = (scope'.getD "").length)
    (h : composeKey scope name = composeKey scope' name') :
    scope.getD "" = scope'.getD "" ∧ name = name' := by
  have hchars := congrArg String.toList h
  rw [composeKey, composeKey, String.toList_append, String.toList_append] at hchars
  obtain ⟨hscope, hname⟩ := List.append_inj hchars hlength
  exact ⟨String.toList_inj.1 hscope, String.toList_inj.1 hname⟩

end Blob

/-! ### Puts -/

/-- A request that puts something under a name of a scope, or removes what is there. -/
structure Put where
  scope : Option String
  name : String
  value : Option Bytes

namespace Put

/-- The key that it puts something under. -/
def key (p : Put) : String := Blob.composeKey p.scope p.name

/-- What is asked of the ledger. -/
def request (p : Put) : Request := .putBlob p.scope p.name p.value

/-- The request as a put, if it is one. -/
def ofRequest? : Request → Option Put
  | .putBlob scope name value => some ⟨scope, name, value⟩
  | _ => none

theorem filterMap_ofRequest?_request (puts : List Put) :
    (puts.map request).filterMap ofRequest? = puts := by
  rw [List.filterMap_map]
  exact List.filterMap_some

/-- What it leaves under its key. -/
def blob? (p : Put) : Option Blob := p.value.map fun value => ⟨p.key, p.scope, value⟩

/-- The last of some puts with this key. -/
def lastWithKey (puts : List Put) (key : String) : Option Put :=
  puts.reverse.find? fun p => p.key == key

/-- What was put last under the key of this name. -/
def read (puts : List Put) (scope : Option String) (name : String) : Option Bytes :=
  (lastWithKey puts (Blob.composeKey scope name)).bind Put.value

/-- What was put last under the key of this name, if it was put in this scope. -/
def listed (puts : List Put) (scope : Option String) (name : String) : Option Bytes :=
  (lastWithKey puts (Blob.composeKey scope name)).bind fun p =>
    if p.scope = scope then p.value else none

/-- What was put last under this name of this scope. -/
def own (puts : List Put) (scope : Option String) (name : String) : Option Bytes :=
  (puts.reverse.find? fun p => p.scope == scope && p.name == name).bind Put.value

/-- No other scope puts anything under the key of this name. -/
def Unshared (puts : List Put) (scope : Option String) (name : String) : Prop :=
  ∀ p ∈ puts, p.key = Blob.composeKey scope name → p.scope = scope

theorem lastWithKey_append (puts : List Put) (p : Put) (key : String) :
    lastWithKey (puts ++ [p]) key = if p.key = key then some p else lastWithKey puts key := by
  rw [lastWithKey, List.reverse_append, List.reverse_singleton, List.singleton_append,
    List.find?_cons]
  by_cases hkey : p.key = key
  · simp [hkey]
  · rw [if_neg hkey, beq_false_of_ne hkey, lastWithKey]

theorem of_lastWithKey {puts : List Put} {key : String} {p : Put}
    (h : lastWithKey puts key = some p) : p ∈ puts ∧ p.key = key :=
  ⟨List.mem_reverse.1 (List.mem_of_find?_eq_some h), by simpa using List.find?_some h⟩

/-- A put under another key changes nothing that is read or listed. -/
theorem read_append_of_ne {puts : List Put} {p : Put} {scope : Option String} {name : String}
    (h : p.key ≠ Blob.composeKey scope name) :
    read (puts ++ [p]) scope name = read puts scope name ∧
      listed (puts ++ [p]) scope name = listed puts scope name := by
  rw [read, listed, lastWithKey_append, if_neg h]
  exact ⟨rfl, rfl⟩

/-- A name that no other scope uses is read and listed as it was put. -/
theorem Unshared.read_eq {puts : List Put} {scope : Option String} {name : String}
    (h : Unshared puts scope name) :
    read puts scope name = own puts scope name ∧ listed puts scope name = own puts scope name := by
  have hsame : lastWithKey puts (Blob.composeKey scope name) =
      puts.reverse.find? fun p => p.scope == scope && p.name == name := by
    refine List.find?_congr fun p hp => ?_
    rw [Bool.eq_iff_iff, beq_iff_eq, Bool.and_eq_true, beq_iff_eq, beq_iff_eq]
    constructor
    · intro hkey
      have hscope : p.scope = scope := h p (List.mem_reverse.1 hp) hkey
      refine ⟨hscope, (Blob.composeKey_inj ?_ hkey).2⟩
      rw [hscope]
    · rintro ⟨rfl, rfl⟩
      rfl
  rw [read, listed, own, ← hsame]
  refine ⟨rfl, ?_⟩
  cases hlast : lastWithKey puts (Blob.composeKey scope name) with
  | none => rfl
  | some p =>
      obtain ⟨hp, hkey⟩ := of_lastWithKey hlast
      exact if_pos (h p hp hkey)

/-- The ids of wallets have one length, so they do not get into each other's way. -/
theorem unshared_of_length {puts : List Put} {id : String}
    (h : ∀ p ∈ puts, ∃ id', p.scope = some id' ∧ id'.length = id.length) (name : String) :
    Unshared puts (some id) name := by
  intro p hp hkey
  obtain ⟨id', hscope, hlength⟩ := h p hp
  rw [key, hscope] at hkey
  have hgetD : ((some id').getD "").length = ((some id).getD "").length := hlength
  have hid : id' = id := (Blob.composeKey_inj hgetD hkey).1
  rw [hscope, hid]

end Put

/-! ### The table of blobs -/

section

variable {l : Ledger}

/-- A put does something to the blob with its key. -/
theorem record?_blob_put (p : Put) (key : String) :
    record? Blob (l.serve p.request).store key =
      if p.key = key then p.blob? else record? Blob l.store key := by
  obtain ⟨scope, name, _ | value⟩ := p
  · have hcommit : commit l.store [.deleteBlob (Blob.composeKey scope name)] =
        .ok (removeEntity Blob l.store (Blob.composeKey scope name)) := commit_singleton _ _
    simp only [Put.request, serve, Request.action, putBlob, run_write, hcommit]
    exact record?_removeEntity l.store _ key
  · have hcommit : commit l.store [.putBlob ⟨Blob.composeKey scope name, scope, value⟩] =
        .ok (putEntity l.store (⟨Blob.composeKey scope name, scope, value⟩ : Blob)) :=
      commit_singleton _ _
    simp only [Put.request, serve, Request.action, putBlob, run_write, hcommit]
    exact record?_putEntity l.store _ key

/-- Other requests leave the blobs as they are. -/
theorem sameRows_blob_of_ofRequest?_eq_none (hs : Sound Wallet l.store) {r : Request}
    (h : Put.ofRequest? r = none) : SameRows .blob l.store (l.serve r).store := by
  refine sameRows_serve hs ?_
  cases r with
  | putBlob scope name value => cases h
  | _ => simp [Request.writes]

end

/-- What the last put with a key left is stored under it. -/
theorem record?_blob_serveAll (network : Network) (chain : Option ChainTable)
    (requests : List Request) (key : String) :
    record? Blob ((Ledger.ofStore .empty network chain).serveAll requests).store key =
      (Put.lastWithKey (requests.filterMap Put.ofRequest?) key).bind Put.blob? := by
  induction requests using List.reverseRecOn with
  | nil => rfl
  | append_singleton requests r ih =>
      have hs := ((Reachable.opened network chain).serveAll requests).wellFormed
      rw [serveAll_append, serveAll_cons, serveAll_nil, List.filterMap_append]
      cases hr : Put.ofRequest? r with
      | none =>
          rw [(sameRows_blob_of_ofRequest?_eq_none hs.sound hr).record?_eq (α := Blob), ih,
            List.filterMap_cons_none hr, List.filterMap_nil, List.append_nil]
      | some p =>
          obtain rfl : r = p.request := by
            cases r with
            | putBlob scope name value => rw [← Option.some.inj hr, Put.request]
            | _ => cases hr
          rw [record?_blob_put, ih, List.filterMap_cons_some hr, List.filterMap_nil,
            Put.lastWithKey_append]
          split <;> rfl

/-! ### Reading and listing -/

section

variable {s : Store} {puts : List Put}

/-- The store holds what the last put with each key left. -/
def Holds (s : Store) (puts : List Put) : Prop :=
  ∀ key, record? Blob s key = (Put.lastWithKey puts key).bind Put.blob?

theorem Holds.blobBytes_eq (h : Holds s puts) (hs : Sound Blob s) (scope : Option String)
    (name : String) : blobBytes s scope name = .ok (Put.read puts scope name) := by
  unfold blobBytes
  rw [hs.getEntity, h, Put.read]
  refine congrArg Except.ok ?_
  cases Put.lastWithKey puts (Blob.composeKey scope name) with
  | none => rfl
  | some p => cases hvalue : p.value <;> simp [Put.blob?, hvalue]

/-- The stored blobs of a scope are those that were put last under their keys in this scope. -/
theorem Holds.mem_iff (h : Holds s puts) (hs : Sound Blob s) (scope : Option String) (b : Blob) :
    b ∈ (recordsFrom Blob s (RowRange.kind .blob).start).filter (fun b => b.walletId == scope) ↔
      ∃ name value, b = ⟨Blob.composeKey scope name, scope, value⟩ ∧
        Put.listed puts scope name = some value := by
  have hstarts : (RowRange.kind .blob).start <+: rowKey Blob (Entity.key b) :=
    rowKey_startsWith_kind (α := Blob) _
  have hkey : record? Blob s (Entity.key b) = (Put.lastWithKey puts b.key).bind Put.blob? := h b.key
  rw [List.mem_filter, hs.mem_recordsFrom rfl, and_iff_left hstarts, hkey, beq_iff_eq,
    Option.bind_eq_some_iff]
  constructor
  · rintro ⟨⟨p, hlast, hblob⟩, rfl⟩
    obtain ⟨value, hvalue, rfl⟩ := Option.map_eq_some_iff.1 hblob
    refine ⟨p.name, value, rfl, ?_⟩
    have hlast : Put.lastWithKey puts (Blob.composeKey p.scope p.name) = some p := hlast
    rw [Put.listed, hlast, Option.bind_some, if_pos rfl, hvalue]
  · rintro ⟨name, value, rfl, hlisted⟩
    obtain ⟨p, hlast, hput⟩ := Option.bind_eq_some_iff.1 hlisted
    obtain ⟨rfl, hvalue⟩ : p.scope = scope ∧ p.value = some value := by
      split at hput
      · rename_i hscope
        exact ⟨hscope, hput⟩
      · cases hput
    refine ⟨⟨p, hlast, ?_⟩, rfl⟩
    rw [Put.blob?, hvalue, (Put.of_lastWithKey hlast).2]
    rfl

/-- A scope is listed by the names that were put last under their keys in this scope. -/
theorem Holds.exists_blobsOf_eq_ok (h : Holds s puts) (hs : Sound Blob s) (scope : Option String) :
    ∃ entries, blobsOf s scope = .ok entries ∧
      entries.Pairwise (fun a b => Bytes.utf8 a.1 < Bytes.utf8 b.1) ∧
      ∀ name value, (name, value) ∈ entries ↔ Put.listed puts scope name = some value := by
  have hall : allBlobs s = .ok (recordsFrom Blob s (RowRange.kind .blob).start) :=
    hs.scanEntities rfl
  set own := (recordsFrom Blob s (RowRange.kind .blob).start).filter (fun b => b.walletId == scope)
    with hown
  have hentry : ∀ name value, (name, value) ∈ own.map (fun b => (b.name, b.value)) ↔
      Put.listed puts scope name = some value := by
    intro name value
    rw [List.mem_map]
    constructor
    · rintro ⟨b, hb, heq⟩
      obtain ⟨name', value', rfl, hlisted⟩ := (h.mem_iff hs scope b).1 hb
      rw [Blob.name_composeKey] at heq
      obtain ⟨rfl, rfl⟩ := Prod.mk.inj heq
      exact hlisted
    · intro hlisted
      exact ⟨_, (h.mem_iff hs scope _).2 ⟨name, value, rfl, hlisted⟩, by rw [Blob.name_composeKey]⟩
  have hblobs : blobsOf s scope = .ok ((ByteMap.ofList ((own.map fun b => (b.name, b.value)).map
      fun e => (Bytes.utf8 e.1, e))).rows.map (·.2)) := by
    unfold blobsOf
    rw [hall, List.map_map]
    rfl
  refine ⟨_, hblobs, ByteMap.values_ofList_sorted, fun name value => ?_⟩
  rw [ByteMap.mem_values_ofList, hentry]
  rintro ⟨name, value⟩ he ⟨name', value'⟩ he' hkey
  obtain rfl : name = name' := Bytes.utf8_injective hkey
  rw [hentry] at he he'
  rw [Option.some.inj (he.symm.trans he')]

end

theorem holds_serveAll (network : Network) (chain : Option ChainTable) (requests : List Request) :
    Holds ((Ledger.ofStore .empty network chain).serveAll requests).store
      (requests.filterMap Put.ofRequest?) :=
  record?_blob_serveAll network chain requests

/-- **What is kept under a name is what was put last under its key.**  After any requests to an empty
ledger, of which `puts` are those that write or remove blobs, a name is read as it was put last under
the key of the scope and the name, and a scope lists, in the order of the names, those that were put
last under their keys in this scope.  If no other scope puts anything under the key of a name, it is
read and listed as it was put last in its own scope.  A put under another key changes nothing that is
read or listed for the name. -/
theorem blobs_of_requests (network : Network) (chain : Option ChainTable)
    (requests : List Request) :
    ∃ puts s, requests.filterMap Put.ofRequest? = puts ∧
      ((Ledger.ofStore .empty network chain).serveAll requests).store = s ∧
      (∀ scope name, blobBytes s scope name = .ok (Put.read puts scope name)) ∧
      (∀ scope, ∃ entries, blobsOf s scope = .ok entries ∧
        entries.Pairwise (fun a b => Bytes.utf8 a.1 < Bytes.utf8 b.1) ∧
        ∀ name value, (name, value) ∈ entries ↔ Put.listed puts scope name = some value) ∧
      (∀ scope name, Put.Unshared puts scope name →
        Put.read puts scope name = Put.own puts scope name ∧
        Put.listed puts scope name = Put.own puts scope name) ∧
      ∀ (p : Put) scope name, p.key ≠ Blob.composeKey scope name →
        Put.read (puts ++ [p]) scope name = Put.read puts scope name ∧
        Put.listed (puts ++ [p]) scope name = Put.listed puts scope name := by
  have hreachable := (Reachable.opened network chain).serveAll requests
  have hs : Sound Blob ((Ledger.ofStore .empty network chain).serveAll requests).store :=
    hreachable.wellFormed.sound
  have hholds := holds_serveAll network chain requests
  exact ⟨_, _, rfl, rfl, hholds.blobBytes_eq hs, hholds.exists_blobsOf_eq_ok hs,
    fun _ _ hunshared => hunshared.read_eq, fun _ _ _ hkey => Put.read_append_of_ne hkey⟩

/-- Two wallets keep something under the same name, and one of them removes another name. -/
def putsOfTwoWallets : List Put :=
  [⟨some "73c5da0a", "manager", some [1]⟩, ⟨some "73c5da0b", "manager", some [2]⟩,
    ⟨some "73c5da0a", "monitor", some [3]⟩, ⟨some "73c5da0a", "monitor", none⟩]

theorem blobs_of_twoWallets :
    ∃ s, ((Ledger.ofStore .empty .regtest none).serveAll
        (putsOfTwoWallets.map Put.request)).store = s ∧
      blobBytes s (some "73c5da0a") "manager" = .ok (some [1]) ∧
      blobBytes s (some "73c5da0b") "manager" = .ok (some [2]) ∧
      blobBytes s (some "73c5da0a") "monitor" = .ok none := by
  obtain ⟨puts, s, hputs, hs, hread, -, hown, -⟩ :=
    blobs_of_requests .regtest none (putsOfTwoWallets.map Put.request)
  rw [Put.filterMap_ofRequest?_request] at hputs
  subst hputs
  have hunshared : ∀ id : String, id.length = 8 → ∀ name,
      Put.Unshared putsOfTwoWallets (some id) name := by
    intro id hid
    apply Put.unshared_of_length
    simp [putsOfTwoWallets, hid]
    decide
  have hfound : ∀ id : String, id.length = 8 → ∀ name,
      blobBytes s (some id) name = .ok (Put.own putsOfTwoWallets (some id) name) := by
    intro id hid name
    rw [hread, (hown _ _ (hunshared id hid name)).1]
  exact ⟨s, hs, hfound "73c5da0a" rfl "manager", hfound "73c5da0b" rfl "manager",
    hfound "73c5da0a" rfl "monitor"⟩

/-- A wallet keeps something, and a name of all wallets that begins with its id is removed. -/
def putsOfCollision : List Put :=
  [⟨some "73c5da0a", "manager", some [0xaa]⟩, ⟨none, "73c5da0amanager", none⟩]

/-- A name of all wallets that begins with the id of a wallet is taken for a name of this wallet:
what the wallet kept is gone with it. -/
theorem blobs_of_collision :
    ∃ s, ((Ledger.ofStore .empty .regtest none).serveAll
        (putsOfCollision.map Put.request)).store = s ∧
      Put.own putsOfCollision (some "73c5da0a") "manager" = some [0xaa] ∧
      blobBytes s (some "73c5da0a") "manager" = .ok none ∧
      blobsOf s (some "73c5da0a") = .ok [] := by
  have hreachable := (Reachable.opened .regtest none).serveAll (putsOfCollision.map Put.request)
  have hs := hreachable.wellFormed.sound (α := Blob)
  have hholds := holds_serveAll .regtest none (putsOfCollision.map Put.request)
  rw [Put.filterMap_ofRequest?_request] at hholds
  refine ⟨_, rfl, rfl, hholds.blobBytes_eq hs _ _, ?_⟩
  obtain ⟨entries, hentries, -, hlisted⟩ := hholds.exists_blobsOf_eq_ok hs (some "73c5da0a")
  -- both puts have one key, and the later one removes it
  have hkeys : ∀ p ∈ putsOfCollision.reverse, p.key = "73c5da0amanager" := by decide
  have hnone : ∀ name, Put.listed putsOfCollision (some "73c5da0a") name = none := by
    intro name
    generalize hkey : Blob.composeKey (some "73c5da0a") name = key
    by_cases hlast : key = "73c5da0amanager"
    · rw [Put.listed, hkey, hlast]
      rfl
    · have hmiss : Put.lastWithKey putsOfCollision key = none := by
        refine List.find?_eq_none.2 fun p hp => ?_
        rw [hkeys p hp, beq_iff_eq]
        exact Ne.symm hlast
      rw [Put.listed, hkey, hmiss]
      rfl
  rw [hentries]
  refine congrArg Except.ok (List.eq_nil_iff_forall_not_mem.2 ?_)
  rintro ⟨name, value⟩ hentry
  rw [hlisted, hnone] at hentry
  cases hentry

end CoinLedger
