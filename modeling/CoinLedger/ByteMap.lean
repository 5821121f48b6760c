import CoinLedger.Bytes

/-! # Ordered maps keyed by byte strings

`ByteMap α` is a list of rows in strictly increasing order of their keys, the order being the
lexicographic one on bytes.  The order is a field of the type, so every value of the type has
each key at most once.

The operations are `get?`, `insert`, `erase`, `set`, which does one or the other, `setAll`, which
makes a list of changes, and `scan`, which seeks the rows whose key starts with given bytes.  The
lemmas `get?_insert`, `get?_erase`, `get?_set`, `get?_setAll` and `get?_restrict` say what each
operation does to the answers, and `ext_get?` that a map is determined by its answers.  `get?_ofList`
and `mem_values_ofList` tell what a map has that is made of rows.  `diff` lists the rows by which two
maps differ.

A scan goes to the first key that is not below the given bytes and stops at the first one that does
not start with them.  Nothing is missed, since in the order of the keys those that start with the same
bytes follow one on the other, the bytes themselves being the least of them
(`isPrefix_of_between`).  So a scan lists the rows with such a key and no others (`scan_eq_filter`,
`mem_scan`). -/

namespace CoinLedger

/-- A map from byte strings to `α`, its rows in increasing order of the keys. -/
structure ByteMap (α : Type) where
  rows : List (Bytes × α)
  sorted : rows.Pairwise fun a b => a.1 < b.1

namespace ByteMap

variable {α β : Type}

/-! ### Rows

The operations are defined on lists of rows and lifted to maps below. -/

/-- The value of the first row with this key. -/
def lookup (key : Bytes) : List (Bytes × α) → Option α
  | [] => none
  | (k, v) :: rest => if k = key then some v else lookup key rest

/-- Puts a row in its place, instead of a row with the same key. -/
def insertRow (key : Bytes) (value : α) : List (Bytes × α) → List (Bytes × α)
  | [] => [(key, value)]
  | (k, v) :: rest =>
      if key < k then (key, value) :: (k, v) :: rest
      else if k = key then (key, value) :: rest
      else (k, v) :: insertRow key value rest

theorem mem_insertRow {key : Bytes} {value : α} {row : Bytes × α} :
    ∀ {rows : List (Bytes × α)}, row ∈ insertRow key value rows → row = (key, value) ∨ row ∈ rows
  | [], h => by simpa [insertRow] using h
  | (k, v) :: rest, h => by
      rw [insertRow] at h
      split at h
      · simpa using h
      · split at h
        · rcases List.mem_cons.1 h with h | h
          · exact .inl h
          · exact .inr (List.mem_cons_of_mem _ h)
        · rcases List.mem_cons.1 h with h | h
          · exact .inr (h ▸ List.mem_cons_self)
          · rcases mem_insertRow h with h | h
            · exact .inl h
            · exact .inr (List.mem_cons_of_mem _ h)

theorem lt_of_not_lt_of_ne {a b : Bytes} (h : ¬a < b) (hne : b ≠ a) : b < a :=
  Std.lt_of_le_of_ne (List.not_lt.1 h) hne

theorem insertRow_sorted (key : Bytes) (value : α) :
    ∀ {rows : List (Bytes × α)}, rows.Pairwise (fun a b => a.1 < b.1) →
      (insertRow key value rows).Pairwise fun a b => a.1 < b.1
  | [], _ => by simp [insertRow]
  | (k, v) :: rest, h => by
      have hrest := List.pairwise_cons.1 h
      rw [insertRow]
      split
      · rename_i hlt
        refine List.pairwise_cons.2 ⟨fun row hrow => ?_, h⟩
        rcases List.mem_cons.1 hrow with hrow | hrow
        · exact hrow ▸ hlt
        · exact List.lt_trans hlt (hrest.1 row hrow)
      · rename_i hlt
        split
        · rename_i heq
          exact List.pairwise_cons.2 ⟨fun row hrow => heq ▸ hrest.1 row hrow, hrest.2⟩
        · rename_i hne
          refine List.pairwise_cons.2 ⟨fun row hrow => ?_, insertRow_sorted key value hrest.2⟩
          rcases mem_insertRow hrow with hrow | hrow
          · exact hrow ▸ lt_of_not_lt_of_ne hlt hne
          · exact hrest.1 row hrow

theorem lookup_insertRow (key other : Bytes) (value : α) :
    ∀ rows : List (Bytes × α),
      lookup other (insertRow key value rows) =
        if key = other then some value else lookup other rows
  | [] => by simp [insertRow, lookup]
  | (k, v) :: rest => by
      rw [insertRow]
      split
      · simp [lookup]
      · split
        · rename_i _ heq
          by_cases hk : key = other
          · simp [lookup, hk]
          · simp [lookup, hk, heq]
        · rename_i _ hne
          by_cases hk : k = other
          · subst hk
            simp [lookup, Ne.symm hne]
          · simp [lookup, hk, lookup_insertRow key other value rest]

theorem lookup_filter_ne (key other : Bytes) :
    ∀ rows : List (Bytes × α),
      lookup other (rows.filter fun row => row.1 != key) =
        if key = other then none else lookup other rows
  | [] => by simp [lookup]
  | (k, v) :: rest => by
      have ih := lookup_filter_ne key other rest
      by_cases hk : k = key
      · subst hk
        by_cases ho : k = other <;> simp_all [lookup]
      · have hkeep : (k != key) = true := by simpa using hk
        by_cases ho : k = other
        · subst ho
          simp [hkeep, lookup, Ne.symm hk]
        · simp [hkeep, lookup, ho, ih]

theorem lookup_filter_key (p : Bytes → Bool) (key : Bytes) :
    ∀ rows : List (Bytes × α),
      lookup key (rows.filter fun row => p row.1) = if p key then lookup key rows else none
  | [] => by simp [lookup]
  | (k, v) :: rest => by
      have ih := lookup_filter_key p key rest
      by_cases hk : k = key
      · subst hk
        by_cases hp : p k <;> simp_all [lookup]
      · by_cases hp : p k <;> simp [hp, lookup, hk, ih]

theorem lookup_eq_none_of_lt {key : Bytes} :
    ∀ {rows : List (Bytes × α)}, (∀ row ∈ rows, key < row.1) → lookup key rows = none
  | [], _ => rfl
  | (k, v) :: rest, h => by
      have hlt : key < k := h _ List.mem_cons_self
      have hne : k ≠ key := fun heq => List.lt_irrefl key (heq ▸ hlt)
      rw [lookup, if_neg hne]
      exact lookup_eq_none_of_lt fun row hrow => h row (List.mem_cons_of_mem _ hrow)

theorem mem_of_lookup {key : Bytes} {value : α} :
    ∀ {rows : List (Bytes × α)}, lookup key rows = some value → (key, value) ∈ rows
  | [], h => by simp [lookup] at h
  | (k, v) :: rest, h => by
      rw [lookup] at h
      split at h
      · rename_i hk
        simp only [Option.some.injEq] at h
        simp [hk, h]
      · exact List.mem_cons_of_mem _ (mem_of_lookup h)

theorem exists_lookup_of_mem {key : Bytes} {value : α} :
    ∀ {rows : List (Bytes × α)}, (key, value) ∈ rows → ∃ found, lookup key rows = some found
  | [], h => by simp at h
  | (k, v) :: rest, h => by
      by_cases hk : k = key
      · exact ⟨v, by simp [lookup, hk]⟩
      · have hrest : (key, value) ∈ rest := by
          refine (List.mem_cons.1 h).resolve_left fun heq => hk ?_
          rw [(Prod.mk.inj heq).1]
        obtain ⟨found, hfound⟩ := exists_lookup_of_mem hrest
        exact ⟨found, by rw [lookup, if_neg hk, hfound]⟩

theorem lookup_append (key : Bytes) :
    ∀ rows more : List (Bytes × α), lookup key (rows ++ more) = (lookup key rows).or (lookup key more)
  | [], _ => rfl
  | (k, v) :: rest, more => by
      by_cases hk : k = key
      · simp [lookup, hk]
      · simp [lookup, hk, lookup_append key rest more]

theorem lookup_of_mem {key : Bytes} {value : α} :
    ∀ {rows : List (Bytes × α)}, rows.Pairwise (fun a b => a.1 < b.1) →
      (key, value) ∈ rows → lookup key rows = some value
  | [], _, h => by simp at h
  | (k, v) :: rest, hs, h => by
      have hrest := List.pairwise_cons.1 hs
      rcases List.mem_cons.1 h with h | h
      · simp only [Prod.mk.injEq] at h
        simp [lookup, h.1, h.2]
      · have hlt : k < key := hrest.1 _ h
        have hne : k ≠ key := fun heq => List.lt_irrefl key (heq ▸ hlt)
        simp [lookup, hne, lookup_of_mem hrest.2 h]

/-! ### Rows whose keys start alike -/

/-- The rows from the first key on that is not below `start`, up to the first key that does not start
with it. -/
def seekRows (start : Bytes) (rows : List (Bytes × α)) : List (Bytes × α) :=
  (rows.dropWhile fun row => row.1 < start).takeWhile fun row => start.isPrefixOf row.1

theorem seekRows_sublist (start : Bytes) (rows : List (Bytes × α)) :
    (seekRows start rows).Sublist rows :=
  (List.takeWhile_sublist _).trans (List.dropWhile_sublist _)

/-- What stands between some bytes and a key that starts with them starts with them too. -/
theorem isPrefix_of_between : ∀ {start key key' : Bytes}, start ≤ key → key < key' →
    start <+: key' → start <+: key
  | [], key, _, _, _, _ => List.nil_prefix
  | a :: start, [], _, hle, _, _ => absurd (List.nil_lt_cons a start) hle
  | a :: start, b :: key, [], _, hlt, _ => absurd hlt (List.not_lt_nil _)
  | a :: start, b :: key, c :: key', hle, hlt, hstarts => by
      obtain ⟨rfl, hprefix⟩ := List.cons_prefix_cons.1 hstarts
      rcases List.cons_le_cons_iff.1 hle with hab | ⟨rfl, hrest⟩
      · rcases List.cons_lt_cons_iff.1 hlt with hba | ⟨rfl, -⟩
        · exact absurd hba (UInt8.lt_asymm hab)
        · exact absurd hab (UInt8.lt_irrefl _)
      · rcases List.cons_lt_cons_iff.1 hlt with haa | ⟨-, hrest'⟩
        · exact absurd haa (UInt8.lt_irrefl _)
        · exact List.cons_prefix_cons.2 ⟨rfl, isPrefix_of_between hrest hrest' hprefix⟩

/-- Among rows from `start` on, none is left behind the first key that does not start with it. -/
theorem takeWhile_eq_filter {start : Bytes} :
    ∀ {rows : List (Bytes × α)}, rows.Pairwise (fun a b => a.1 < b.1) →
      (∀ row ∈ rows, start ≤ row.1) →
      (rows.takeWhile fun row => start.isPrefixOf row.1) =
        rows.filter fun row => start.isPrefixOf row.1
  | [], _, _ => rfl
  | row :: rest, hsorted, hfrom => by
      obtain ⟨hfirst, hrest⟩ := List.pairwise_cons.1 hsorted
      rw [List.takeWhile_cons, List.filter_cons]
      split
      · exact congrArg (row :: ·)
          (takeWhile_eq_filter hrest fun r hr => hfrom r (List.mem_cons_of_mem _ hr))
      · rename_i hstops
        refine (List.filter_eq_nil_iff.2 fun r hr hstarts => hstops ?_).symm
        rw [List.isPrefixOf_iff_prefix] at hstarts ⊢
        exact isPrefix_of_between (hfrom row List.mem_cons_self) (hfirst r hr) hstarts

/-- Seeking finds the rows whose key starts with the given bytes, and no others. -/
theorem seekRows_eq_filter {start : Bytes} :
    ∀ {rows : List (Bytes × α)}, rows.Pairwise (fun a b => a.1 < b.1) →
      seekRows start rows = rows.filter fun row => start.isPrefixOf row.1
  | [], _ => rfl
  | row :: rest, hsorted => by
      obtain ⟨hfirst, hrest⟩ := List.pairwise_cons.1 hsorted
      by_cases hbelow : row.1 < start
      · -- a key below these bytes does not start with them
        have hnot : ¬ start.isPrefixOf row.1 = true := fun hstarts =>
          (List.isPrefixOf_iff_prefix.1 hstarts).le hbelow
        rw [seekRows, List.dropWhile_cons_of_pos (by simpa using hbelow), List.filter_cons,
          if_neg hnot]
        exact seekRows_eq_filter hrest
      · rw [seekRows, List.dropWhile_cons_of_neg (by simpa using hbelow)]
        refine takeWhile_eq_filter hsorted fun r hr => ?_
        rcases List.mem_cons.1 hr with rfl | hr
        · exact List.not_lt.1 hbelow
        · exact List.le_of_lt (List.lt_of_le_of_lt (List.not_lt.1 hbelow) (hfirst r hr))

/-! ### Maps -/

/-- The map without rows. -/
def empty : ByteMap α := ⟨[], .nil⟩

instance : Inhabited (ByteMap α) := ⟨empty⟩

/-- The value stored under a key. -/
def get? (m : ByteMap α) (key : Bytes) : Option α := lookup key m.rows

/-- Stores a value under a key, instead of the value stored there before. -/
def insert (m : ByteMap α) (key : Bytes) (value : α) : ByteMap α :=
  ⟨insertRow key value m.rows, insertRow_sorted key value m.sorted⟩

/-- Removes the row with this key, if there is one. -/
def erase (m : ByteMap α) (key : Bytes) : ByteMap α :=
  ⟨m.rows.filter fun row => row.1 != key, m.sorted.sublist List.filter_sublist⟩

/-- The rows whose key starts with `start`, in the order of their keys. -/
def scan (m : ByteMap α) (start : Bytes) : List (Bytes × α) := seekRows start m.rows

theorem scan_sorted (m : ByteMap α) (start : Bytes) :
    (m.scan start).Pairwise fun a b => a.1 < b.1 :=
  m.sorted.sublist (seekRows_sublist start m.rows)

/-- The rows whose key starts with `start`, as a map. -/
def restrict (m : ByteMap α) (start : Bytes) : ByteMap α := ⟨m.scan start, m.scan_sorted start⟩

/-- Stores a value, or removes the row if there is none. -/
def set (m : ByteMap α) (key : Bytes) : Option α → ByteMap α
  | some value => m.insert key value
  | none => m.erase key

/-- Makes changes one after the other. -/
def setAll (m : ByteMap α) (changes : List (Bytes × Option α)) : ByteMap α :=
  changes.foldl (fun m c => m.set c.1 c.2) m

/-- The map with these rows; of two rows with one key the later one stays. -/
def ofList (rows : List (Bytes × α)) : ByteMap α :=
  rows.foldl (fun m row => m.insert row.1 row.2) empty

/-- How many rows there are. -/
def size (m : ByteMap α) : Nat := m.rows.length

@[simp] theorem get?_empty (key : Bytes) : (empty : ByteMap α).get? key = none := rfl

theorem get?_insert (m : ByteMap α) (key other : Bytes) (value : α) :
    (m.insert key value).get? other = if key = other then some value else m.get? other :=
  lookup_insertRow key other value m.rows

theorem get?_erase (m : ByteMap α) (key other : Bytes) :
    (m.erase key).get? other = if key = other then none else m.get? other :=
  lookup_filter_ne key other m.rows

theorem get?_set (m : ByteMap α) (key other : Bytes) (value : Option α) :
    (m.set key value).get? other = if key = other then value else m.get? other := by
  cases value
  · exact get?_erase m key other
  · exact get?_insert m key other _

theorem scan_eq_filter (m : ByteMap α) (start : Bytes) :
    m.scan start = m.rows.filter fun row => start.isPrefixOf row.1 :=
  seekRows_eq_filter m.sorted

theorem lookup_scan (m : ByteMap α) (start key : Bytes) :
    lookup key (m.scan start) = if start.isPrefixOf key then m.get? key else none := by
  rw [scan_eq_filter]
  exact lookup_filter_key (fun k => start.isPrefixOf k) key m.rows

theorem get?_restrict (m : ByteMap α) (start key : Bytes) :
    (m.restrict start).get? key = if start.isPrefixOf key then m.get? key else none :=
  lookup_scan m start key

theorem get?_setAll {key : Bytes} :
    ∀ {changes : List (Bytes × Option α)} (m : ByteMap α),
      changes.Pairwise (fun a b => a.1 < b.1) →
      (m.setAll changes).get? key = (lookup key changes).getD (m.get? key)
  | [], _, _ => rfl
  | (k, v) :: rest, m, hs => by
      have hrest := List.pairwise_cons.1 hs
      have hstep : m.setAll ((k, v) :: rest) = (m.set k v).setAll rest := rfl
      rw [hstep, get?_setAll (m.set k v) hrest.2, get?_set, lookup]
      by_cases hk : k = key
      · subst hk
        simp [lookup_eq_none_of_lt hrest.1]
      · simp [hk]

theorem get?_eq_some_iff {m : ByteMap α} {key : Bytes} {value : α} :
    m.get? key = some value ↔ (key, value) ∈ m.rows :=
  ⟨mem_of_lookup, lookup_of_mem m.sorted⟩

theorem mem_scan {m : ByteMap α} {start key : Bytes} {value : α} :
    (key, value) ∈ m.scan start ↔ m.get? key = some value ∧ start <+: key := by
  simp [scan_eq_filter, get?_eq_some_iff]

theorem get?_foldl_insert (key : Bytes) :
    ∀ (rows : List (Bytes × α)) (m : ByteMap α),
      (rows.foldl (fun m row => m.insert row.1 row.2) m).get? key =
        (lookup key rows.reverse).or (m.get? key)
  | [], _ => rfl
  | (k, v) :: rest, m => by
      rw [List.foldl_cons, get?_foldl_insert key rest, get?_insert, List.reverse_cons, lookup_append]
      by_cases hk : k = key
      · simp [lookup, hk]
      · simp [lookup, hk]

/-- A map made of rows has the last row with each key. -/
theorem get?_ofList (rows : List (Bytes × α)) (key : Bytes) :
    (ofList rows).get? key = lookup key rows.reverse := by
  rw [ofList, get?_foldl_insert, get?_empty, Option.or_none]

/-! ### Values under keys of their own -/

section

variable {f : α → Bytes} {xs : List α}

theorem exists_of_mem_ofList {row : Bytes × α}
    (h : row ∈ (ofList (xs.map fun x => (f x, x))).rows) : ∃ x ∈ xs, row = (f x, x) := by
  rw [← get?_eq_some_iff, get?_ofList] at h
  obtain ⟨x, hx, heq⟩ := List.mem_map.1 (List.mem_reverse.1 (mem_of_lookup h))
  exact ⟨x, hx, heq.symm⟩

/-- If only equal values have the same key, a map made of values has just these values. -/
theorem mem_values_ofList (h : ∀ x ∈ xs, ∀ y ∈ xs, f x = f y → x = y) {x : α} :
    x ∈ (ofList (xs.map fun x => (f x, x))).rows.map (·.2) ↔ x ∈ xs := by
  rw [List.mem_map]
  constructor
  · rintro ⟨row, hrow, rfl⟩
    obtain ⟨y, hy, rfl⟩ := exists_of_mem_ofList hrow
    exact hy
  · intro hx
    have hin : (f x, x) ∈ (xs.map fun x => (f x, x)).reverse :=
      List.mem_reverse.2 (List.mem_map.2 ⟨x, hx, rfl⟩)
    obtain ⟨found, hfound⟩ := exists_lookup_of_mem hin
    rw [← get?_ofList, get?_eq_some_iff] at hfound
    obtain ⟨y, hy, heq⟩ := exists_of_mem_ofList hfound
    obtain ⟨hkey, rfl⟩ := Prod.mk.inj heq
    rw [h x hx found hy hkey]
    exact ⟨_, hfound, rfl⟩

/-- The values of a map made of values stand in the order of their keys. -/
theorem values_ofList_sorted :
    ((ofList (xs.map fun x => (f x, x))).rows.map (·.2)).Pairwise fun x y => f x < f y := by
  rw [List.pairwise_map]
  refine (ofList _).sorted.imp_of_mem fun {a b} ha hb hlt => ?_
  obtain ⟨x, -, rfl⟩ := exists_of_mem_ofList ha
  obtain ⟨y, -, rfl⟩ := exists_of_mem_ofList hb
  exact hlt

end

/-- Two sorted lists with the same members are the same list. -/
theorem rows_ext :
    ∀ {xs ys : List (Bytes × α)}, xs.Pairwise (fun a b => a.1 < b.1) →
      ys.Pairwise (fun a b => a.1 < b.1) → (∀ row, row ∈ xs ↔ row ∈ ys) → xs = ys
  | [], [], _, _, _ => rfl
  | [], y :: ys, _, _, h => absurd ((h y).2 List.mem_cons_self) List.not_mem_nil
  | x :: xs, [], _, _, h => absurd ((h x).1 List.mem_cons_self) List.not_mem_nil
  | x :: xs, y :: ys, hx, hy, h => by
      have hxs := List.pairwise_cons.1 hx
      have hys := List.pairwise_cons.1 hy
      have hxy : x = y := by
        rcases List.mem_cons.1 ((h x).1 List.mem_cons_self) with heq | hin
        · exact heq
        · rcases List.mem_cons.1 ((h y).2 List.mem_cons_self) with heq | hin'
          · exact heq.symm
          · exact absurd (List.lt_trans (hys.1 x hin) (hxs.1 y hin')) (List.lt_irrefl _)
      subst hxy
      refine congrArg (x :: ·) (rows_ext hxs.2 hys.2 fun row => ⟨fun hin => ?_, fun hin => ?_⟩)
      · rcases List.mem_cons.1 ((h row).1 (List.mem_cons_of_mem _ hin)) with heq | hin'
        · exact absurd (heq ▸ hxs.1 row hin) (List.lt_irrefl _)
        · exact hin'
      · rcases List.mem_cons.1 ((h row).2 (List.mem_cons_of_mem _ hin)) with heq | hin'
        · exact absurd (heq ▸ hys.1 row hin) (List.lt_irrefl _)
        · exact hin'

/-- A map is determined by its answers. -/
theorem ext_get? {m n : ByteMap α} (h : ∀ key, m.get? key = n.get? key) : m = n := by
  have hrows : m.rows = n.rows := rows_ext m.sorted n.sorted fun (key, value) => by
    rw [← get?_eq_some_iff, ← get?_eq_some_iff, h]
  cases m
  cases n
  simp_all

/-! ### Differences -/

/-- The keys under which two maps differ, in order, with what `new` stores there. -/
def diff [DecidableEq α] (old new : ByteMap α) : List (Bytes × Option α) :=
  let changed := new.rows.filter fun row => old.get? row.1 ≠ some row.2
  let removed := old.rows.filter fun row => new.get? row.1 = none
  (ofList (changed.map (fun row => (row.1, some row.2)) ++
    removed.map fun row => (row.1, none))).rows

end ByteMap

end CoinLedger
