import CoinLedger.Store.Basic

/-! # Pending changes

An `Overlay` is a store with changes that are not made yet.  It is read as if they were made: a
changed row hides the row of the store, in `row?` as in `rowsFrom`.  `Overlay.setRow` adds a change,
and `Overlay.settle` makes all of them.

What is read from an overlay is what will be read from the store that it settles to:
`get?_settle` says so of single rows and `rowsFrom_eq_scan_settle` of groups of rows.
`settle_setRow` says what a change does to that store. -/

namespace CoinLedger

/-- A store and the changes to be made to it; a change without a value removes its row. -/
structure Overlay where
  base : Store
  changes : ByteMap (Option Bytes)

namespace Overlay

/-- A store without changes. -/
def ofStore (s : Store) : Overlay := ⟨s, .empty⟩

/-- The value of a row, as changed. -/
def row? (o : Overlay) (key : Bytes) : Option Bytes :=
  match o.changes.get? key with
  | some value => value
  | none => o.base.get? key

/-- The rows whose key starts with `start`, as changed: the changes are sought as the rows are, and
made to what was found in the store. -/
def rowsFrom (o : Overlay) (start : Bytes) : List (Bytes × Bytes) :=
  ((o.base.restrict start).setAll (o.changes.scan start)).rows

/-- Changes a row. -/
def setRow (o : Overlay) (key : Bytes) (value : Option Bytes) : Overlay :=
  { o with changes := o.changes.insert key value }

instance : RowStore Overlay where
  row? := row?
  rowsFrom := rowsFrom
  setRow := setRow

/-- The store after the changes. -/
def settle (o : Overlay) : Store := o.base.setAll o.changes.rows

theorem row?_eq (o : Overlay) (key : Bytes) :
    o.row? key = (o.changes.get? key).getD (o.base.get? key) := by
  unfold row?
  cases o.changes.get? key <;> rfl

@[simp] theorem settle_ofStore (s : Store) : (ofStore s).settle = s := rfl

@[simp] theorem get?_settle (o : Overlay) (key : Bytes) : o.settle.get? key = o.row? key := by
  rw [row?_eq]
  exact ByteMap.get?_setAll o.base o.changes.sorted

theorem rowsFrom_eq_scan_settle (o : Overlay) (start : Bytes) :
    o.rowsFrom start = o.settle.scan start := by
  have hmaps : (o.base.restrict start).setAll (o.changes.scan start) = o.settle.restrict start := by
    refine ByteMap.ext_get? fun key => ?_
    rw [ByteMap.get?_setAll _ (o.changes.scan_sorted start), ByteMap.lookup_scan,
      ByteMap.get?_restrict, ByteMap.get?_restrict, get?_settle, row?_eq]
    split <;> simp
  exact congrArg ByteMap.rows hmaps

theorem row?_setRow (o : Overlay) (k key : Bytes) (value : Option Bytes) :
    (o.setRow k value).row? key = if k = key then value else o.row? key := by
  rw [row?_eq, row?_eq, setRow, ByteMap.get?_insert]
  split <;> rfl

theorem settle_setRow (o : Overlay) (k : Bytes) (value : Option Bytes) :
    (o.setRow k value).settle = o.settle.set k value := by
  refine ByteMap.ext_get? fun key => ?_
  rw [get?_settle, row?_setRow, ByteMap.get?_set, get?_settle]

end Overlay

end CoinLedger
