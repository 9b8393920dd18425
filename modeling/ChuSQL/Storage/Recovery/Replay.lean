import ChuSQL.Storage.Heap.Keyed
import ChuSQL.Storage.Wal.Recovery

/-! Row operations of a group, applied for the first time and replayed in
recovery. Replay skips an operation whose data looks written already. Tables that
the catalog does not know have no rows; the other data of the catalog is left out. -/

set_option autoImplicit false

namespace ChuSQL.Storage

open BTree Library Library.GuardedRedo

/-- A 64-bit integer. -/
def Sized64 (id : Int) : Prop := -2 ^ 63 ≤ id ∧ id < 2 ^ 63

instance (id : Int) : Decidable (Sized64 id) := inferInstanceAs (Decidable (_ ∧ _))

/-- The row operations of the log. -/
inductive RowOp where
  | insert (table : String) (row : Row)
  | insertBatch (table : String) (rows : List Row)
  | deleteKeys (table : String) (keys : List Int)
  | replaceAll (table : String) (rows : List Row)
deriving DecidableEq

/-- Tables by name; a table unknown to the catalog is missing. -/
abbrev Tables := String → Option KeyedHeap

namespace RowOp

def toWal : RowOp → WalOp
  | insert table row => .insert table row
  | insertBatch table rows => .insertBatch table rows
  | deleteKeys table keys => .deleteKeys table keys
  | replaceAll table rows => .replaceAll table rows

def table : RowOp → String
  | insert table _ | insertBatch table _ | deleteKeys table _ | replaceAll table _ => table

/-- Rows the operation writes. -/
def rows : RowOp → List Row
  | insert _ row => [row]
  | insertBatch _ rows | replaceAll _ rows => rows
  | deleteKeys _ _ => []

/-- Ids the operation deletes. -/
def keys : RowOp → List Int
  | deleteKeys _ keys => keys
  | insert .. | insertBatch .. | replaceAll .. => []

/-- What the operation asks of the rows of its table. -/
def change : RowOp → Change Row Key
  | insert _ row => .insert [row]
  | insertBatch _ rows => .insert rows
  | deleteKeys _ keys => .delete (keys.map keyOf)
  | replaceAll _ rows => .replace rows

end RowOp

/-- The changes of one table. -/
def changes (ops : List RowOp) (table : String) : List (Change Row Key) :=
  changesOf RowOp.table RowOp.change ops table

namespace Tables

section Apply

variable (rowBytes : Row → Nat) (pageSize : Nat)

/-- Change a table; a missing one is created empty. -/
def withTable (tables : Tables) (table : String)
    (change : KeyedHeap → Except IoError KeyedHeap) : Except IoError Tables := do
  let heap ← change ((tables table).getD ⟨pageSize, []⟩)
  .ok (Function.update tables table (some heap))

/-- Apply a row operation. -/
def applyOp (tables : Tables) : RowOp → Except IoError Tables
  | .insert table row => withTable pageSize tables table fun heap => heap.insertRow rowBytes row
  | .insertBatch table rows =>
      if rows = [] ∧ tables table = none then .ok tables
      else withTable pageSize tables table fun heap => heap.insertRows rowBytes rows
  | .deleteKeys table keys => withTable pageSize tables table fun heap => do
      let (_, heap) ← heap.deleteByKeys keys
      .ok heap
  | .replaceAll table rows => withTable pageSize tables table fun heap =>
      heap.replaceAll rowBytes rows

/-- Are these rows all in the table already? -/
def appliedRows (tables : Tables) (table : String) (rows : List Row) : Bool :=
  rows.isEmpty || match tables table with
    | none => false
    | some heap => rows.all fun row => heap.scan.any fun one => one = row

/-- Is the data of the operation written already? -/
def opAlreadyApplied (tables : Tables) : RowOp → Bool
  | .insert table row => appliedRows tables table [row]
  | .insertBatch table rows => appliedRows tables table rows
  | .replaceAll table rows =>
      match tables table with
      | none => false
      | some heap => heap.scan = rows
  | .deleteKeys table keys =>
      keys.isEmpty || match tables table with
        | none => false
        | some heap => !heap.scan.any fun row => (rowInt row "id").any fun id => id ∈ keys

/-- Replay an operation unless its data is written already. -/
def replayOp (tables : Tables) (op : RowOp) : Except IoError Tables :=
  match op with
  | .replaceAll .. => applyOp rowBytes pageSize tables op
  | .insert .. | .insertBatch .. | .deleteKeys .. =>
      if opAlreadyApplied tables op then .ok tables else applyOp rowBytes pageSize tables op

end Apply

/-- The rows of a table in scan order. -/
def rows (tables : Tables) (table : String) : List Row :=
  ((tables table).map KeyedHeap.scan).getD []

/-! ### The pre-checks of a group -/

/-- Counts of id keys that a group has looked up or changed so far. -/
structure PendingIds where
  replaced : Bool
  counts : List (Key × Nat)

namespace PendingIds

def count (pending : PendingIds) (heap : Option KeyedHeap) (key : Key) : Nat :=
  match pending.counts.lookup key with
  | some count => count
  | none => if pending.replaced then 0 else (heap.map (·.idKeyCount key)).getD 0

def set (pending : PendingIds) (key : Key) (count : Nat) : PendingIds :=
  { pending with counts := (key, count) :: pending.counts }

/-- Each id is taken once. -/
def delete (heap : Option KeyedHeap) : PendingIds → (seen keys : List Int) → PendingIds
  | pending, _, [] => pending
  | pending, seen, id :: rest =>
      if id ∈ seen then delete heap pending seen rest
      else delete heap (pending.set (keyOf id) (pending.count heap (keyOf id) - 1)) (id :: seen) rest

def insert (heap : Option KeyedHeap) : PendingIds → List Row → Except IoError PendingIds
  | pending, [] => .ok pending
  | pending, row :: rest =>
      match idKey row with
      | none => insert heap pending rest
      | some key =>
          if pending.count heap key > 0 then .error ⟨.invalidInput, duplicateId⟩
          else insert heap (pending.set key 1) rest

def replace : List Row → PendingIds
  | rows => rows.foldl (fun pending row =>
      match idKey row with
      | none => pending
      | some key => pending.set key (pending.count none key + 1)) ⟨true, []⟩

/-- The effect of one operation on the counts of its table. -/
def step (heap : Option KeyedHeap) (pending : PendingIds) : RowOp → Except IoError PendingIds
  | .insert _ row => insert heap pending [row]
  | .insertBatch _ rows => insert heap pending rows
  | .deleteKeys _ keys => .ok (delete heap pending [] keys)
  | .replaceAll _ rows => .ok (replace rows)

end PendingIds

/-- Check in order that no inserted id is taken. -/
def validateInsertIds (tables : Tables) :
    (String → PendingIds) → List RowOp → Except IoError Unit
  | _, [] => .ok ()
  | pending, op :: rest => do
      let next ← (pending op.table).step (tables op.table) op
      validateInsertIds tables (Function.update pending op.table next) rest

/-- All tables have pages of the configured size. -/
def Paged (pageSize : Nat) (tables : Tables) : Prop :=
  ∀ table, ∀ heap ∈ tables table, heap.file.pageSize = pageSize

/-- The checks that a group of row operations passes before it is logged: rows
fit a page, ids are free. Ids are 64-bit integers. -/
structure Accepts (rowBytes : Row → Nat) (pageSize : Nat) (tables : Tables) (ops : List RowOp) :
    Prop where
  fits : ∀ op ∈ ops, KeyedHeap.Fits rowBytes pageSize op.rows
  free : validateInsertIds tables (fun _ => ⟨false, []⟩) ops = .ok ()
  sized : ∀ op ∈ ops, ∀ id ∈ op.keys, Sized64 id
  paged : Paged pageSize tables

end Tables

end ChuSQL.Storage
