import ChuSQL.Storage.Heap.Compaction
import ChuSQL.Storage.Heap.Keyed
import ChuSQL.Storage.Serde

/-! Heap tables on slotted pages, with each index taken as the sorted multimap it
stands for. An operation that fails returns the state it leaves as well. -/

set_option autoImplicit false

namespace ChuSQL.Storage

open BTree SlottedPage

/-- A sorted multimap of positions by key. -/
structure Multimap where
  pageSize : Nat
  order : Nat
  pairs : List (Key × Nat)
deriving DecidableEq

namespace Multimap

def validateKey (tree : Multimap) (key : Key) : Except IoError Unit :=
  DiskBTree.checkKey key tree.pageSize tree.order

/-- All positions of a key, ascending. -/
def getAll (tree : Multimap) (key : Key) : List Nat :=
  ((tree.pairs.filter fun pair => pair.1 = key).map (·.2)).insertionSort (· ≤ ·)

def get (tree : Multimap) (key : Key) : Option Nat := (tree.getAll key).head?

def insert (tree : Multimap) (key : Key) (value : Nat) : Except IoError Multimap := do
  tree.validateKey key
  .ok { tree with pairs := (key, value) :: tree.pairs }

/-- Take one such pair out. -/
def delete (tree : Multimap) (key : Key) (value : Nat) : Multimap :=
  { tree with pairs := tree.pairs.erase (key, value) }

def clear (tree : Multimap) : Multimap := { tree with pairs := [] }

end Multimap

structure MapIndex where
  column : String
  tree : Multimap
deriving DecidableEq

structure IndexedHeap where
  hiddenColumns : List String
  file : PageFile Bytes
  indexes : List MapIndex
deriving DecidableEq

namespace IndexedHeap

section Rows

variable (serde : Serde)

/-- Decode a row; hidden columns are skipped. -/
def decodeRow (hidden : List String) (bytes : Bytes) : Except IoError Row :=
  match serde.fromSlice bytes with
  | .error message => .error (.ofMessage message)
  | .ok value =>
      match Row.ofJson value with
      | none => .error (.ofMessage (serde.mismatch value))
      | some row => .ok (row.filter fun column => column ∉ hidden)

/-- Encode a row and check that a page has room for it. -/
def encodeRow (row : Row) (pageSize : Nat) : Except IoError Bytes :=
  let tuple := serde.toVec row.toJson
  if headerSize + SlottedPage.slotSize + tuple.length > pageSize then
    .error (.ofMessage s!"tuple too large: {tuple.length} bytes")
  else .ok tuple

/-- Put a tuple into a new page. -/
def appendTuple (file : PageFile Bytes) (tuple : Bytes) : (Nat × Nat) × PageFile Bytes :=
  let (slot, page) := insertTuple (zeroed file.pageSize) tuple
  let (pageId, file) := file.appendPage page
  -- A checked tuple fits in an empty page.
  ((pageId, slot.getD 0), file)

/-- Put a row into the last page, compacted, or a new one; indexes are not touched. -/
def insertReturningPosition (table : IndexedHeap) (row : Row) :
    Except IoError (Nat × Nat) × IndexedHeap :=
  match encodeRow serde row table.file.pageSize with
  | .error error => (.error error, table)
  | .ok tuple =>
      let last := table.file.numPages - 1
      match table.file.pages[last]? with
      | none =>
          let (position, file) := appendTuple table.file tuple
          (.ok position, { table with file })
      | some page =>
          let (slot, page) := insertTuple (compactPage page).2 tuple
          let file := { table.file with pages := table.file.pages.set last page }
          match slot with
          | some slot => (.ok (last, slot), { table with file })
          | none =>
              let (position, file) := appendTuple file tuple
              (.ok position, { table with file })

/-- Checks of every index before a row is stored. -/
def checkIndexes (row : Row) : List MapIndex → Except IoError Unit
  | [] => .ok ()
  | index :: rest =>
      match rowKey row index.column with
      | none => checkIndexes row rest
      | some key => do
          index.tree.validateKey key
          if index.column = "id" ∧ (index.tree.get key).isSome then
            .error ⟨.invalidInput, duplicateId⟩
          else checkIndexes row rest

/-- File a stored row in every index it has a key for. -/
def addKeys (row : Row) (position : Nat) : List MapIndex → Except IoError Unit × List MapIndex
  | [] => (.ok (), [])
  | index :: rest =>
      match rowKey row index.column with
      | none =>
          let (result, rest) := addKeys row position rest
          (result, index :: rest)
      | some key =>
          match index.tree.insert key position with
          | .error error => (.error error, index :: rest)
          | .ok tree =>
              let (result, rest) := addKeys row position rest
              (result, { index with tree } :: rest)

/-- Store a row and file it. -/
def storeRow (table : IndexedHeap) (row : Row) : Except IoError (Nat × Nat) × IndexedHeap :=
  match insertReturningPosition serde table row with
  | (.error error, table) => (.error error, table)
  | (.ok position, table) =>
      let (result, indexes) := addKeys row (packPosition position.1 position.2) table.indexes
      (result.map fun _ => position, { table with indexes })

def insertRowReturningPosition (table : IndexedHeap) (row : Row) :
    Except IoError (Nat × Nat) × IndexedHeap :=
  match checkIndexes row table.indexes with
  | .error error => (.error error, table)
  | .ok () => storeRow serde table row

def insertRow (table : IndexedHeap) (row : Row) : Except IoError Unit × IndexedHeap :=
  let (result, table) := insertRowReturningPosition serde table row
  (result.map fun _ => (), table)

/-- The first row that is refused ends a batch; the rows before it stay. -/
def insertRows : IndexedHeap → List Row → Except IoError Unit × IndexedHeap
  | table, [] => (.ok (), table)
  | table, row :: rest =>
      match insertRow serde table row with
      | (.error error, table) => (.error error, table)
      | (.ok (), table) => insertRows table rest

/-! ### Reading -/

def readAt (table : IndexedHeap) (page slot : Nat) : Except IoError (Option Row) := do
  let tuple ← table.file.withPage page fun page => tupleBytes page slot
  match tuple with
  | none => .ok none
  | some bytes => do
      let row ← decodeRow serde table.hiddenColumns bytes
      .ok (some row)

def scanSlots (hidden : List String) (pageId : Nat) (page : Bytes) :
    List Nat → Except IoError (List ((Nat × Nat) × Row))
  | [] => .ok []
  | slot :: rest =>
      match tupleBytes page slot with
      | none => scanSlots hidden pageId page rest
      | some bytes => do
          let row ← decodeRow serde hidden bytes
          let rest ← scanSlots hidden pageId page rest
          .ok (((pageId, slot), row) :: rest)

def scanPages (hidden : List String) : Nat → List Bytes → Except IoError (List ((Nat × Nat) × Row))
  | _, [] => .ok []
  | pageId, page :: rest => do
      let here ← scanSlots serde hidden pageId page (List.range (slotCount page))
      let rest ← scanPages hidden (pageId + 1) rest
      .ok (here ++ rest)

def scanWithPositions (table : IndexedHeap) : Except IoError (List ((Nat × Nat) × Row)) :=
  scanPages serde table.hiddenColumns 0 table.file.pages

/-- The rows as they are stored, hidden columns included. -/
def storedRows (table : IndexedHeap) : Except IoError (List ((Nat × Nat) × Row)) :=
  scanPages serde [] 0 table.file.pages

/-! ### Deleting -/

/-- Take a row out of one index, if it has a key for it. -/
def removeKey (row : Row) (position : Nat) (index : MapIndex) : MapIndex :=
  match rowKey row index.column with
  | none => index
  | some key => { index with tree := index.tree.delete key position }

def removeKeys (row : Row) (position : Nat) (indexes : List MapIndex) : List MapIndex :=
  indexes.map (removeKey row position)

/-- Delete the row at a position and return it. -/
def deleteAt (table : IndexedHeap) (page slot : Nat) : Except IoError (Option Row) × IndexedHeap :=
  match readAt serde table page slot with
  | .error error => (.error error, table)
  | .ok row =>
      match table.file.pages[page]? with
      | none => (.error ⟨.unexpectedEof, "failed to fill whole buffer"⟩, table)
      | some bytes =>
          let (existed, bytes) := deleteTuple bytes slot
          let bytes := if existed then (compactIfFragmented bytes).2 else bytes
          let table := { table with
            file := { table.file with pages := table.file.pages.set page bytes } }
          if !existed then (.ok none, table)
          else match row with
            | none => (.ok none, table)
            | some row =>
                (.ok (some row), { table with
                  indexes := removeKeys row (packPosition page slot) table.indexes })

/-- Positions of the rows with one of the ids. -/
def positionsOf (table : IndexedHeap) (keys : List Int) : Except IoError (List (Nat × Nat)) :=
  match table.indexes.find? fun index => index.column = "id" with
  | some index => .ok (keys.filterMap fun key => (index.tree.get (keyOf key)).map unpackPosition)
  | none => do
      let rows ← scanWithPositions serde table
      .ok ((rows.filter fun entry => (rowInt entry.2 "id").any fun id => id ∈ keys).map (·.1))

def deletePositions : IndexedHeap → List (Nat × Nat) → Except IoError (List Row) × IndexedHeap
  | table, [] => (.ok [], table)
  | table, (page, slot) :: rest =>
      match deleteAt serde table page slot with
      | (.error error, table) => (.error error, table)
      | (.ok row, table) =>
          let (result, table) := deletePositions table rest
          (result.map (row.toList ++ ·), table)

/-- Delete rows by id and return them. -/
def deleteByKeys (table : IndexedHeap) (keys : List Int) : Except IoError (List Row) × IndexedHeap :=
  match positionsOf serde table keys with
  | .error error => (.error error, table)
  | .ok positions => deletePositions serde table positions

/-! ### Rewriting, indexes and compaction -/

def validateKeys (row : Row) : List MapIndex → Except IoError Unit
  | [] => .ok ()
  | index :: rest =>
      match rowKey row index.column with
      | none => validateKeys row rest
      | some key => do
          index.tree.validateKey key
          validateKeys row rest

def checkReplacement (table : IndexedHeap) : List Row → Except IoError Unit
  | [] => .ok ()
  | row :: rest => do
      let _ ← encodeRow serde row table.file.pageSize
      validateKeys row table.indexes
      checkReplacement table rest

def refill : IndexedHeap → List Row → Except IoError Unit × IndexedHeap
  | table, [] => (.ok (), table)
  | table, row :: rest =>
      match storeRow serde table row with
      | (.error error, table) => (.error error, table)
      | (.ok _, table) => refill table rest

/-- Rewrite the whole table and its indexes. -/
def replaceAll (table : IndexedHeap) (rows : List Row) : Except IoError Unit × IndexedHeap :=
  match checkReplacement serde table rows with
  | .error error => (.error error, table)
  | .ok () =>
      refill serde { table with
        file := table.file.truncate
        indexes := table.indexes.map fun index => { index with tree := index.tree.clear } } rows

def hasIndex (table : IndexedHeap) (column : String) : Bool :=
  table.indexes.any fun index => index.column = column

/-- The entries of a new index; row ids must differ, other columns may repeat. -/
def collectEntries (column : String) (pageSize order : Nat) :
    List Key → List ((Nat × Nat) × Row) → Except IoError (List (Key × Nat))
  | _, [] => .ok []
  | seen, (position, row) :: rest =>
      match rowKey row column with
      | none => collectEntries column pageSize order seen rest
      | some key => do
          DiskBTree.checkKey key pageSize order
          if column = "id" ∧ key ∈ seen then
            .error ⟨.invalidInput, s!"column \"{column}\" has duplicate values"⟩
          else do
            let rest ← collectEntries column pageSize order (key :: seen) rest
            .ok ((key, packPosition position.1 position.2) :: rest)

def fillTree : Multimap → List (Key × Nat) → Except IoError Unit × Multimap
  | tree, [] => (.ok (), tree)
  | tree, (key, position) :: rest =>
      match tree.insert key position with
      | .error error => (.error error, tree)
      | .ok tree => fillTree tree rest

/-- Attach a cleared index of a column and fill it from the heap. -/
def buildIndex (table : IndexedHeap) (column : String) (pageSize order : Nat) :
    Except IoError Unit × IndexedHeap :=
  if table.hasIndex column then
    (.error ⟨.alreadyExists, s!"index on column \"{column}\" already exists"⟩, table)
  else
    match scanWithPositions serde table with
    | .error error => (.error error, table)
    | .ok rows =>
        match collectEntries column pageSize order [] rows with
        | .error error => (.error error, table)
        | .ok entries =>
            let (result, tree) := fillTree ⟨pageSize, order, []⟩ entries
            (result, { table with indexes := table.indexes ++ [⟨column, tree⟩] })

end Rows

/-- Take an index off; its file stays. -/
def detachIndex (table : IndexedHeap) (column : String) : Bool × IndexedHeap :=
  (table.hasIndex column,
    { table with indexes := table.indexes.eraseP fun index => index.column = column })

/-- Hide a column and take its index off. -/
def hideColumn (table : IndexedHeap) (column : String) : IndexedHeap :=
  let table := (table.detachIndex column).2
  { table with hiddenColumns := column :: table.hiddenColumns }

/-- Compact every page with dead bytes. -/
def compactPages (table : IndexedHeap) : Nat × IndexedHeap :=
  let pages := table.file.pages.map fun page =>
    if deadBytes page = 0 then (0, page) else compactPage page
  ((pages.map (·.1)).sum, { table with file := { table.file with pages := pages.map (·.2) } })

end IndexedHeap

end ChuSQL.Storage
