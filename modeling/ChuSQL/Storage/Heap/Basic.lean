import ChuSQL.Storage.Value
import ChuSQL.Storage.BTree.Basic

/-! Heap tables: rows go into pages in insertion order, indexes file them by
the key of one column. A page is kept as its slot directory; where in the page
the bytes of a row lie, and when a page is compacted, is below this model. The
serialised length of a row is a parameter, since the serialiser is a library. -/

set_option autoImplicit false

namespace ChuSQL.Storage

open BTree

def duplicateId : String := "duplicate value on the id index"

/-- Pack a page number and a slot into one index value. -/
def packPosition (page slot : Nat) : Nat := page * 2 ^ 16 + slot

def unpackPosition (position : Nat) : Nat × Nat := (position / 2 ^ 16, position % 2 ^ 16)

/-- Slots of a page; a deleted row leaves an empty slot. -/
structure HeapPage where
  slots : List (Option Row)
deriving DecidableEq

namespace HeapPage

def headerSize : Nat := 2
def slotSize : Nat := 8

def slotCount (page : HeapPage) : Nat := page.slots.length

/-- Bytes taken by the rows of a compacted page. -/
def liveBytes (rowBytes : Row → Nat) (page : HeapPage) : Nat :=
  ((page.slots.filterMap id).map rowBytes).sum

/-- Put a row behind the last slot of a compacted page, if it fits. -/
def insertTuple (rowBytes : Row → Nat) (pageSize : Nat) (page : HeapPage) (row : Row) :
    Option (Nat × HeapPage) :=
  if headerSize + page.slotCount * slotSize + slotSize + rowBytes row + page.liveBytes rowBytes >
      pageSize then none
  else some (page.slotCount, ⟨page.slots ++ [some row]⟩)

def tuple (page : HeapPage) (slot : Nat) : Option Row := page.slots[slot]?.join

def deleteTuple (page : HeapPage) (slot : Nat) : Bool × HeapPage :=
  match page.tuple slot with
  | none => (false, page)
  | some _ => (true, ⟨page.slots.set slot none⟩)

end HeapPage

structure NamedIndex where
  column : String
  tree : DiskBTree
deriving DecidableEq

structure HeapTable where
  hiddenColumns : List String
  file : PageFile HeapPage
  indexes : List NamedIndex
deriving DecidableEq

namespace HeapTable

/-- Rows with their positions, from one page on. -/
def scanPages (hidden : List String) : Nat → List HeapPage → List ((Nat × Nat) × Row)
  | _, [] => []
  | pageId, page :: rest =>
      (page.slots.zipIdx.filterMap fun (tuple, slot) =>
        tuple.map fun row => ((pageId, slot), row.filter fun column => column ∉ hidden)) ++
      scanPages hidden (pageId + 1) rest

def scanWithPositions (table : HeapTable) : List ((Nat × Nat) × Row) :=
  scanPages table.hiddenColumns 0 table.file.pages

/-- Full scan. -/
def scan (table : HeapTable) : List Row := table.scanWithPositions.map (·.2)

def findIndex (table : HeapTable) (column : String) : Option NamedIndex :=
  table.indexes.find? fun index => index.column = column

def hasIndex (table : HeapTable) (column : String) : Bool :=
  table.indexes.any fun index => index.column = column

/-- Change the first index of a column. -/
def updateIndex (table : HeapTable) (column : String)
    (change : DiskBTree → Except IoError DiskBTree) : Except IoError HeapTable :=
  let rec go : List NamedIndex → Except IoError (List NamedIndex)
    | [] => .ok []
    | index :: rest =>
        if index.column = column then do
          let tree ← change index.tree
          .ok ({ index with tree } :: rest)
        else do
          let rest ← go rest
          .ok (index :: rest)
  do
    let indexes ← go table.indexes
    .ok { table with indexes }

/-! ### Opening -/

/-- Attach an index file without filling it. -/
def attachIndex (table : HeapTable) (column : String) (file : PageFile IndexPage) (order : Nat) :
    Except IoError HeapTable := do
  let tree ← DiskBTree.openFile file order
  .ok { table with indexes := table.indexes ++ [⟨column, tree⟩] }

def indexEmpty (table : HeapTable) (column : String) : Except IoError Bool :=
  match table.findIndex column with
  | some index => index.tree.isEmpty
  | none => .ok false

/-- File every row with a key. -/
def fillTree (column : String) : DiskBTree → List ((Nat × Nat) × Row) → Except IoError DiskBTree
  | tree, [] => .ok tree
  | tree, ((page, slot), row) :: rest =>
      match rowKey row column with
      | none => fillTree column tree rest
      | some key => do
          let tree ← tree.insert key (packPosition page slot)
          fillTree column tree rest

/-- Complete one index from the rows of the heap. -/
def fillIndex (table : HeapTable) (column : String) : Except IoError HeapTable :=
  table.updateIndex column fun tree => fillTree column tree table.scanWithPositions

/-- Attach one index file. A file of an older format is dropped and started
again; an empty index is filled from the heap. -/
def openIndex (table : HeapTable) (column : String) (file : PageFile IndexPage) (order : Nat) :
    Except IoError HeapTable := do
  let table ← match table.attachIndex column file order with
    | .ok table => .ok table
    | .error error =>
        if error.kind = .invalidData then table.attachIndex column file.truncate order
        else .error error
  if ← table.indexEmpty column then table.fillIndex column else .ok table

def openIndexes : HeapTable → List (String × PageFile IndexPage) → Nat → Except IoError HeapTable
  | table, [], _ => .ok table
  | table, (column, file) :: rest, order => do
      let table ← table.openIndex column file order
      openIndexes table rest order

/-- Open a table with its index files. -/
def openWithIndexes (file : PageFile HeapPage) (indexes : List (String × PageFile IndexPage))
    (order : Nat) : Except IoError HeapTable :=
  openIndexes ⟨[], file, []⟩ indexes order

/-! ### Changing rows -/

section Rows

variable (rowBytes : Row → Nat)

def encodeRow (pageSize : Nat) (row : Row) : Except IoError Unit :=
  if HeapPage.headerSize + HeapPage.slotSize + rowBytes row > pageSize then
    .error (.ofMessage s!"tuple too large: {rowBytes row} bytes")
  else .ok ()

/-- Put a row into the last page or a new one; indexes are not touched. -/
def insertReturningPosition (table : HeapTable) (row : Row) :
    Except IoError ((Nat × Nat) × HeapTable) := do
  encodeRow rowBytes table.file.pageSize row
  let last := table.file.numPages - 1
  match table.file.pages[last]?.bind fun page =>
      (page.insertTuple rowBytes table.file.pageSize row) with
  | some (slot, page) =>
      .ok ((last, slot),
        { table with file := { table.file with pages := table.file.pages.set last page } })
  | none =>
      let (pageId, file) := table.file.appendPage ⟨[some row]⟩
      .ok ((pageId, 0), { table with file })

/-- Checks of every index before a row is stored. -/
def checkIndexes (row : Row) : List NamedIndex → Except IoError Unit
  | [] => .ok ()
  | index :: rest =>
      match rowKey row index.column with
      | none => checkIndexes row rest
      | some key => do
          index.tree.validateKey key
          let taken ← if index.column = "id" then index.tree.get key else .ok none
          if taken.isSome then .error ⟨.invalidInput, duplicateId⟩
          else checkIndexes row rest

/-- File a stored row in every index it has a key for. -/
def addKeys (row : Row) (position : Nat) : List NamedIndex → Except IoError (List NamedIndex)
  | [] => .ok []
  | index :: rest => do
      let tree ← match rowKey row index.column with
        | none => .ok index.tree
        | some key => index.tree.insert key position
      let rest ← addKeys row position rest
      .ok ({ index with tree } :: rest)

def insertRowReturningPosition (table : HeapTable) (row : Row) :
    Except IoError ((Nat × Nat) × HeapTable) := do
  checkIndexes row table.indexes
  let (position, table) ← insertReturningPosition rowBytes table row
  let indexes ← addKeys row (packPosition position.1 position.2) table.indexes
  .ok (position, { table with indexes })

def insertRow (table : HeapTable) (row : Row) : Except IoError HeapTable := do
  let (_, table) ← insertRowReturningPosition rowBytes table row
  .ok table

def insertRows : HeapTable → List Row → Except IoError HeapTable
  | table, [] => .ok table
  | table, row :: rest => do
      let table ← insertRow rowBytes table row
      insertRows table rest

end Rows

/-- Read the row at a position. -/
def readAt (table : HeapTable) (page slot : Nat) : Except IoError (Option Row) :=
  table.file.withPage page fun heapPage =>
    (heapPage.tuple slot).map fun row => row.filter fun column => column ∉ table.hiddenColumns

/-- Take a row out of every index it has a key for. -/
def removeKeys (row : Row) (position : Nat) : List NamedIndex → Except IoError (List NamedIndex)
  | [] => .ok []
  | index :: rest => do
      let tree ← match rowKey row index.column with
        | none => .ok index.tree
        | some key => do
            let (_, tree) ← index.tree.delete key position
            .ok tree
      let rest ← removeKeys row position rest
      .ok ({ index with tree } :: rest)

/-- Delete the row at a position and return it. -/
def deleteAt (table : HeapTable) (page slot : Nat) : Except IoError (Option Row × HeapTable) := do
  let row ← table.readAt page slot
  match table.file.pages[page]? with
  | none => .error ⟨.unexpectedEof, "failed to fill whole buffer"⟩
  | some heapPage =>
      let (existed, heapPage) := heapPage.deleteTuple slot
      let table := { table with
        file := { table.file with pages := table.file.pages.set page heapPage } }
      if !existed then .ok (none, table)
      else match row with
        | none => .ok (none, table)
        | some row => do
            let indexes ← removeKeys row (packPosition page slot) table.indexes
            .ok (some row, { table with indexes })

/-- Positions of the rows with one of the ids. -/
def positionsOf (table : HeapTable) (keys : List Int) : Except IoError (List (Nat × Nat)) :=
  match table.findIndex "id" with
  | some index =>
      let rec go : List Int → Except IoError (List (Nat × Nat))
        | [] => .ok []
        | key :: rest => do
            let position ← index.tree.get (keyOf key)
            let rest ← go rest
            .ok (match position with
              | none => rest
              | some position => unpackPosition position :: rest)
      go keys
  | none =>
      .ok ((table.scanWithPositions.filter fun entry =>
        (rowInt entry.2 "id").any fun id => id ∈ keys).map (·.1))

def deletePositions : HeapTable → List (Nat × Nat) → Except IoError (List Row × HeapTable)
  | table, [] => .ok ([], table)
  | table, (page, slot) :: rest => do
      let (row, table) ← table.deleteAt page slot
      let (deleted, table) ← deletePositions table rest
      .ok (row.toList ++ deleted, table)

/-- Delete rows by id and return them. -/
def deleteByKeys (table : HeapTable) (keys : List Int) : Except IoError (List Row × HeapTable) := do
  let positions ← table.positionsOf keys
  table.deletePositions positions

section Replace

variable (rowBytes : Row → Nat)

def checkReplacement (table : HeapTable) : List Row → Except IoError Unit
  | [] => .ok ()
  | row :: rest => do
      encodeRow rowBytes table.file.pageSize row
      let rec keys : List NamedIndex → Except IoError Unit
        | [] => .ok ()
        | index :: others => do
            match rowKey row index.column with
            | none => keys others
            | some key => do
                index.tree.validateKey key
                keys others
      keys table.indexes
      checkReplacement table rest

def refill : HeapTable → List Row → Except IoError HeapTable
  | table, [] => .ok table
  | table, row :: rest => do
      let (position, table) ← insertReturningPosition rowBytes table row
      let indexes ← addKeys row (packPosition position.1 position.2) table.indexes
      refill { table with indexes } rest

/-- Rewrite the whole table and its indexes. -/
def replaceAll (table : HeapTable) (rows : List Row) : Except IoError HeapTable := do
  checkReplacement rowBytes table rows
  let cleared := { table with
    file := table.file.truncate
    indexes := table.indexes.map fun index => { index with tree := index.tree.clear } }
  refill rowBytes cleared rows

end Replace

end HeapTable

end ChuSQL.Storage
