import ChuSQL.Library.Fallible
import ChuSQL.Library.Tally
import ChuSQL.Storage.Protocol

/-! Column statistics of the catalog. The distinct counters live in the saved
catalog, the multiplicities that drive them only in memory: some updates throw
the multiplicities away and keep the counters. Value hashes are the values
themselves; the floating point histogram is a parameter. -/

set_option autoImplicit false

namespace ChuSQL.Storage.Catalog

open Library

def statsDistinctCap : Nat := 4096

/-- What the updates do to the range and the buckets of one column. -/
structure HistogramOps (Hist : Type) where
  empty : Hist
  widen : Hist → Json → Hist
  add : Hist → Json → Hist
  remove : Hist → Json → Hist

structure ColumnStat (Hist : Type) where
  distinct : Nat
  capped : Bool
  histogram : Hist

structure IndexSchema where
  column : String
deriving DecidableEq

structure TableSchema (Hist : Type) where
  schemaVersion : Nat
  columns : List SchemaColumn
  droppedColumns : List String
  compacted : Bool
  rowCount : Nat
  indexes : List IndexSchema
  stats : String → Option (ColumnStat Hist)

/-- Column name and value, whose hash is the key of the multiplicity map. -/
abbrev SeenKey := String × Json

structure Catalog (Hist : Type) where
  tables : String → Option (TableSchema Hist)
  seen : String → Option (SeenKey → Option Nat)

section
variable {Hist : Type}

def ColumnStat.default (ops : HistogramOps Hist) : ColumnStat Hist := ⟨0, false, ops.empty⟩

def TableSchema.default : TableSchema Hist := ⟨0, [], [], false, 0, [], fun _ => none⟩

/-- The statistic of a column, a missing one being the default. -/
def TableSchema.stat (ops : HistogramOps Hist) (entry : TableSchema Hist) (column : String) :
    ColumnStat Hist :=
  (entry.stats column).getD (.default ops)

/-- `tables.entry(table).or_default()`. -/
def Catalog.entry (catalog : Catalog Hist) (table : String) : TableSchema Hist :=
  (catalog.tables table).getD .default

/-- `seen.entry(table).or_default()`. -/
def Catalog.counts (catalog : Catalog Hist) (table : String) : SeenKey → Option Nat :=
  (catalog.seen table).getD fun _ => none

def Catalog.put (catalog : Catalog Hist) (table : String) (entry : TableSchema Hist)
    (seen : Option (SeenKey → Option Nat)) : Catalog Hist :=
  ⟨Function.update catalog.tables table (some entry), Function.update catalog.seen table seen⟩

def Catalog.describe (catalog : Catalog Hist) (table : String) : Except IoError (TableSchema Hist) :=
  match catalog.tables table with
  | none => .error ⟨.notFound, s!"unknown table: {table}"⟩
  | some entry => .ok entry

/-! ### Columns -/

def inferType : Json → Option String
  | .number _ => some "int"
  | .string _ => some "str"
  | .bool _ => some "bool"
  | _ => none

def nextSchemaVersion (entry : TableSchema Hist) : Except IoError Nat :=
  if entry.schemaVersion + 1 < 2 ^ 64 then .ok (entry.schemaVersion + 1)
  else .error (.ofMessage "catalog schema version exhausted")

def inferredColumn (name type : String) : SchemaColumn :=
  ⟨name, type, true, none, false, false, false, none⟩

/-- Add the columns of a row that the catalog does not know. -/
def addMissingColumns (entry : TableSchema Hist) (row : Row) :
    Except IoError (Bool × TableSchema Hist) :=
  let unknown := row.fields.filter fun field =>
    field.1 ∉ entry.droppedColumns ∧ field.1 ∉ entry.columns.map (·.name)
  let additions := unknown.filterMap fun field =>
    (inferType field.2).map fun type => inferredColumn field.1 type
  if additions.isEmpty then .ok (false, entry)
  else do
    let version ← nextSchemaVersion entry
    .ok (true, { entry with schemaVersion := version, columns := entry.columns ++ additions })

/-! ### Counting values -/

/-- The counters of one table while a row goes through them. -/
structure Counters (Hist : Type) where
  stats : String → Option (ColumnStat Hist)
  seen : SeenKey → Option Nat

def Counters.stat (ops : HistogramOps Hist) (counters : Counters Hist) (column : String) :
    ColumnStat Hist :=
  (counters.stats column).getD (.default ops)

def Counters.put (counters : Counters Hist) (column : String) (stat : ColumnStat Hist) :
    Counters Hist :=
  { counters with stats := Function.update counters.stats column (some stat) }

def Counters.setSeen (counters : Counters Hist) (key : SeenKey) (count : Option Nat) :
    Counters Hist :=
  { counters with seen := Function.update counters.seen key count }

variable (ops : HistogramOps Hist)

def countValue (counters : Counters Hist) (field : SeenKey) : Counters Hist :=
  let stat := counters.stat ops field.1
  let stat := { stat with histogram := ops.add stat.histogram field.2 }
  if stat.capped then counters.put field.1 stat
  else
    let count := (counters.seen field).getD 0 + 1
    let counters := counters.setSeen field (some count)
    if count = 1 then
      counters.put field.1
        { stat with
            distinct := stat.distinct + 1
            capped := decide (statsDistinctCap ≤ stat.distinct + 1) }
    else counters.put field.1 stat

def uncountValue (counters : Counters Hist) (field : SeenKey) : Counters Hist :=
  let stat := counters.stat ops field.1
  let stat := { stat with histogram := ops.remove stat.histogram field.2 }
  if stat.capped then counters.put field.1 stat
  else
    match counters.seen field with
    | none => counters.put field.1 stat
    | some count =>
        if count - 1 = 0 then
          (counters.setSeen field none).put field.1 { stat with distinct := stat.distinct - 1 }
        else (counters.setSeen field (some (count - 1))).put field.1 stat

def countValues (counters : Counters Hist) (row : Row) : Counters Hist :=
  row.fields.foldl (countValue ops) counters

def uncountValues (counters : Counters Hist) (row : Row) : Counters Hist :=
  row.fields.foldl (uncountValue ops) counters

namespace Catalog

def counters (catalog : Catalog Hist) (table : String) : Counters Hist :=
  ⟨(catalog.entry table).stats, catalog.counts table⟩

/-! ### Updates -/

def recordInsert (catalog : Catalog Hist) (table : String) (row : Row) :
    Except IoError (Bool × Catalog Hist) := do
  let (changed, entry) ← addMissingColumns (catalog.entry table) row
  let counters := countValues ops ⟨entry.stats, catalog.counts table⟩ row
  .ok (changed,
    catalog.put table { entry with rowCount := entry.rowCount + 1, stats := counters.stats }
      (some counters.seen))

/-- An empty table starts its statistics again. -/
def resetStat (stat : ColumnStat Hist) : ColumnStat Hist := { stat with
  distinct := 0
  capped := false
  histogram := ops.empty }

def recordDelete (catalog : Catalog Hist) (table : String) (rows : List Row) : Catalog Hist :=
  let entry := catalog.entry table
  let rowCount := entry.rowCount - rows.length
  let counters := rows.foldl (uncountValues ops) (catalog.counters table)
  if rowCount = 0 then
    catalog.put table
      { entry with rowCount, stats := fun column => (counters.stats column).map (resetStat ops) }
      (some fun _ => none)
  else catalog.put table { entry with rowCount, stats := counters.stats } (some counters.seen)

/-- The range of the numbers in a column, before the rows are counted. -/
def widenStat (stats : String → Option (ColumnStat Hist)) (field : SeenKey) :
    String → Option (ColumnStat Hist) :=
  match field.2 with
  | .number _ =>
      let stat := (stats field.1).getD (.default ops)
      Function.update stats field.1
        (some { stat with histogram := ops.widen stat.histogram field.2 })
  | _ => stats

def recordInserts (catalog : Catalog Hist) (table : String) :
    Bool → List Row → Except IoError (Bool × Catalog Hist)
  | changed, [] => .ok (changed, catalog)
  | changed, row :: rows => do
      let (grown, catalog) ← recordInsert ops catalog table row
      recordInserts catalog table (grown || changed) rows

def rebuildStats (catalog : Catalog Hist) (table : String) (rows : List Row) :
    Except IoError (Bool × Catalog Hist) :=
  let entry := catalog.entry table
  let stats := (rows.flatMap (·.fields)).foldl (widenStat ops) fun _ => none
  recordInserts ops (catalog.put table { entry with rowCount := 0, stats } none) table false rows

/-- The version a change of the columns leaves: the logged one, else the next. -/
def changedVersion (entry : TableSchema Hist) (version : Option Nat) (changes : Bool) :
    Except IoError Nat :=
  match version with
  | some version =>
      if version = 0 then .error (.ofMessage "invalid WAL schema version") else .ok version
  | none => if changes then nextSchemaVersion entry else .ok entry.schemaVersion

def removeColumnVersion (catalog : Catalog Hist) (table column : String) (version : Option Nat) :
    Except IoError (Bool × Catalog Hist) := do
  let entry ← catalog.describe table
  let hadColumn := entry.columns.any (·.name = column)
  let schemaVersion ← changedVersion entry version hadColumn
  .ok (hadColumn, catalog.put table
    { entry with
        schemaVersion
        columns := entry.columns.filter (·.name ≠ column)
        stats := Function.update entry.stats column none
        droppedColumns := entry.droppedColumns.insert column
        compacted := false
        indexes := entry.indexes.filter (·.column ≠ column) } none)

def markCompacted (catalog : Catalog Hist) (table : String) : Except IoError (Catalog Hist) := do
  let entry ← catalog.describe table
  .ok (catalog.put table { entry with compacted := true } none)

def setColumnsVersion (catalog : Catalog Hist) (table : String) (columns : List SchemaColumn)
    (version : Option Nat) : Except IoError (Catalog Hist) := do
  let entry ← catalog.describe table
  let schemaVersion ← changedVersion entry version (decide (entry.columns ≠ columns))
  .ok (catalog.put table
    { entry with
        schemaVersion
        columns
        droppedColumns := []
        indexes := []
        stats := fun _ => none } none)

end Catalog
end

end ChuSQL.Storage.Catalog
