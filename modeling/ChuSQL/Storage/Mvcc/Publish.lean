import ChuSQL.Storage.Mvcc.Basic

/-! Publishing a commit: the rows of the changed tables become versions, tables
that left the catalog are retired, and what no snapshot sees is dropped. -/

set_option autoImplicit false

namespace ChuSQL.Storage.Mvcc

open Library

/-- End the last version of a chain. -/
def endLast (csn : Nat) : List Version → List Version
  | [] => []
  | [version] => [{ version with end_ := some csn }]
  | version :: rest => version :: endLast csn rest

/-- A table while its rows are being published. -/
structure Publishing where
  rows : SortedMap Nat (List Version)
  nextRow : Nat
  matcher : Matcher
  changed : Bool

def replayMismatch : String := "MVCC replay does not match published version"
def replayRemoved : String := "MVCC replay removed a published row"
def missingRow : String := "MVCC row missing"
def emptyChain : String := "MVCC chain empty"
def exhaustedRow : String := "MVCC row id exhausted"

def publishRow (csn : Nat) (old : List (Nat × Version)) (publishing : Publishing) (row : Row)
    (order : Nat) : Except String Publishing :=
  let (prior, matcher) := publishing.matcher.prior old row
  match prior with
  | some (id, previous) =>
      if previous.row = row ∧ previous.order = order then .ok { publishing with matcher }
      else if previous.begin = csn then .error replayMismatch
      else
        match publishing.rows.get id with
        | none => .error missingRow
        | some [] => .error emptyChain
        | some chain =>
            let valueBegin := if previous.row = row then previous.valueBegin else csn
            .ok ⟨publishing.rows.insert id (endLast csn chain ++ [⟨csn, none, valueBegin, order, row⟩]),
              publishing.nextRow, matcher, publishing.changed || previous.row ≠ row⟩
  | none =>
      let id := publishing.nextRow + 1
      if id ≥ 2 ^ 64 then .error exhaustedRow
      else .ok ⟨publishing.rows.insert id [⟨csn, none, csn, order, row⟩], id, matcher, true⟩

def publishRows (csn : Nat) (old : List (Nat × Version)) :
    Publishing → List Row → (position : Nat) → Except String Publishing
  | publishing, [], _ => .ok publishing
  | publishing, row :: rest, position => do
      let publishing ← publishRow csn old publishing row position
      publishRows csn old publishing rest (position + 1)

/-- End the rows that were not published again. -/
def endUnused (csn : Nat) : Publishing → (old : List (Nat × Version)) → Except String Publishing
  | publishing, [] => .ok publishing
  | publishing, (id, previous) :: rest =>
      if id ∈ publishing.matcher.used then endUnused csn publishing rest
      else if previous.begin = csn then .error replayRemoved
      else
        match publishing.rows.get id with
        | none | some [] => .error missingRow
        | some chain =>
            endUnused csn
              { publishing with rows := publishing.rows.insert id (endLast csn chain), changed := true }
              rest

def publishTable (csn : Nat) (next : Durable) (table : TableSchemaWire × List Row) :
    Except String Durable := do
  let (schema, rows) := table
  let history := (next.tables.get schema.objectId).getD ⟨schema, csn, true, .empty⟩
  let old := visible history next.csn
  let altered : Bool := history.schema.columns ≠ schema.columns ∨
    history.schema.schemaVersion ≠ schema.schemaVersion
  let published ← publishRows csn old ⟨history.rows, next.nextRow, .start old, altered⟩ rows 0
  let ended ← endUnused csn published old
  let history : History :=
    ⟨schema, if ended.changed then csn else history.changed, true, ended.rows⟩
  pure { next with nextRow := ended.nextRow, tables := next.tables.insert schema.objectId history }

def publishTables (csn : Nat) : Durable → List (TableSchemaWire × List Row) → Except String Durable
  | next, [] => .ok next
  | next, table :: rest => do
      let next ← publishTable csn next table
      publishTables csn next rest

/-- End what is left of a chain when its table is dropped. -/
def endOpen (csn : Nat) (chain : List Version) : List Version :=
  if latest chain = none then chain else endLast csn chain

def History.retire (csn : Nat) (history : History) : History :=
  { history with
    live := false, changed := csn, rows := history.rows.mapValues fun _ chain => endOpen csn chain }

def retireTables (csn : Nat) (current : List Nat) (tables : SortedMap Nat History) :
    SortedMap Nat History :=
  tables.mapValues fun id history =>
    if id ∉ current ∧ history.live = true then history.retire csn else history

/-- Drop old versions, and the tables that left the catalog once they hold none. -/
def pruneTables (oldest : Nat) (current : List Nat) (tables : SortedMap Nat History) :
    SortedMap Nat History :=
  (tables.mapValues fun _ history => history.prune oldest).retain fun id history =>
    id ∈ current ∨ history.rows.entries ≠ []

def publishDurable (durable : Durable) (oldest : Nat) (csn : Nat) (schemas : List TableSchemaWire)
    (tables : List (TableSchemaWire × List Row)) : Except String Durable := do
  let next ← publishTables csn durable tables
  let current := schemas.map (·.objectId)
  pure { next with
    format := 2, csn, tables := pruneTables oldest current (retireTables csn current next.tables) }

def movedBackwards : String := "MVCC commit sequence moved backwards"

/-- Publish the rows of the changed tables at a commit point. `schemas` is the whole catalog. -/
def publishChanged (state : State) (csn : Nat) (schemas : List TableSchemaWire)
    (tables : List (TableSchemaWire × List Row)) : Except String State :=
  if csn < state.durable.csn then .error movedBackwards
  else do
    let durable ← publishDurable state.durable ((oldestSnapshot state).getD csn) csn schemas tables
    pure { state with durable }

end ChuSQL.Storage.Mvcc
