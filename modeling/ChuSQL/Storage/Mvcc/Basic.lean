import ChuSQL.Storage.Protocol

/-! Row versions, snapshots and the locks of transactions. Tables are filed under
their object id, the chain of a row under an internal row id that outlives every
change of the row's values. -/

set_option autoImplicit false

namespace ChuSQL.Storage.Mvcc

open Library

structure TableSchemaWire where
  table : String
  databaseId : Nat
  objectId : Nat
  schemaVersion : Nat
  columns : List SchemaColumn
  rowCount : Nat
deriving DecidableEq

structure Version where
  begin : Nat
  end_ : Option Nat
  valueBegin : Nat
  order : Nat
  row : Row
deriving DecidableEq

structure History where
  schema : TableSchemaWire
  changed : Nat
  live : Bool
  rows : SortedMap Nat (List Version)
deriving DecidableEq

structure Durable where
  format : Nat
  csn : Nat
  nextRow : Nat
  tables : SortedMap Nat History
deriving DecidableEq

/-- What a lock covers: a table, a row of it, or a value of a unique column. -/
inductive Key where
  | table (table : Nat)
  | row (table row : Nat)
  | unique (table : Nat) (column : String) (value : Bytes)

namespace Key

def tableId : Key → Nat
  | table id | row id _ | unique id _ _ => id

/-- Variants in order of declaration, then their fields from left to right. -/
def rank : Key → Nat ×ₗ Nat ×ₗ Nat ×ₗ String ×ₗ Bytes
  | table id => toLex (0, toLex (id, toLex (0, toLex ("", []))))
  | row id number => toLex (1, toLex (id, toLex (number, toLex ("", []))))
  | unique id column value => toLex (2, toLex (id, toLex (0, toLex (column, value))))

theorem rank_injective : Function.Injective rank := by
  intro first second same
  cases first <;> cases second <;> simp_all [rank]

instance : LinearOrder Key := LinearOrder.lift' rank rank_injective

end Key

inductive StorageOp where
  | upsert (table : String) (rows : List Row)
  | delete (table : String) (ids : List Int)
  | replace (table : String) (rows : List Row)
deriving DecidableEq

def StorageOp.table : StorageOp → String
  | upsert table _ | delete table _ | replace table _ => table

structure Transaction where
  snapshot : Nat
  schemas : List TableSchemaWire
  serializable : Bool
  reads : List Nat
  held : SortedMap Key Bool
  waiting : List Nat
  aborted : Option String
  plan : List StorageOp
deriving DecidableEq

/-- A token is the nonce of the process and a counter; only the counter tells two
tokens apart. -/
abbrev Token := Nat

structure State where
  durable : Durable
  transactions : SortedMap Token Transaction
  nextTransaction : Nat
deriving DecidableEq

def State.setTransaction (state : State) (token : Token) (tx : Transaction) : State :=
  { state with transactions := state.transactions.insert token tx }

def gone : String := "transaction no longer exists"

def State.transaction (state : State) (token : Token) : Except String Transaction :=
  match state.transactions.get token with
  | some tx => .ok tx
  | none => .error gone

/-! ### Versions a snapshot sees -/

def Version.visibleAt (version : Version) (csn : Nat) : Bool :=
  version.begin ≤ csn && version.end_.all (csn < ·)

/-- The version of a chain that a snapshot sees. -/
def chainAt (chain : List Version) (csn : Nat) : Option Version :=
  chain.reverse.find? (·.visibleAt csn)

/-- Row order of a table; the row id decides between equal places. -/
def inOrder (first second : Nat × Version) : Prop :=
  first.2.order < second.2.order ∨ first.2.order = second.2.order ∧ first.1 ≤ second.1

instance : DecidableRel inOrder := fun first second =>
  inferInstanceAs (Decidable (first.2.order < second.2.order ∨ _))

def visible (history : History) (csn : Nat) : List (Nat × Version) :=
  (history.rows.filterMap fun _ chain => chainAt chain csn).entries.insertionSort inOrder

def visibleRows (history : History) (csn : Nat) : List Row :=
  (visible history csn).map (·.2.row)

/-! ### Row identities -/

/-- Nearest integer of a quotient, to even from halfway. -/
def halfEven (numerator denominator : Nat) : Nat :=
  let quotient := numerator / denominator
  let rest := 2 * (numerator % denominator)
  if rest < denominator ∨ rest = denominator ∧ quotient % 2 = 0 then quotient else quotient + 1

/-- Bits of the double nearest to a value. -/
def floatBits (value : Rat) : Nat :=
  let magnitude := value.num.natAbs
  if magnitude = 0 then 0
  else
    let guess : Int := (Nat.log2 magnitude : Int) - Nat.log2 value.den
    let reached := magnitude * 2 ^ (-guess).toNat ≥ value.den * 2 ^ guess.toNat
    let exponent := max (if reached then guess else guess - 1) (-1022)
    let mantissa := halfEven (magnitude * 2 ^ (52 - exponent).toNat)
      (value.den * 2 ^ (exponent - 52).toNat)
    (if value.num < 0 then 2 ^ 63 else 0) + (exponent + 1022).toNat * 2 ^ 52 + mantissa

def numberBits : Number → Nat
  | .int value => floatBits value
  | .float value => floatBits value

/-- The bytes by which a row is identified in a column; null and values that are no
scalars have none. -/
def uniqueKey (row : Row) (column : String) : Option Bytes :=
  match row.get column with
  | none | some .null => none
  | some value =>
      match rowKey row column with
      | some key => some key
      | none =>
          match value with
          | .bool flag => some [98, if flag then 1 else 0]
          | .number number => some (102 :: bigEndian 8 (numberBits number))
          | _ => none

/-- Keyed rows with their positions, in row order. The queue of a key is the part
that carries the key. -/
def keyPositions (rows : List Row) : List (Bytes × Nat) :=
  rows.zipIdx.filterMap fun entry => (uniqueKey entry.1 "id").map fun key => (key, entry.2)

def popFront (key : Bytes) : List (Bytes × Nat) → Option (Nat × List (Bytes × Nat))
  | [] => none
  | (other, position) :: rest =>
      if other = key then some (position, rest)
      else (popFront key rest).map fun popped => (popped.1, (other, position) :: popped.2)

/-- Positions not yet handed out, and row ids already taken. -/
structure Matcher where
  positions : List (Bytes × Nat)
  used : List Nat

def Matcher.start (old : List (Nat × Version)) : Matcher :=
  ⟨keyPositions (old.map (·.2.row)), []⟩

/-- The earlier version a row continues: by key, without a key by equal values. -/
def Matcher.prior (matcher : Matcher) (old : List (Nat × Version)) (row : Row) :
    Option (Nat × Version) × Matcher :=
  let (found, positions) :=
    match uniqueKey row "id" with
    | some key =>
        match popFront key matcher.positions with
        | some (position, rest) => (old[position]?, rest)
        | none => (none, matcher.positions)
    | none =>
        (old.find? fun entry => entry.1 ∉ matcher.used ∧ entry.2.row = row, matcher.positions)
  match found with
  | some (id, version) => (some (id, version), ⟨positions, id :: matcher.used⟩)
  | none => (none, ⟨positions, matcher.used⟩)

structure Change where
  table : Nat
  wanted : List (Option Nat × Row)
  removed : List Nat
deriving DecidableEq

/-- First pass over the wanted rows: each takes the identity of its earlier version. -/
def assign (old : List (Nat × Version)) : Matcher → List Row → List (Option Nat × Row) × Matcher
  | matcher, [] => ([], matcher)
  | matcher, row :: rest =>
      let (found, matcher) := matcher.prior old row
      let (wanted, matcher) := assign old matcher rest
      ((found.map (·.1), row) :: wanted, matcher)

/-- Second pass: rows without a key take the identities that are left, in row order. -/
def pairLeft : (wanted : List (Option Nat × Row)) → (unmatched : List Nat) → List (Option Nat × Row)
  | [], _ => []
  | (some id, row) :: rest, unmatched => (some id, row) :: pairLeft rest unmatched
  | (none, row) :: rest, unmatched =>
      match uniqueKey row "id", unmatched with
      | none, id :: unmatched => (some id, row) :: pairLeft rest unmatched
      | _, unmatched => (none, row) :: pairLeft rest unmatched

/-- Map the final rows of a table to the row ids of the snapshot. -/
def changeOf (table : Nat) (old : List (Nat × Version)) (rows : List Row) : Change :=
  let (wanted, matcher) := assign old (.start old) rows
  let unmatched := (old.filter fun entry =>
    entry.1 ∉ matcher.used ∧ uniqueKey entry.2.row "id" = none).map (·.1)
  let wanted := pairLeft wanted unmatched
  let retained := wanted.filterMap (·.1)
  ⟨table, wanted, (old.map (·.1)).filter (· ∉ retained)⟩

/-- Remove the first row of each listed id. -/
def deleteIds : (ids : List Int) → List Row → List Row
  | _, [] => []
  | ids, row :: rest =>
      match rowInt row "id" with
      | some id => if id ∈ ids then deleteIds (ids.filter (· ≠ id)) rest else row :: deleteIds ids rest
      | none => row :: deleteIds ids rest

def StorageOp.applyRows (op : StorageOp) (rows : List Row) : List Row :=
  match op with
  | replace _ incoming => incoming
  | upsert _ incoming => rows ++ incoming
  | delete _ ids => deleteIds ids rows

def Transaction.schemaOf (tx : Transaction) (name : String) : Option TableSchemaWire :=
  tx.schemas.find? fun schema => schema.table = name

def tableRemoved : String := "serialization_failure: transaction table removed"

/-- Rows of the edited tables after an operation on the snapshot's rows. -/
def editRows (durable : Durable) (tx : Transaction) (edited : SortedMap Nat (List Row))
    (op : StorageOp) : Except String (SortedMap Nat (List Row)) :=
  match tx.schemaOf op.table with
  | none => .error "unknown transaction table"
  | some schema =>
      match durable.tables.get schema.objectId with
      | none => .error tableRemoved
      | some history =>
          let rows := (edited.get schema.objectId).getD (visibleRows history tx.snapshot)
          .ok (edited.insert schema.objectId (op.applyRows rows))

/-- The table of an edited entry, which `editRows` has looked up before. -/
def historyOf (durable : Durable) (table : Nat) : Except String History :=
  match durable.tables.get table with
  | some history => .ok history
  | none => .error tableRemoved

/-- Changes of the operations to the snapshot, one for each edited table. -/
def plans (state : State) (token : Token) (ops : List StorageOp) : Except String (List Change) := do
  let tx ← state.transaction token
  let edited ← ops.foldlM (editRows state.durable tx) .empty
  edited.entries.mapM fun entry => do
    let history ← historyOf state.durable entry.1
    pure (changeOf entry.1 (visible history tx.snapshot) entry.2)

/-! ### Merging a plan into the latest rows -/

/-- Row ids the plan removes or gives new values, and the rows it adds in their place. -/
def Change.edits (change : Change) (base : List (Nat × Version)) : List Nat × List Row :=
  let altered := change.wanted.filter fun wanted =>
    match wanted.1 with
    | none => true
    | some id => (base.find? fun entry => entry.1 = id).all fun entry => entry.2.row ≠ wanted.2
  (change.removed ++ altered.filterMap (·.1), altered.map (·.2))

/-- Operations that take the latest rows to the merged ones. -/
def mergeChange (state : State) (tx : Transaction) (change : Change) :
    Except String (List StorageOp) := do
  let history ← historyOf state.durable change.table
  let (removed, appended) := change.edits (visible history tx.snapshot)
  if removed = [] ∧ appended = [] then pure []
  else
    let latest := (visible history state.durable.csn).map fun entry => (entry.1, entry.2.row)
    let victims := (latest.filter fun entry => entry.1 ∈ removed).map (·.2)
    let current := latest.filter fun entry => entry.1 ∉ removed
    let name := history.schema.table
    let whole := [StorageOp.replace name (current.map (·.2) ++ appended)]
    match victims.mapM fun row => rowInt row "id" with
    | none => pure whole
    | some ids =>
        if ids.Nodup ∧ ∀ entry ∈ current, ∀ id, rowInt entry.2 "id" = some id → id ∉ ids then
          pure ((if ids = [] then [] else [.delete name ids]) ++
            if appended = [] then [] else [.upsert name appended])
        else pure whole

def mergedOps (state : State) (token : Token) : Except String (List StorageOp) := do
  let tx ← state.transaction token
  let changes ← plans state token tx.plan
  let merged ← changes.mapM (mergeChange state tx)
  pure merged.flatten

/-! ### Checks before an effect -/

def changedObject : String := "serialization_failure: transaction object changed"
def changedSchema : String := "serialization_failure: transaction schema changed"
def removedRow : String := "serialization_failure: row was removed"
def changedVersion : String := "serialization_failure: row version changed"
def changedTable : String := "serialization_failure: table changed"
def changedRead : String := "serialization_failure: serializable read changed"

/-- The last version of a chain, if it has not ended. -/
def latest (chain : List Version) : Option Version :=
  chain.getLast?.filter fun version => version.end_ = none

/-- What an exclusive lock promises: object and schema as at the start, and the row
or table unchanged since the snapshot. -/
def validateKey (durable : Durable) (tx : Transaction) (key : Key) : Except String Unit :=
  match tx.schemas.find? fun schema => schema.objectId = key.tableId with
  | none => .error "transaction schema missing"
  | some expected =>
      match durable.tables.get key.tableId with
      | none => .error changedObject
      | some current =>
          if current.live = false ∨ current.schema.schemaVersion ≠ expected.schemaVersion ∨
              current.schema.columns ≠ expected.columns then .error changedSchema
          else
            match key with
            | .row _ id =>
                match current.rows.get id with
                | none => .error removedRow
                | some chain =>
                    if (chainAt chain tx.snapshot).map (·.valueBegin) ≠
                        (latest chain).map (·.valueBegin) then .error changedVersion
                    else .ok ()
            | .table _ => if current.changed > tx.snapshot then .error changedTable else .ok ()
            | .unique .. => .ok ()

def validateRead (durable : Durable) (tx : Transaction) (id : Nat) : Except String Unit :=
  if (durable.tables.get id).all fun table => !table.live || table.changed > tx.snapshot then
    .error changedRead
  else .ok ()

def validate (state : State) (token : Token) (writes : Bool) : Except String Unit := do
  let tx ← state.transaction token
  match tx.aborted with
  | some error => .error error
  | none =>
      (tx.held.entries.filter (·.2)).forM fun entry => validateKey state.durable tx entry.1
      if writes ∧ tx.serializable then
        tx.reads.forM fun id => validateRead state.durable tx id

/-! ### Transactions -/

abbrev TableRows := List (String × List Row)

/-- Rows a new transaction is given for a table; a table not selected comes without rows. -/
def readOut (durable : Durable) (selected : Option (List String)) (schema : TableSchemaWire) :
    Except String (String × List Row) :=
  match durable.tables.get schema.objectId with
  | none => .error "MVCC schema is not synchronized"
  | some history =>
      .ok (schema.table,
        if selected.all (schema.table ∈ ·) then visibleRows history durable.csn else [])

/-- Start a transaction on the current commit point. -/
def beginSelected (state : State) (schemas : List TableSchemaWire) (serializable : Bool)
    (selected : Option (List String)) : State × Except String (Token × TableRows × Nat) :=
  if state.nextTransaction + 1 ≥ 2 ^ 64 then (state, .error "transaction id exhausted")
  else
    let token := state.nextTransaction + 1
    let snapshot := state.durable.csn
    let counted := { state with nextTransaction := token }
    match schemas.mapM (readOut state.durable selected) with
    | .error error => (counted, .error error)
    | .ok rows =>
        let tx : Transaction := ⟨snapshot, schemas, serializable, [], .empty, [], none, []⟩
        (counted.setTransaction token tx, .ok (token, rows, snapshot))

/-- Columns of a row that a reader asked for, each once. -/
def projectRow (row : Row) (columns : Option (List String)) : Row :=
  match columns with
  | none => row
  | some columns => row.filter (· ∈ columns)

def readTable (state : State) (tx : Transaction) (columns : String → Option (List String))
    (name : String) : Except String (TableSchemaWire × String × List Row) :=
  match tx.schemaOf name with
  | none => .error "unknown transaction read table"
  | some schema =>
      match state.durable.tables.get schema.objectId with
      | none => .error "transaction history missing"
      | some history =>
          .ok (schema, name, (visibleRows history tx.snapshot).map fun row =>
            projectRow row (columns name))

/-- Read tables from the transaction's own snapshot. -/
def read (state : State) (token : Token) (names : List String)
    (columns : String → Option (List String)) :
    Except String (List TableSchemaWire × TableRows) := do
  validate state token false
  let tx ← state.transaction token
  let tables ← names.mapM (readTable state tx columns)
  pure (tables.map (·.1), tables.map (·.2))

def commitOps (state : State) (token : Token) : Except String (List StorageOp) := do
  let tx ← state.transaction token
  validate state token (tx.plan ≠ [])
  mergedOps state token

/-- Every written table must be locked. -/
def validateCommit (state : State) (token : Token) (ops : List StorageOp) : Except String Unit := do
  validate state token (ops ≠ [])
  let tx ← state.transaction token
  ops.forM fun op =>
    match tx.schemaOf op.table with
    | none => .error "unknown transaction table"
    | some schema =>
        if tx.held.get (.table schema.objectId) = none then .error "transaction write has no locks"
        else .ok ()

def Transaction.forget (tx : Transaction) (token : Token) : Transaction :=
  { tx with waiting := tx.waiting.filter (· ≠ token) }

/-- Drop a token from the waiting set of every transaction. -/
def State.forget (state : State) (token : Token) : State :=
  { state with transactions := state.transactions.mapValues fun _ tx => tx.forget token }

def Transaction.release (tx : Transaction) (error : String) : Transaction :=
  { tx with aborted := some error, held := .empty, waiting := [] }

/-- Abort a transaction: its locks and waiting edges go. -/
def abort (state : State) (token : Token) (error : String) : State :=
  match state.transactions.get token with
  | none => state.forget token
  | some tx => (state.setTransaction token (tx.release error)).forget token

/-- Commit point of the oldest live snapshot. -/
def oldestSnapshot (state : State) : Option Nat :=
  ((state.transactions.values.filter fun tx => tx.aborted = none).map (·.snapshot)).min?

/-- Versions of a table that end above a commit point. -/
def pruneRows (oldest : Nat) (rows : SortedMap Nat (List Version)) : SortedMap Nat (List Version) :=
  (rows.mapValues fun _ chain => chain.filter fun version => version.end_.all (oldest < ·)).retain
    fun _ chain => chain ≠ []

def History.prune (oldest : Nat) (history : History) : History :=
  { history with rows := pruneRows oldest history.rows }

/-- Whether a retired table still holds versions, or is live. -/
def History.needed (history : History) : Bool := history.live || history.rows.entries ≠ []

def pruneDurable (oldest : Nat) (durable : Durable) : Durable :=
  { durable with
    tables := (durable.tables.mapValues fun _ history => history.prune oldest).retain
      fun _ history => history.needed }

/-- Drop what the oldest live snapshot no longer sees. -/
def prune (state : State) : State :=
  { state with
    durable := pruneDurable ((oldestSnapshot state).getD state.durable.csn) state.durable }

/-- End a transaction: its locks, its edges and its hold on old versions go. -/
def finish (state : State) (token : Token) : State :=
  (prune { state with transactions := state.transactions.erase token }).forget token

def failAll (state : State) : State :=
  state.transactions.keys.foldl (fun state token => abort state token "storage recovery required") state

end ChuSQL.Storage.Mvcc
