import ChuSQL.Storage.Protocol

/-! Operations of the write-ahead log and the bodies of their frames: the LSN, an
operation code, the table name behind its length, and a payload. -/

set_option autoImplicit false

namespace ChuSQL.Storage

open Library.Framing (littleEndian ofLittleEndian)

inductive WalOp where
  | migrate (table : String) (objectId : Nat) (source target : String)
  | hideColumn (table column : String) (schemaVersion : Option Nat)
  | compact (table : String) (rows : List Row)
  | accounts (accounts : List Account) (removed : List String) (migrateRoles : Bool)
  | insert (table : String) (row : Row)
  | insertBatch (table : String) (rows : List Row)
  | deleteKeys (table : String) (keys : List Int)
  | replaceAll (table : String) (rows : List Row)
  | dropColumn (table column : String) (schemaVersion : Option Nat) (rows : List Row)
  | replaceSchema (table : String) (columns : List SchemaColumn) (schemaVersion : Option Nat)
      (rows : List Row)
  | createTable (table : String) (columns : List SchemaColumn) (objectId : Option Nat)
  | dropTable (table : String)
  | createIndex (table column : String)
  | dropIndex (table column : String)
  | commit
deriving DecidableEq

namespace WalOp

/-- The target of an operation on one table. -/
def table : WalOp → Option String
  | migrate table .. | hideColumn table .. | compact table _ | insert table _
  | insertBatch table _ | deleteKeys table _ | replaceAll table _ | dropColumn table ..
  | replaceSchema table .. | createTable table .. | dropTable table | createIndex table _
  | dropIndex table _ => some table
  | accounts .. | commit => none

def opType : WalOp → Fin 256
  | insert .. => 1
  | replaceAll .. => 2
  | insertBatch .. => 3
  | deleteKeys .. => 4
  | dropColumn .. => 5
  | accounts .. => 6
  | replaceSchema .. => 7
  | hideColumn .. => 8
  | compact .. => 9
  | commit => 10
  | createTable .. => 11
  | dropTable .. => 12
  | createIndex .. => 13
  | dropIndex .. => 14
  | migrate .. => 15

/-- The table name written into the frame. -/
def frameTable : WalOp → String
  | accounts .. => usersTable
  | commit => ""
  | op => op.table.getD ""

def rowsJson (rows : List Row) : Json := .array (rows.map Row.toJson)
def versionJson : Option Nat → Json := .ofOption .ofNat

/-- The JSON payload of an operation; two kinds have none. -/
def payloadJson : WalOp → Option Json
  | migrate table objectId source target => some (.object [("Migrate", .object [
      ("object_id", .ofNat objectId), ("source", .string source), ("table", .string table),
      ("target", .string target)])])
  | hideColumn _ column schemaVersion =>
      some (.object [("column", .string column), ("schema_version", versionJson schemaVersion)])
  | compact _ rows | insertBatch _ rows | replaceAll _ rows => some (rowsJson rows)
  | accounts records removed migrateRoles => some (.object [
      ("accounts", .array (records.map Account.toJson)),
      ("migrate_roles", .bool migrateRoles),
      ("removed", .array (removed.map .string))])
  | insert _ row => some row.toJson
  | deleteKeys _ keys => some (.array (keys.map .ofInt))
  | dropColumn _ column schemaVersion rows => some (.object [("column", .string column),
      ("rows", rowsJson rows), ("schema_version", versionJson schemaVersion)])
  | replaceSchema _ columns schemaVersion rows => some (.object [
      ("columns", .array (columns.map SchemaColumn.toJson)),
      ("rows", rowsJson rows), ("schema_version", versionJson schemaVersion)])
  | createTable _ columns objectId => some (.object [
      ("columns", .array (columns.map SchemaColumn.toJson)), ("object_id", versionJson objectId)])
  | createIndex _ column | dropIndex _ column => some (.string column)
  | dropTable _ | commit => none

def payload (serde : Serde) (op : WalOp) : Bytes :=
  match op.payloadJson with
  | some value => serde.toVec value
  | none => []

/-- The body of an operation's frame. -/
def encodeBody (serde : Serde) (lsn : Nat) (op : WalOp) : Bytes :=
  let tableBytes := utf8 op.frameTable
  littleEndian 8 lsn ++ op.opType :: (littleEndian 2 tableBytes.length ++
    (tableBytes ++ op.payload serde))

/-! ### Decoding -/

section Decode

variable (serde : Serde)

/-- A payload of a known shape. -/
def readPayload {α : Type} (what : String) (read : Json → Option α) (payload : Bytes) :
    Except String α :=
  match serde.fromSlice payload with
  | .error error => .error (s!"bad {what} payload: " ++ error)
  | .ok value =>
      match read value with
      | some result => .ok result
      | none => .error (s!"bad {what} payload: " ++ serde.mismatch value)

def readRows : Json → Option (List Row) := Json.asList Row.ofJson
def readColumns : Json → Option (List SchemaColumn) := Json.asList SchemaColumn.ofJson
def readVersion : Option Json → Option (Option Nat) := Json.optionField Json.asU64

/-- An empty generation, or one of 32 hexadecimal digits. -/
def validGeneration (value : String) : Bool :=
  value.isEmpty || (value.utf8ByteSize == 32 &&
    value.toList.all fun c => c.isDigit || ('a' ≤ c && c ≤ 'f') || ('A' ≤ c && c ≤ 'F'))

def readMigrate (value : Json) : Option (String × Nat × String × String) := do
  let fields ← value.asObject
  let inner ← fields.lookup "Migrate"
  let fields ← inner.asObject
  let table ← Json.requiredField Json.asString (fields.lookup "table")
  let objectId ← Json.requiredField Json.asU64 (fields.lookup "object_id")
  let source ← Json.requiredField Json.asString (fields.lookup "source")
  let target ← Json.requiredField Json.asString (fields.lookup "target")
  some (table, objectId, source, target)

/-- A bare text is the older form, without a schema version. -/
def readHideColumn (value : Json) : Option (String × Option Nat) :=
  match value with
  | .string column => some (column, none)
  | value => do
      let fields ← value.asObject
      let column ← Json.requiredField Json.asString (fields.lookup "column")
      let schemaVersion ← readVersion (fields.lookup "schema_version")
      some (column, schemaVersion)

def readDropColumn (value : Json) : Option (String × Option Nat × List Row) := do
  let fields ← value.asObject
  let column ← Json.requiredField Json.asString (fields.lookup "column")
  let schemaVersion ← readVersion (fields.lookup "schema_version")
  let rows ← Json.requiredField readRows (fields.lookup "rows")
  some (column, schemaVersion, rows)

def readReplaceSchema (value : Json) : Option (List SchemaColumn × Option Nat × List Row) := do
  let fields ← value.asObject
  let columns ← Json.requiredField readColumns (fields.lookup "columns")
  let schemaVersion ← readVersion (fields.lookup "schema_version")
  let rows ← Json.requiredField readRows (fields.lookup "rows")
  some (columns, schemaVersion, rows)

def readCreateTable (value : Json) : Option (List SchemaColumn × Option Nat) := do
  let fields ← value.asObject
  let columns ← Json.requiredField readColumns (fields.lookup "columns")
  let objectId ← readVersion (fields.lookup "object_id")
  some (columns, objectId)

/-- A part of an account payload. -/
def readPart {α : Type} (what : String) (read : Json → Option α) (value : Json) : Except String α :=
  match read value with
  | some result => .ok result
  | none => .error (what ++ ": " ++ serde.mismatch value)

/-- An array is the older form: accounts only. -/
def decodeAccounts (payload : Bytes) : Except String WalOp :=
  match serde.fromSlice payload with
  | .error error => .error ("bad account payload: " ++ error)
  | .ok value =>
      let readAccounts := readPart serde "bad account payload" (Json.asList Account.ofJson)
      match value with
      | .array _ => do
          let accounts ← readAccounts value
          .ok (.accounts accounts [] false)
      | _ => do
          let fields := value.asObject.getD []
          let accounts ← match fields.lookup "accounts" with
            | some value => readAccounts value
            | none => .error "missing account payload"
          let removed ← match fields.lookup "removed" with
            | some value => readPart serde "bad account cleanup" (Json.asList Json.asString) value
            | none => .error "missing identity cleanup"
          let migrateRoles ← match (fields.lookup "migrate_roles").bind Json.asBool with
            | some flag => .ok flag
            | none => .error "missing role migration flag"
          .ok (.accounts accounts removed migrateRoles)

def decodeMigrate (table : String) (payload : Bytes) : Except String WalOp := do
  let (name, objectId, source, target) ← readPayload serde "migration" readMigrate payload
  if name = table ∧ validGeneration source ∧ ¬target.isEmpty ∧ validGeneration target then
    .ok (.migrate name objectId source target)
  else .error "invalid migration WAL"

def decodeOp (opType : Fin 256) (table : String) (payload : Bytes) : Except String WalOp :=
  match opType.val with
  | 15 => decodeMigrate serde table payload
  | 10 => .ok .commit
  | 8 => do
      let (column, schemaVersion) ← readPayload serde "hide_column" readHideColumn payload
      .ok (.hideColumn table column schemaVersion)
  | 9 => do
      let rows ← readPayload serde "compact" readRows payload
      .ok (.compact table rows)
  | 6 =>
      if table = usersTable then decodeAccounts serde payload
      else .error "invalid account WAL table"
  | 1 => do
      let row ← readPayload serde "insert" Row.ofJson payload
      .ok (.insert table row)
  | 3 => do
      let rows ← readPayload serde "insert_batch" readRows payload
      .ok (.insertBatch table rows)
  | 4 => do
      let keys ← readPayload serde "delete_keys" (Json.asList Json.asInt64) payload
      .ok (.deleteKeys table keys)
  | 2 => do
      let rows ← readPayload serde "replace_all" readRows payload
      .ok (.replaceAll table rows)
  | 5 => do
      let (column, schemaVersion, rows) ← readPayload serde "drop_column" readDropColumn payload
      .ok (.dropColumn table column schemaVersion rows)
  | 7 => do
      let (columns, schemaVersion, rows) ←
        readPayload serde "replace_schema" readReplaceSchema payload
      .ok (.replaceSchema table columns schemaVersion rows)
  | 11 => do
      let (columns, objectId) ← readPayload serde "create_table" readCreateTable payload
      .ok (.createTable table columns objectId)
  | 12 => .ok (.dropTable table)
  | 13 => do
      let column ← readPayload serde "create_index" Json.asString payload
      .ok (.createIndex table column)
  | 14 => do
      let column ← readPayload serde "drop_index" Json.asString payload
      .ok (.dropIndex table column)
  | other => .error s!"unknown op type: {other}"

/-- The text of UTF-8 bytes. -/
def fromUtf8 (bytes : Bytes) : Option String :=
  String.fromUTF8? ⟨(bytes.map fun byte => UInt8.ofNat byte.val).toArray⟩

/-- The LSN and the operation of a frame's body. -/
def decodeBody (body : Bytes) : Except String (Nat × WalOp) :=
  if body.length < 11 then .error "body too short"
  else
    let lsn := ofLittleEndian (body.take 8)
    let opType := body.getD 8 0
    let tableLen := ofLittleEndian ((body.drop 9).take 2)
    if body.length < 11 + tableLen then .error "table name truncated"
    else
      let tableBytes := (body.drop 11).take tableLen
      match fromUtf8 tableBytes with
      | none => .error ("bad utf8 table name: " ++ serde.badUtf8 tableBytes)
      | some table => do
          let op ← decodeOp serde opType table (body.drop (11 + tableLen))
          .ok (lsn, op)

end Decode

end WalOp

end ChuSQL.Storage
