import ChuSQL.Storage.Wal.Op

/-! Every frame body that the log writes is decoded to the LSN and the operation
it was written for. -/

set_option autoImplicit false

namespace ChuSQL.Storage

open Library.Framing (littleEndian ofLittleEndian)

namespace WalOp

def VersionSized (version : Option Nat) : Prop := ∀ value ∈ version, value < 2 ^ 64

instance (version : Option Nat) : Decidable (VersionSized version) :=
  inferInstanceAs (Decidable (∀ value ∈ version, value < 2 ^ 64))

def ColumnsShown (columns : List SchemaColumn) : Prop :=
  ∀ column ∈ columns, column.default ≠ some .null

instance (columns : List SchemaColumn) : Decidable (ColumnsShown columns) :=
  inferInstanceAs (Decidable (∀ column ∈ columns, column.default ≠ some .null))

/-- Numbers fit the types of their fields, defaults are not JSON null, and the
generations of a migration pass its own check. -/
def Valid : WalOp → Prop
  | migrate _ objectId source target => objectId < 2 ^ 64 ∧ validGeneration source ∧
      ¬target.isEmpty ∧ validGeneration target
  | accounts records _ _ => ∀ account ∈ records, account.Sized
  | deleteKeys _ keys => ∀ key ∈ keys, -2 ^ 63 ≤ key ∧ key < 2 ^ 63
  | hideColumn _ _ version | dropColumn _ _ version _ => VersionSized version
  | replaceSchema _ columns version _ => VersionSized version ∧ ColumnsShown columns
  | createTable _ columns objectId => VersionSized objectId ∧ ColumnsShown columns
  | compact .. | insert .. | insertBatch .. | replaceAll .. | dropTable _ | createIndex ..
  | dropIndex .. | commit => True

instance : (op : WalOp) → Decidable op.Valid
  | migrate _ objectId source target => inferInstanceAs (Decidable (objectId < 2 ^ 64 ∧
      validGeneration source ∧ ¬target.isEmpty ∧ validGeneration target))
  | accounts records _ _ => inferInstanceAs (Decidable (∀ account ∈ records, account.Sized))
  | deleteKeys _ keys => inferInstanceAs (Decidable (∀ key ∈ keys, -2 ^ 63 ≤ key ∧ key < 2 ^ 63))
  | hideColumn _ _ version | dropColumn _ _ version _ =>
      inferInstanceAs (Decidable (VersionSized version))
  | replaceSchema _ columns version _ =>
      inferInstanceAs (Decidable (VersionSized version ∧ ColumnsShown columns))
  | createTable _ columns objectId =>
      inferInstanceAs (Decidable (VersionSized objectId ∧ ColumnsShown columns))
  | compact .. | insert .. | insertBatch .. | replaceAll .. | dropTable _ | createIndex ..
  | dropIndex .. | commit => .isTrue trivial

/-- An operation the log can carry: its table name and its body fit their length
fields and the JSON library reads back its payload. -/
structure Writable (serde : Serde) (op : WalOp) : Prop where
  valid : op.Valid
  faithful : ∀ value ∈ op.payloadJson, serde.Faithful value
  table : (utf8 op.frameTable).length < 2 ^ 16
  body : ∀ lsn, (op.encodeBody serde lsn).length < 2 ^ 32

section Read

variable {serde : Serde} {what : String}

theorem readRows_rowsJson (rows : List Row) : readRows (rowsJson rows) = some rows :=
  Json.asList_map fun _ _ => Row.ofJson_toJson _

theorem readColumns_toJson {columns : List SchemaColumn} (shown : ColumnsShown columns) :
    readColumns (.array (columns.map SchemaColumn.toJson)) = some columns :=
  Json.asList_map fun column member => SchemaColumn.ofJson_toJson (shown column member)

theorem readVersion_versionJson {version : Option Nat} (sized : VersionSized version) :
    readVersion (some (versionJson version)) = some version := by
  rw [readVersion, versionJson]
  exact Json.optionField_ofOption (fun value isValue => Json.asU64_ofNat (sized value isValue))
    (fun _ => nofun)

variable (what) in
theorem readPayload_written {α : Type} {read : Json → Option α} {value : Json} {result : α}
    (faithful : serde.Faithful value) (reads : read value = some result) :
    readPayload serde what read (serde.toVec value) = .ok result := by
  rw [Serde.Faithful] at faithful
  simp only [readPayload, faithful, reads]

theorem readMigrate_written {table source target : String} {objectId : Nat}
    (sized : objectId < 2 ^ 64) :
    readMigrate (.object [("Migrate", .object [("object_id", .ofNat objectId),
      ("source", .string source), ("table", .string table), ("target", .string target)])]) =
      some (table, objectId, source, target) := by
  have id := Json.asU64_ofNat sized
  simp only [readMigrate, Json.asObject]
  simp [List.lookup, Json.requiredField_some, id]

theorem readHideColumn_written {column : String} {version : Option Nat}
    (sized : VersionSized version) :
    readHideColumn (.object [("column", .string column),
      ("schema_version", versionJson version)]) = some (column, version) := by
  have read := readVersion_versionJson sized
  simp only [readHideColumn, Json.asObject]
  simp [List.lookup, Json.requiredField_some, read]

theorem readDropColumn_written {column : String} {version : Option Nat} {rows : List Row}
    (sized : VersionSized version) :
    readDropColumn (.object [("column", .string column), ("rows", rowsJson rows),
      ("schema_version", versionJson version)]) = some (column, version, rows) := by
  have read := readVersion_versionJson sized
  have records := readRows_rowsJson rows
  simp only [readDropColumn, Json.asObject]
  simp [List.lookup, Json.requiredField_some, read, records]

theorem readReplaceSchema_written {columns : List SchemaColumn} {version : Option Nat}
    {rows : List Row} (sized : VersionSized version) (shown : ColumnsShown columns) :
    readReplaceSchema (.object [("columns", .array (columns.map SchemaColumn.toJson)),
      ("rows", rowsJson rows), ("schema_version", versionJson version)]) =
      some (columns, version, rows) := by
  have read := readVersion_versionJson sized
  have records := readRows_rowsJson rows
  have schema := readColumns_toJson shown
  simp only [readReplaceSchema, Json.asObject]
  simp [List.lookup, Json.requiredField_some, read, records, schema]

theorem readCreateTable_written {columns : List SchemaColumn} {objectId : Option Nat}
    (sized : VersionSized objectId) (shown : ColumnsShown columns) :
    readCreateTable (.object [("columns", .array (columns.map SchemaColumn.toJson)),
      ("object_id", versionJson objectId)]) = some (columns, objectId) := by
  have read := readVersion_versionJson sized
  have schema := readColumns_toJson shown
  simp only [readCreateTable, Json.asObject]
  simp [List.lookup, Json.requiredField_some, read, schema]

theorem decodeAccounts_written {records : List Account} {removed : List String}
    {migrateRoles : Bool} (sized : ∀ account ∈ records, account.Sized)
    (faithful : ∀ value ∈ (accounts records removed migrateRoles).payloadJson,
      serde.Faithful value) :
    decodeAccounts serde ((accounts records removed migrateRoles).payload serde) =
      .ok (accounts records removed migrateRoles) := by
  have stored : serde.fromSlice (serde.toVec _) = .ok _ := faithful _ rfl
  have read := Json.asList_map
    fun account member => Account.ofJson_toJson (sized account member)
  have names : Json.asList Json.asString (.array (removed.map .string)) = some removed :=
    Json.asList_map fun _ _ => rfl
  simp only [decodeAccounts, payload, payloadJson, stored]
  simp [Json.asObject, List.lookup, readPart, read, names, bind, Except.bind]

theorem decodeMigrate_written {table source target : String} {objectId : Nat}
    (valid : (migrate table objectId source target).Valid)
    (faithful : ∀ value ∈ (migrate table objectId source target).payloadJson,
      serde.Faithful value) :
    decodeMigrate serde table ((migrate table objectId source target).payload serde) =
      .ok (migrate table objectId source target) := by
  obtain ⟨sized, source, nonempty, target⟩ := valid
  have read := readPayload_written "migration" (faithful _ rfl)
    (readMigrate_written sized)
  simp [decodeMigrate, payload, payloadJson, read, bind, Except.bind, source, nonempty, target]

/-- Payloads are decoded under their own operation code. -/
theorem decodeOp_written {op : WalOp} (valid : op.Valid)
    (faithful : ∀ value ∈ op.payloadJson, serde.Faithful value) :
    decodeOp serde op.opType op.frameTable (op.payload serde) = .ok op := by
  cases op with
  | migrate table objectId source target => exact decodeMigrate_written valid faithful
  | accounts records removed migrateRoles => exact decodeAccounts_written valid faithful
  | hideColumn table column version =>
      have read := readPayload_written "hide_column" (faithful _ rfl)
        (readHideColumn_written valid)
      exact congrArg (Except.map _) read
  | compact table rows =>
      have read := readPayload_written "compact" (faithful _ rfl) (readRows_rowsJson rows)
      exact congrArg (Except.map _) read
  | insert table row =>
      have read := readPayload_written "insert" (faithful _ rfl) (Row.ofJson_toJson row)
      exact congrArg (Except.map _) read
  | insertBatch table rows =>
      have read := readPayload_written "insert_batch" (faithful _ rfl)
        (readRows_rowsJson rows)
      exact congrArg (Except.map _) read
  | deleteKeys table keys =>
      have read := readPayload_written "delete_keys" (faithful _ rfl)
        (Json.asList_map fun key member => Json.asInt64_ofInt (valid key member).1 (valid key member).2)
      exact congrArg (Except.map _) read
  | replaceAll table rows =>
      have read := readPayload_written "replace_all" (faithful _ rfl)
        (readRows_rowsJson rows)
      exact congrArg (Except.map _) read
  | dropColumn table column version rows =>
      have read := readPayload_written "drop_column" (faithful _ rfl)
        (readDropColumn_written valid)
      exact congrArg (Except.map _) read
  | replaceSchema table columns version rows =>
      have read := readPayload_written "replace_schema" (faithful _ rfl)
        (readReplaceSchema_written valid.1 valid.2)
      exact congrArg (Except.map _) read
  | createTable table columns objectId =>
      have read := readPayload_written "create_table" (faithful _ rfl)
        (readCreateTable_written valid.1 valid.2)
      exact congrArg (Except.map _) read
  | dropTable table => rfl
  | createIndex table column =>
      have read := readPayload_written "create_index" (faithful _ rfl)
        (Json.asString_string column)
      exact congrArg (Except.map _) read
  | dropIndex table column =>
      have read := readPayload_written "drop_index" (faithful _ rfl)
        (Json.asString_string column)
      exact congrArg (Except.map _) read
  | commit => rfl

end Read

theorem fromUtf8_utf8 (text : String) : fromUtf8 (utf8 text) = some text := by
  have bytes : (utf8 text).map (fun byte => UInt8.ofNat byte.val) = text.toUTF8.data.toList := by
    simp only [utf8, List.map_map]
    refine (List.map_congr_left fun byte _ => ?_).trans (List.map_id _)
    have small := byte.toNat_lt
    simp [Fin.ofNat]
  have array : (⟨((utf8 text).map fun byte => UInt8.ofNat byte.val).toArray⟩ : ByteArray) =
      text.toByteArray := by
    rw [bytes]; simp
  rw [fromUtf8, array, String.fromUTF8?, dif_pos text.isValidUTF8]
  rfl

theorem encodeBody_length (serde : Serde) (lsn : Nat) (op : WalOp) :
    (op.encodeBody serde lsn).length =
      11 + (utf8 op.frameTable).length + (op.payload serde).length := by
  simp [encodeBody]; omega

theorem decodeBody_encodeBody {serde : Serde} {lsn : Nat} {op : WalOp} (small : lsn < 2 ^ 64)
    (writable : op.Writable serde) :
    decodeBody serde (op.encodeBody serde lsn) = .ok (lsn, op) := by
  have length := encodeBody_length serde lsn op
  have decoded := decodeOp_written writable.valid writable.faithful
  have lsnRead : ofLittleEndian ((op.encodeBody serde lsn).take 8) = lsn := by
    rw [encodeBody, List.take_left' (Library.Framing.littleEndian_length 8 lsn)]
    exact Library.Framing.ofLittleEndian_littleEndian (by simpa using small)
  have typeRead : (op.encodeBody serde lsn).getD 8 0 = op.opType := by
    rw [encodeBody, List.getD_eq_getElem?_getD, List.getElem?_append_right (by simp)]
    simp
  have afterType : (op.encodeBody serde lsn).drop 9 = littleEndian 2 (utf8 op.frameTable).length ++
      (utf8 op.frameTable ++ op.payload serde) := by
    rw [encodeBody, List.drop_append, List.drop_eq_nil_of_le (by simp)]
    simp
  have lengthRead : ofLittleEndian (((op.encodeBody serde lsn).drop 9).take 2) =
      (utf8 op.frameTable).length := by
    rw [afterType, List.take_left' (Library.Framing.littleEndian_length 2 _)]
    exact Library.Framing.ofLittleEndian_littleEndian (by simpa using writable.table)
  have afterLength : (op.encodeBody serde lsn).drop 11 =
      utf8 op.frameTable ++ op.payload serde := by
    rw [show 11 = 9 + 2 from rfl, ← List.drop_drop, afterType,
      List.drop_left' (Library.Framing.littleEndian_length 2 _)]
  have tableRead : ((op.encodeBody serde lsn).drop 11).take (utf8 op.frameTable).length =
      utf8 op.frameTable := by
    rw [afterLength, List.take_left]
  have payloadRead : (op.encodeBody serde lsn).drop (11 + (utf8 op.frameTable).length) =
      op.payload serde := by
    rw [← List.drop_drop, afterLength, List.drop_left]
  simp only [decodeBody, lengthRead, tableRead, payloadRead, lsnRead, typeRead, fromUtf8_utf8,
    decoded]
  rw [if_neg (by omega), if_neg (by omega)]
  rfl

end WalOp

end ChuSQL.Storage
