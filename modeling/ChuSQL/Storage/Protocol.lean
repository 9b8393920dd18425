import ChuSQL.Storage.Serde

/-! Records of the storage protocol that the log and the catalog carry. -/

set_option autoImplicit false

namespace ChuSQL.Storage

def usersTable : String := "__system_users"

def validStorageName (name : String) : Bool :=
  !name.isEmpty && name.toList.all fun c => c.isAlphanum || c == '_'

structure SchemaColumn where
  name : String
  type : String
  nullable : Bool
  default : Option Json
  autoIncrement : Bool
  primaryKey : Bool
  unique : Bool
  check : Option String
deriving DecidableEq

namespace SchemaColumn

def toJson (column : SchemaColumn) : Json := .object [
  ("auto_increment", .bool column.autoIncrement),
  ("check", .ofOption .string column.check),
  ("default", .ofOption id column.default),
  ("name", .string column.name),
  ("nullable", .bool column.nullable),
  ("primary_key", .bool column.primaryKey),
  ("ty", .string column.type),
  ("unique", .bool column.unique)]

def ofJson (value : Json) : Option SchemaColumn := do
  let fields ← value.asObject
  let name ← Json.requiredField Json.asString (fields.lookup "name")
  let type ← Json.requiredField Json.asString (fields.lookup "ty")
  let nullable ← Json.defaultField Json.asBool true (fields.lookup "nullable")
  let default ← Json.optionField some (fields.lookup "default")
  let autoIncrement ← Json.defaultField Json.asBool false (fields.lookup "auto_increment")
  let primaryKey ← Json.defaultField Json.asBool false (fields.lookup "primary_key")
  let unique ← Json.defaultField Json.asBool false (fields.lookup "unique")
  let check ← Json.optionField Json.asString (fields.lookup "check")
  some ⟨name, type, nullable, default, autoIncrement, primaryKey, unique, check⟩

/-- A default of JSON null is read back as no default. -/
theorem ofJson_toJson {column : SchemaColumn} (shown : column.default ≠ some .null) :
    ofJson column.toJson = some column := by
  have check : Json.optionField Json.asString (some (.ofOption .string column.check)) =
      some column.check := Json.optionField_ofOption (fun _ _ => rfl) (by simp)
  have default : Json.optionField some (some (.ofOption id column.default)) = some column.default := by
    cases isDefault : column.default with
    | none => rfl
    | some value =>
        cases value with
        | null => exact absurd isDefault shown
        | _ => rfl
  simp [ofJson, toJson, Json.asObject, List.lookup, Json.requiredField_some, Json.defaultField, check,
    default]

end SchemaColumn

structure Account where
  id : Int
  user : String
  passwordHash : String
  revision : Nat
  registeredAt : String
  lastLoginAt : Option String
  canLogin : Bool
  isSuperuser : Bool
  systemCatalogManager : Bool
  enabled : Bool
  identityVersion : Nat
deriving DecidableEq

namespace Account

def toJson (account : Account) : Json := .object [
  ("can_login", .bool account.canLogin),
  ("enabled", .bool account.enabled),
  ("id", .ofInt account.id),
  ("identity_version", .ofNat account.identityVersion),
  ("is_superuser", .bool account.isSuperuser),
  ("last_login_at", .ofOption .string account.lastLoginAt),
  ("password_hash", .string account.passwordHash),
  ("registered_at", .string account.registeredAt),
  ("revision", .ofNat account.revision),
  ("system_catalog_manager", .bool account.systemCatalogManager),
  ("user", .string account.user)]

def ofJson (value : Json) : Option Account := do
  let fields ← value.asObject
  let id ← Json.requiredField Json.asInt64 (fields.lookup "id")
  let user ← Json.requiredField Json.asString (fields.lookup "user")
  let passwordHash ← Json.requiredField Json.asString (fields.lookup "password_hash")
  let revision ← Json.requiredField Json.asU64 (fields.lookup "revision")
  let registeredAt ← Json.defaultField Json.asString "" (fields.lookup "registered_at")
  let lastLoginAt ← Json.optionField Json.asString (fields.lookup "last_login_at")
  let canLogin ← Json.defaultField Json.asBool true (fields.lookup "can_login")
  let isSuperuser ← Json.defaultField Json.asBool false (fields.lookup "is_superuser")
  let systemCatalogManager ←
    Json.defaultField Json.asBool false (fields.lookup "system_catalog_manager")
  let enabled ← Json.defaultField Json.asBool true (fields.lookup "enabled")
  let identityVersion ←
    Json.defaultField Json.asU8 0 (fields.lookup "identity_version")
  some ⟨id, user, passwordHash, revision, registeredAt, lastLoginAt, canLogin, isSuperuser,
    systemCatalogManager, enabled, identityVersion⟩

/-- Numbers within the widths of their fields. -/
structure Sized (account : Account) : Prop where
  low : -2 ^ 63 ≤ account.id
  high : account.id < 2 ^ 63
  revision : account.revision < 2 ^ 64
  identityVersion : account.identityVersion < 2 ^ 8

instance (account : Account) : Decidable account.Sized :=
  decidable_of_iff ((-2 ^ 63 ≤ account.id ∧ account.id < 2 ^ 63) ∧
      account.revision < 2 ^ 64 ∧ account.identityVersion < 2 ^ 8)
    ⟨fun ⟨⟨low, high⟩, revision, version⟩ => ⟨low, high, revision, version⟩,
      fun sized => ⟨⟨sized.low, sized.high⟩, sized.revision, sized.identityVersion⟩⟩

theorem ofJson_toJson {account : Account} (sized : account.Sized) :
    ofJson account.toJson = some account := by
  have login : Json.optionField Json.asString (some (.ofOption .string account.lastLoginAt)) =
      some account.lastLoginAt := Json.optionField_ofOption (fun _ _ => rfl) (by simp)
  have id := Json.asInt64_ofInt sized.low sized.high
  have revision := Json.asU64_ofNat sized.revision
  have version := Json.asU8_ofNat sized.identityVersion
  simp only [ofJson, toJson, Json.asObject]
  simp only [List.lookup, String.reduceBEq, Option.bind_eq_bind, Option.bind_some, Json.requiredField_some,
    Json.asString_string, Json.asBool_bool, Json.defaultField, login, id, revision, version]

end Account

end ChuSQL.Storage
