import ChuSQL.Library.Fallible
import ChuSQL.Storage.Protocol

/-! The account directory of the storage server: the account table as it is
loaded, the identity high-water mark of the catalog, and the requests that
read and change them. A request either fails and changes nothing, or logs the
whole new table in one record, which is applied at once. -/

set_option autoImplicit false

namespace ChuSQL.Storage.Accounts

def identitiesTable : String := "__system_identities"

structure Account where
  id : Int
  user : String
  passwordHash : String
  revision : Nat
  registeredAt : String
  lastLoginAt : Option String
  canLogin : Bool
  isSuperuser : Bool
  systemCatalogManager : Bool
  enabled : Bool
  identityVersion : Nat
deriving DecidableEq

inductive Command where
  | accountsList
  | identityInitialize (administrator : String)
  | accountCreate (user passwordHash : String)
  | roleCreate (user : String)
  | identityAlter (user : String) (canLogin isSuperuser enabled systemCatalogManager : Option Bool)
  | accountReset (user passwordHash : String)
  | accountLogin (user : String) (at_ : Option String)
  | accountDrop (user : String)
  | catalogManage (command : Command)
  /-- A request of another kind. -/
  | other
deriving DecidableEq

def identityColumn (name type : String) : SchemaColumn :=
  ⟨name, type, false, none, false, false, false, none⟩

def identityColumns : List SchemaColumn :=
  [ { identityColumn "id" "int" with primaryKey := true },
    { identityColumn "user" "varchar(64)" with unique := true },
    identityColumn "can_login" "bool",
    identityColumn "is_superuser" "bool",
    identityColumn "system_catalog_manager" "bool",
    identityColumn "enabled" "bool",
    identityColumn "identity_version" "int",
    identityColumn "registered_at" "timestamp",
    { identityColumn "last_login_at" "timestamp" with nullable := true },
    identityColumn "revision" "int" ]

/-- What the requests read and write: the records of the account table, the
columns of the identity table if there is one, and the roles of a catalog from
before identities, which wait for their migration. -/
structure Directory where
  accounts : List Account
  identitySchema : Option (List SchemaColumn)
  legacyRoles : Option (List Row)
  identityHighWater : Int
deriving DecidableEq

/-! ### Names and records -/

def lower (user : String) : String := .ofList (user.toList.map Char.toLower)

def nameChar (c : Char) : Bool :=
  ('a' ≤ c && c ≤ 'z') || ('A' ≤ c && c ≤ 'Z') || ('0' ≤ c && c ≤ '9') || "_.-".toList.contains c

def accountName (user : String) : Except IoError String :=
  if user.isEmpty || decide (64 < user.utf8ByteSize) || !user.toList.all nameChar then
    .error (.ofMessage "invalid account name")
  else .ok (lower user)

def validateAccountHash (hash : String) : Except IoError Unit :=
  if 256 < hash.utf8ByteSize then .error (.ofMessage "invalid account credential") else .ok ()

/-- A record made at a time. -/
def newAccount (now : String) (id : Int) (user passwordHash : String) : Except IoError Account := do
  validateAccountHash passwordHash
  let name ← accountName user
  .ok ⟨id, name, passwordHash, 1, now, none, true, false, false, true, 1⟩

def Account.administers (account : Account) : Bool :=
  account.canLogin && account.enabled && account.isSuperuser

def requireSuperuser (accounts : List Account) : Except IoError Unit :=
  if accounts.any Account.administers then .ok ()
  else .error (.ofMessage "the last enabled login superuser cannot be removed")

/-- Records from before identities may lack the registration time. -/
def normalizeAccount (now : String) (account : Account) : Account :=
  if account.registeredAt = "" then { account with registeredAt := now } else account

def loadAccounts (now : String) (directory : Directory) : List Account :=
  if directory.identitySchema.isSome then directory.accounts
  else directory.accounts.map (normalizeAccount now)

/-- Check every record, and lower the names of the ones from before identities. -/
def checkRecords : (names : List String) → (ids : List Int) → List Account →
    Except IoError (List Account)
  | _, _, [] => .ok []
  | names, ids, account :: rest => do
      let name ← accountName account.user
      if name ∈ names ∨ account.id < 1 ∨ account.id ∈ ids then
        .error (.ofMessage "invalid or duplicate identity record")
      else do
        let rest ← checkRecords (name :: names) (account.id :: ids) rest
        .ok ((if account.identityVersion = 0 then { account with user := name } else account) :: rest)

def topId (accounts : List Account) : Int := (accounts.map (·.id)).max?.getD 0

def nextId (accounts : List Account) (highWater : Int) : Except IoError Int :=
  if max (topId accounts) highWater + 1 < 2 ^ 63 then .ok (max (topId accounts) highWater + 1)
  else .error (.ofMessage "account id exhausted")

def nextRevision (account : Account) : Except IoError Nat :=
  if account.revision + 1 < 2 ^ 64 then .ok (account.revision + 1)
  else .error (.ofMessage "account revision exhausted")

/-- Change the first record of a name. -/
def updateUser (name : String) (change : Account → Except IoError Account) :
    List Account → Except IoError (List Account)
  | [] => .error ⟨.notFound, "unknown account"⟩
  | account :: rest =>
      if account.user = name then do
        let changed ← change account
        .ok (changed :: rest)
      else do
        let rest ← updateUser name change rest
        .ok (account :: rest)

/-! ### Requests -/

/-- Whom a command wrapped for a catalog manager is about; other commands are
refused. -/
def managedTarget : Command → Except IoError (Option String)
  | .accountCreate user _ | .accountReset user _ | .accountDrop user
  | .identityAlter user _ none _ none => do
      let name ← accountName user
      .ok (some name)
  | .accountsList => .ok none
  | _ => .error (.ofMessage "superuser required for this catalog operation")

def Account.privileged (account : Account) : Bool :=
  account.isSuperuser || account.systemCatalogManager

/-- The command to run; the guard of a wrapped one looks at the names as stored. -/
def unwrap (accounts : List Account) : Command → Except IoError Command
  | .catalogManage command => do
      let target ← managedTarget command
      if accounts.any fun account => decide (target = some account.user) && account.privileged then
        .error (.ofMessage "superuser required to manage privileged identities")
      else .ok command
  | command => .ok command

def Command.migrates : Command → Bool
  | .identityInitialize _ => true
  | _ => false

def migrationDone (directory : Directory) (command : Command) : Except IoError Unit :=
  if command.migrates || command == .accountsList then .ok ()
  else if (directory.legacyRoles.getD []).isEmpty then .ok ()
  else .error (.ofMessage "identity migration required")

def createAccount (now : String) (directory : Directory) (accounts : List Account)
    (user passwordHash exists_ : String) : Except IoError Account := do
  let name ← accountName user
  if name = "public" then .error (.ofMessage "public is reserved for default privileges")
  else if accounts.any fun account => account.user = name then .error ⟨.alreadyExists, exists_⟩
  else do
    let id ← nextId accounts directory.identityHighWater
    newAccount now id name passwordHash

def initialized (administrator : String) (account : Account) : Account :=
  if account.identityVersion = 0 then
    { account with
        isSuperuser := account.user == lower administrator
        identityVersion := 1 }
  else account

def legacyName (row : Row) : Except IoError String :=
  match (row.get "name").bind Json.asString with
  | none => .error (.ofMessage "invalid legacy role")
  | some name => accountName name

/-- Turn the roles of an old catalog into identities that cannot log in. -/
def importRoles (now : String) (highWater : Int) : List Row → List Account →
    Except IoError (List Account)
  | [], accounts => .ok accounts
  | row :: rows, accounts => do
      let name ← legacyName row
      if accounts.any fun account => account.user = name then
        .error (.ofMessage s!"identity name collision: {name}")
      else do
        let id ← nextId accounts highWater
        let role ← newAccount now id name ""
        importRoles now highWater rows (accounts ++ [{ role with canLogin := false }])

def initialize_ (now : String) (directory : Directory) (accounts : List Account)
    (administrator : String) : Except IoError (Bool × List Account) := do
  let changed ← importRoles now directory.identityHighWater (directory.legacyRoles.getD [])
    (accounts.map (initialized administrator))
  (if changed.isEmpty then .ok () else requireSuperuser changed)
  let schemaReady := directory.identitySchema == some identityColumns
  .ok (!(schemaReady && accounts == changed), changed)

def alterIdentity (canLogin isSuperuser enabled systemCatalogManager : Option Bool)
    (account : Account) : Except IoError Account := do
  let revision ← nextRevision account
  .ok { account with
    canLogin := canLogin.getD account.canLogin
    isSuperuser := isSuperuser.getD account.isSuperuser
    enabled := enabled.getD account.enabled
    systemCatalogManager := systemCatalogManager.getD account.systemCatalogManager
    revision }

def resetAccount (passwordHash : String) (account : Account) : Except IoError Account := do
  let revision ← nextRevision account
  .ok { account with revision, passwordHash }

def loginAccount (stamp : String) (account : Account) : Except IoError Account :=
  if !account.enabled || !account.canLogin then .error (.ofMessage "identity cannot login")
  else .ok { account with lastLoginAt := some stamp }

/-- A table that had an administrator keeps one. -/
def keepSuperuser (before after : List Account) : Except IoError Unit :=
  if before.any Account.administers then requireSuperuser after else .ok ()

/-- Run a command on the checked records: whether the table is written, and the
records then. -/
def perform (now : String) (directory : Directory) (accounts : List Account) :
    Command → Except IoError (Bool × List Account)
  | .accountsList => .ok (false, accounts)
  | .identityInitialize administrator => initialize_ now directory accounts administrator
  | .accountCreate user passwordHash => do
      let account ← createAccount now directory accounts user passwordHash "account already exists"
      .ok (true, accounts ++ [account])
  | .roleCreate user => do
      let role ← createAccount now directory accounts user "" "identity already exists"
      .ok (true, accounts ++ [{ role with canLogin := false }])
  | .identityAlter user canLogin isSuperuser enabled systemCatalogManager => do
      let name ← accountName user
      let changed ← updateUser name
        (alterIdentity canLogin isSuperuser enabled systemCatalogManager) accounts
      keepSuperuser accounts changed
      .ok (true, changed)
  | .accountReset user passwordHash => do
      let name ← accountName user
      validateAccountHash passwordHash
      let changed ← updateUser name (resetAccount passwordHash) accounts
      .ok (true, changed)
  | .accountLogin user at_ => do
      let name ← accountName user
      let changed ← updateUser name (loginAccount (at_.getD now)) accounts
      .ok (true, changed)
  | .accountDrop user => do
      let name ← accountName user
      let changed := accounts.filter fun account => account.user ≠ name
      if changed.length = accounts.length then .error ⟨.notFound, "unknown account"⟩
      else do
        keepSuperuser accounts changed
        .ok (true, changed)
  | .catalogManage _ | .other => .error (.ofMessage "unexpected account request")

/-- Apply the log record that carries the whole table. -/
def applyAccounts (directory : Directory) (accounts : List Account) (migrateRoles : Bool) :
    Directory where
  accounts := accounts
  identitySchema := some identityColumns
  legacyRoles := if migrateRoles then directory.legacyRoles.map fun _ => [] else directory.legacyRoles
  identityHighWater := max directory.identityHighWater (topId accounts)

/-- Whether the two rows of a record fit into a page. -/
structure RowCodec where
  encodeCredential : Account → Except IoError Unit
  encodeIdentity : Account → Except IoError Unit

def accountsRequest (codec : RowCodec) (now : String) (directory : Directory) (command : Command) :
    Except IoError (List Account × Directory) := do
  let loaded := loadAccounts now directory
  let command ← unwrap loaded command
  let accounts ← checkRecords [] [] loaded
  migrationDone directory command
  let (writes, changed) ← perform now directory accounts command
  if writes then do
    changed.forM codec.encodeCredential
    changed.forM codec.encodeIdentity
    .ok (changed, applyAccounts directory changed command.migrates)
  else .ok (changed, directory)

end ChuSQL.Storage.Accounts
