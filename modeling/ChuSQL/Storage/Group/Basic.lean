import ChuSQL.Storage.Heap.Indexed
import ChuSQL.Storage.Wal.Op

/-! Operations of a group: applying them in order to the heaps of the tables, and
the check made before that no inserted id is taken. -/

set_option autoImplicit false

namespace ChuSQL.Storage.Group

open BTree

/-- The heaps of the tables, and the files that migrations have prepared, by table and
target. -/
structure Store where
  tables : String → Option IndexedHeap
  targets : String → String → Option IndexedHeap

/-- What ends a group: the heap of a table, or the catalog. -/
inductive Failure where
  | heap (op : WalOp) (error : IoError)
  | catalog (op : WalOp) (error : IoError)
deriving DecidableEq

section Apply

variable (serde : Serde) (pageSize order : Nat)

/-- A heap whose files do not exist yet has an index on the id. -/
def newHeap : IndexedHeap := ⟨[], ⟨pageSize, []⟩, [⟨"id", ⟨pageSize, order, []⟩⟩]⟩

/-- Change the heap of a table; a missing one is created. -/
def withTable (store : Store) (table : String)
    (change : IndexedHeap → Except IoError Unit × IndexedHeap) : Except IoError Store :=
  let (result, heap) := change ((store.tables table).getD (newHeap pageSize order))
  result.map fun _ => { store with tables := Function.update store.tables table (some heap) }

/-- Change the heap of a table that exists. -/
def withExisting (store : Store) (table : String)
    (change : IndexedHeap → Except IoError Unit × IndexedHeap) : Except IoError Store :=
  match store.tables table with
  | none => .ok store
  | some _ => withTable pageSize order store table change

end Apply

/-! ### Accounts as rows -/

def accountRow (account : Account) : Row :=
  ⟨[("id", .ofInt account.id), ("password_hash", .string account.passwordHash)],
    List.pairwise_map.mp (show ["id", "password_hash"].Pairwise (· < ·) by decide)⟩

def identityRow (account : Account) : Row := ⟨[
  ("can_login", .bool account.canLogin),
  ("enabled", .bool account.enabled),
  ("id", .ofInt account.id),
  ("identity_version", .ofNat account.identityVersion),
  ("is_superuser", .bool account.isSuperuser),
  ("last_login_at", .ofOption .string account.lastLoginAt),
  ("registered_at", .string account.registeredAt),
  ("revision", .ofNat account.revision),
  ("system_catalog_manager", .bool account.systemCatalogManager),
  ("user", .string account.user)],
    List.pairwise_map.mp (show ["can_login", "enabled", "id", "identity_version", "is_superuser", "last_login_at",
      "registered_at", "revision", "system_catalog_manager", "user"].Pairwise (· < ·) by decide)⟩

def identitiesTable : String := "__system_identities"

/-- Does a row name one of the removed identities? -/
def namesRemoved (removed : List String) (row : Row) : Bool :=
  ["role", "member"].any fun field => ((row.get field).bind Json.asString).any fun name => name ∈ removed

/-- The tables that a change of the accounts rewrites. -/
def accountTables : List String := [usersTable, identitiesTable, "__system_roles", "__system_grants",
  "__system_grant_options", "__system_members"]

/-! ### Applying operations -/

section Apply

variable (serde : Serde) (pageSize order : Nat)

/-- Leave out the rows that name a removed identity. -/
def cleanRows (removed : List String) (heap : IndexedHeap) : Except IoError Unit × IndexedHeap :=
  match heap.scanWithPositions serde with
  | .error error => (.error error, heap)
  | .ok rows => heap.replaceAll serde ((rows.map (·.2)).filter fun row => !namesRemoved removed row)

def cleanTables (removed : List String) : List String → Store → Except IoError Store
  | [], store => .ok store
  | table :: rest, store => do
      let store ← (if removed = [] then .ok store
        else withExisting pageSize order store table (cleanRows serde removed))
      cleanTables removed rest store

def applyAccounts (store : Store) (accounts : List Account) (removed : List String) (migrateRoles : Bool) :
    Except IoError Store := do
  let store ← withTable pageSize order store usersTable fun heap =>
    heap.replaceAll serde (accounts.map accountRow)
  let store ← withTable pageSize order store identitiesTable fun heap =>
    heap.replaceAll serde (accounts.map identityRow)
  let store ← (if migrateRoles then
      withExisting pageSize order store "__system_roles" fun heap => heap.replaceAll serde []
    else .ok store)
  cleanTables serde pageSize order removed
    ["__system_grants", "__system_grant_options", "__system_members"] store

/-- Take every index off but the one on the id. -/
def detachIndexes (heap : IndexedHeap) : IndexedHeap :=
  { heap with indexes := heap.indexes.filter fun index => index.column = "id" }

/-- Apply an operation to the heaps; what the catalog does comes after. -/
def applyOp (store : Store) : WalOp → Except IoError Store
  | .migrate table _ _ target =>
      match store.targets table target with
      | none => .error (.ofMessage "migration target missing")
      | some heap => .ok { store with tables := Function.update store.tables table (some heap) }
  | .commit => .ok store
  | .hideColumn table column _ =>
      withExisting pageSize order store table fun heap => (.ok (), heap.hideColumn column)
  | .accounts accounts removed migrateRoles =>
      applyAccounts serde pageSize order store accounts removed migrateRoles
  | .insert table row => withTable pageSize order store table fun heap => heap.insertRow serde row
  | .insertBatch table rows => withTable pageSize order store table fun heap => heap.insertRows serde rows
  | .deleteKeys table keys => withTable pageSize order store table fun heap =>
      let (deleted, heap) := heap.deleteByKeys serde keys
      (deleted.map fun _ => (), heap)
  | .compact table rows | .replaceAll table rows =>
      withTable pageSize order store table fun heap => heap.replaceAll serde rows
  | .dropColumn table column _ rows => withTable pageSize order store table fun heap =>
      (heap.detachIndex column).2.replaceAll serde rows
  | .replaceSchema table _ _ rows => withTable pageSize order store table fun heap =>
      { detachIndexes heap with hiddenColumns := [] }.replaceAll serde rows
  | .createTable table _ _ =>
      .ok { store with tables := Function.update store.tables table (some (newHeap pageSize order)) }
  | .dropTable table => .ok { store with tables := Function.update store.tables table none }
  | .createIndex table column => withTable pageSize order store table fun heap =>
      heap.buildIndex serde column pageSize order
  | .dropIndex table column =>
      withExisting pageSize order store table fun heap => (.ok (), (heap.detachIndex column).2)

/-- Apply the operations in order; `catalog` says what the catalog makes of an operation
after some others. -/
def applyGroup (catalog : List WalOp → WalOp → Except IoError Unit) :
    List WalOp → Store → List WalOp → Except Failure Store
  | _, store, [] => .ok store
  | done, store, op :: rest =>
      match applyOp serde pageSize order store op with
      | .error error => .error (.heap op error)
      | .ok store =>
          match catalog done op with
          | .error error => .error (.catalog op error)
          | .ok () => applyGroup catalog (done ++ [op]) store rest

end Apply

/-! ### The check of inserted ids -/

/-- Rows with a key in the index of the id. -/
def idKeyCount (heap : IndexedHeap) (key : Key) : Except IoError Nat :=
  match heap.indexes.find? fun index => index.column = "id" with
  | none => .error (.ofMessage "missing id index")
  | some index => .ok (index.tree.getAll key).length

/-- Counts of id keys that a group has looked up or changed so far. -/
structure PendingIds where
  replaced : Bool
  counts : List (Key × Nat)

namespace PendingIds

variable (heap : Option IndexedHeap)

/-- Read the count of a key as needed. -/
def count (pending : PendingIds) (key : Key) : Except IoError Nat :=
  match pending.counts.lookup key with
  | some count => .ok count
  | none =>
      if pending.replaced then .ok 0
      else
        match heap with
        | none => .ok 0
        | some heap => idKeyCount heap key

def set (pending : PendingIds) (key : Key) (count : Nat) : PendingIds :=
  { pending with counts := (key, count) :: pending.counts }

/-- Each id is taken once. -/
def delete : PendingIds → (seen keys : List Int) → Except IoError PendingIds
  | pending, _, [] => .ok pending
  | pending, seen, id :: rest =>
      if id ∈ seen then delete pending seen rest
      else do
        let count ← pending.count heap (keyOf id)
        delete (pending.set (keyOf id) (count - 1)) (id :: seen) rest

def insert : PendingIds → List Row → Except IoError PendingIds
  | pending, [] => .ok pending
  | pending, row :: rest =>
      match rowKey row "id" with
      | none => insert pending rest
      | some key => do
          let count ← pending.count heap key
          if count > 0 then .error ⟨.invalidInput, duplicateId⟩
          else insert (pending.set key 1) rest

/-- The keys of the rows a table is rewritten with. -/
def replace : List Row → PendingIds
  | [] => ⟨true, []⟩
  | row :: rest =>
      match rowKey row "id" with
      | none => replace rest
      | some key => (replace rest).set key (((replace rest).counts.lookup key).getD 0 + 1)

end PendingIds

/-- Check in order that no inserted id is taken. -/
def validateInsertIds (store : Store) : (String → PendingIds) → List WalOp → Except IoError Unit
  | _, [] => .ok ()
  | pending, op :: rest =>
      match op with
      | .insert table row => do
          let next ← (pending table).insert (store.tables table) [row]
          validateInsertIds store (Function.update pending table next) rest
      | .insertBatch table rows => do
          let next ← (pending table).insert (store.tables table) rows
          validateInsertIds store (Function.update pending table next) rest
      | .deleteKeys table keys => do
          let next ← (pending table).delete (store.tables table) [] keys
          validateInsertIds store (Function.update pending table next) rest
      | .replaceAll table rows | .replaceSchema table _ _ rows | .dropColumn table _ _ rows
      | .compact table rows =>
          validateInsertIds store (Function.update pending table (.replace rows)) rest
      | .createTable table _ _ | .dropTable table =>
          validateInsertIds store (Function.update pending table ⟨true, []⟩) rest
      | .migrate .. | .hideColumn .. | .accounts .. | .createIndex .. | .dropIndex .. | .commit =>
          validateInsertIds store pending rest

end ChuSQL.Storage.Group
