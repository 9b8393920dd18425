import ChuSQL.Server.Acl.Basic

/-! The stored privileges and the operations on them. Each runs alone, under the
exclusive gate, and storage does not fail. -/

set_option autoImplicit false

namespace ChuSQL.Server.Acl

/-! ### Identities, objects and the stored privileges -/

structure Database where
  id : Nat
  name : String
  tables : List (String × Nat)
  /-- The largest object number given out in this database. -/
  highWater : Nat
deriving Repr, DecidableEq

structure World where
  identities : List Account
  identityHighWater : Nat
  members : List (String × String)
  databases : List Database
  /-- The largest database number given out. -/
  objectHighWater : Nat
  acl : ACL
deriving Repr, DecidableEq

/-- An object as a statement names it; tables of a database may be named as a whole. -/
inductive ObjectName where
  | database (name : String)
  | tables (database : String)
  | table (database name : String)
deriving Repr, DecidableEq

def ObjectName.databaseName : ObjectName → String
  | .database name => name
  | .tables name => name
  | .table name _ => name

def ObjectName.text : ObjectName → String
  | .database name => "database:" ++ name
  | .tables name => name ++ ".*"
  | .table parent name => parent ++ "." ++ name

def Database.target (database : Database) : Target :=
  ⟨database.id, none, .database, "database:" ++ database.name⟩

def Database.scope (database : Database) : Target :=
  ⟨database.id, none, .tables, database.name ++ ".*"⟩

def Database.tableTarget (database : Database) (table : String × Nat) : Target :=
  ⟨database.id, some table.2, .table, database.name ++ "." ++ table.1⟩

namespace World

variable (world : World)

def findDatabase (name : String) : Option Database :=
  world.databases.find? fun database => database.name = name

/-- The business objects that exist now. -/
def targets : List Target :=
  world.databases.flatMap fun database => database.target :: database.tables.map database.tableTarget

def context : Context := ⟨world.identities, world.members, world.targets⟩

/-- Look an object up in the catalog. -/
def resolve (object : ObjectName) : Except String Target :=
  if object.databaseName = "" then .error "no database selected"
  else if object.databaseName = "system" then .error "system objects cannot be granted"
  else
    match world.findDatabase object.databaseName with
    | none => .error "unknown database"
    | some database =>
        match object with
        | .database _ => .ok database.target
        | .tables _ => .ok database.scope
        | .table _ name =>
            match database.tables.find? fun table => table.1 = name with
            | none => .error "unknown table"
            | some table => .ok (database.tableTarget table)

/-- A recorded intent to create a table becomes ownership of the table if it exists. -/
def recover : ACL :=
  let acl := world.acl
  let recovered := acl.pending.flatMap fun pending =>
    (world.targets.filter fun target => target.kind = .table ∧ target.database = pending.database ∧
      target.name = pending.name).map fun target => (⟨pending.role, target⟩ : Owner)
  { acl with
    pending := []
    owners := recovered ++ acl.owners.filter fun owner => owner.target ∉ recovered.map (·.target) }

/-- Read the privileges that count now; recovered owners are written back. -/
def load : Context × ACL × World :=
  let env := world.context
  if world.acl.pending.isEmpty then (env, effective env world.acl, world)
  else
    let written := effective env world.recover
    (env, effective env written, { world with acl := written })

end World

/-! ### Sessions -/

inductive Principal where
  | root (name : String)
  | ordinary (account : Account)
deriving Repr, DecidableEq

namespace Principal

def name : Principal → String
  | root name => name
  | ordinary account => account.user

def isRoot : Principal → Bool
  | root _ => true
  | ordinary account => account.isSuperuser && account.enabled && account.canLogin

def isCatalogManager (principal : Principal) : Bool :=
  principal.isRoot ||
    match principal with
    | ordinary account => account.systemCatalogManager && account.enabled && account.canLogin
    | root _ => true

end Principal

/-- A signed-in session: the number and version of the identity it signed in as. -/
structure Client where
  principal : Principal
  stamp : Nat × Nat
deriving Repr, DecidableEq

/-- The identity is enabled and as it was at sign-in. -/
def validatePrincipal (world : World) (client : Client) : Except String Unit :=
  match world.identities.filter fun account => account.user = client.principal.name with
  | [current] =>
      if client.stamp = (current.id, current.revision) ∧ current.enabled ∧ current.canLogin ∧
          (!client.principal.isRoot ∨ current.isSuperuser) then .ok ()
      else .error "session identity has changed"
  | [] => .error "unknown account"
  | _ => .error "account storage unavailable"

/-! ### Object privileges -/

section Objects

variable (world : World) (principal : Principal)

def sameKey (one other : Edge) : Bool :=
  one.role = other.role ∧ one.grantor = other.grantor ∧ one.target = other.target ∧
    one.privilege = other.privilege

/-- The grants recorded for a command. -/
def newEdges (recipient grantor : RoleId) (target : Target) (items : List String) (option root : Bool) :
    List Edge :=
  items.map fun item => ⟨recipient, grantor, target, item, option, root⟩

/-- Record grants: each replaces the grants of the same key and keeps their grant option. -/
def recordGrants (acl : ACL) (edges : List Edge) : List Edge :=
  (acl.edges.filter fun edge => !edges.any (sameKey edge)) ++
    edges.map fun edge =>
      { edge with option := edge.option || acl.edges.any fun old => sameKey old edge && old.option }

/-- The role number a grant is recorded under. -/
def grantorId (env : Context) : Except String RoleId :=
  if principal.isRoot then
    match env.roleId principal.name with
    | .ok id => .ok id
    | .error _ => .ok .root
  else env.roleId principal.name

/-- Check a grant: recipient, grantor and privileges. -/
def checkGrant (env : Context) (acl : ACL) (target : Target) (names : List String) (object : ObjectName)
    (role : String) : Except String (RoleId × RoleId × List String) := do
  let recipient ← env.roleId role
  let items ← privileges target names
  let grantor ← grantorId principal env
  if principal.isRoot then .ok (recipient, grantor, items)
  else
    match items.find? fun item => !allowed env acl grantor target item true with
    | some item => .error ("grant option required: " ++ item.toUpper ++ " ON " ++ object.text)
    | none => .ok (recipient, grantor, items)

/-- Grant privileges, recording who granted them. -/
def objectGrant (names : List String) (object : ObjectName) (role : String) (option : Bool) :
    Except String Unit × World :=
  let (env, acl, world) := world.load
  match world.resolve object with
  | .error message => (.error message, world)
  | .ok target =>
      match checkGrant principal env acl target names object role with
      | .error message => (.error message, world)
      | .ok (recipient, grantor, items) =>
          let edges := newEdges recipient grantor target items option principal.isRoot
          let closed := if recipient = .everyone ∧ "connect" ∈ items then
              acl.closed.filter fun value => value ≠ target.database
            else acl.closed
          (.ok (), { world with acl := { acl with edges := recordGrants acl edges, closed } })

/-- The grants a revoke takes away. -/
def matchesRevoke (recipient grantor : RoleId) (target : Target) (items : List String) (manager : Bool)
    (edge : Edge) : Bool :=
  edge.role = recipient ∧ edge.target = target ∧ edge.privilege ∈ items ∧
    (manager ∨ edge.grantor = grantor)

/-- Revoke privileges, or only their grant option, and drop the grants left without a source. -/
def revokeObject (optionOnly : Bool) (names : List String) (object : ObjectName) (role : String) :
    Except String Unit × World :=
  let (env, acl, world) := world.load
  match world.resolve object with
  | .error message => (.error message, world)
  | .ok target =>
      let parts : Except String (RoleId × List String × RoleId) := do
        let recipient ← env.roleId role
        let items ← privileges target names
        let grantor ← if principal.isRoot then .ok .root else env.roleId principal.name
        .ok (recipient, items, grantor)
      match parts with
      | .error message => (.error message, world)
      | .ok (recipient, items, grantor) =>
          let manager := principal.isRoot || owns env acl grantor target
          let taken := matchesRevoke recipient grantor target items manager
          let edges := if optionOnly then
              acl.edges.map fun edge => if taken edge then { edge with option := false } else edge
            else acl.edges.filter fun edge => !taken edge
          let closed := if !optionOnly ∧ recipient = .everyone ∧ "connect" ∈ items then
              (target.database :: acl.closed).eraseDups
            else acl.closed
          if recipient = .everyone ∧ "connect" ∈ items ∧ !manager then
            (.error "administrator required", world)
          else (.ok (), { world with acl := effective env { acl with edges, closed } })

/-- Drop what lost its identity, its object or its source. -/
def objectReconcile : World :=
  let (_, acl, world) := world.load
  { world with acl }

/-- Record who is about to create a table. -/
def objectPrepareCreate (database name : String) : Except String World :=
  let (env, acl, world) := world.load
  match world.resolve (.database database) with
  | .error message => .error message
  | .ok target =>
      match env.roleId principal.name with
      | .error message => .error message
      | .ok identity =>
          let label := database ++ "." ++ name
          if env.targets.any fun current => current.name = label then .ok world
          else .ok { world with acl := { acl with pending := [⟨identity, target.database, label⟩] } }

/-- Make the creator the owner of a new object. -/
def objectClaim (object : ObjectName) : Except String World :=
  let (env, acl, world) := world.load
  match world.resolve object with
  | .error message => .error message
  | .ok target =>
      match env.roleId principal.name with
      | .error message => .error message
      | .ok identity =>
          .ok { world with acl := { acl with
            owners := ⟨identity, target⟩ :: acl.owners.filter fun owner => owner.target ≠ target } }

/-- Check privileges on objects, with the right to connect first. -/
def authorizeTables (database : String) (needed : List (ObjectName × String)) : Except String Unit :=
  let (env, acl, world) := world.load
  let rec check : List (ObjectName × String) → Except String Unit
    | [] => .ok ()
    | (object, privilege) :: rest => do
        let target ← world.resolve object
        let identity ← env.roleId principal.name
        if !env.active identity then .error "permission denied: disabled identity"
        else if !allowed env acl identity target privilege false then
          .error ("permission denied: " ++ privilege.toUpper ++ " ON " ++ object.text)
        else check rest
  if principal.isRoot then .ok ()
  else check ((.database database, "connect") :: needed)

/-- Check that the identity owns an object. -/
def objectOwner (object : ObjectName) : Except String Unit := do
  let (env, acl, world) := world.load
  if principal.isRoot then .ok ()
  else
    let target ← world.resolve object
    let identity ← env.roleId principal.name
    if owns env acl identity target then .ok () else .error "object owner required"

end Objects

end ChuSQL.Server.Acl
