import ChuSQL.Server.Acl.Objects

/-! The statements that change identities, memberships, objects and grants, as a
signed-in session runs them one after the other. -/

set_option autoImplicit false

namespace ChuSQL.Server.Acl

open Library.Growth

/-! ### The stored identities -/

/-- A change of the stored identities. -/
inductive Request where
  | create (user : String) (canLogin : Bool)
  | alter (user : String) (canLogin isSuperuser enabled systemCatalogManager : Option Bool)
  | reset (user : String)
  | drop (user : String)
deriving Repr, DecidableEq

def accountName (user : String) : Bool :=
  user ≠ "" ∧ user.length ≤ 64 ∧
    user.toList.all fun letter => letter.isAlphanum || ['_', '.', '-'].contains letter

def hasSuperuser (accounts : List Account) : Bool :=
  accounts.any fun account => account.canLogin ∧ account.enabled ∧ account.isSuperuser

def requireSuperuser (accounts : List Account) : Except String Unit :=
  if hasSuperuser accounts then .ok () else .error "the last enabled login superuser cannot be removed"

def maxId (accounts : List Account) : Nat := (accounts.map (·.id)).foldl max 0

def validIdentities (accounts : List Account) : Bool :=
  (accounts.all fun account => accountName account.user ∧ 0 < account.id) ∧
    (accounts.map (·.user)).Nodup ∧ (accounts.map (·.id)).Nodup

def Account.revised (account : Account) : Except String Account :=
  if account.revision + 1 < 2 ^ 64 then .ok { account with revision := account.revision + 1 }
  else .error "account revision exhausted"

def changeIdentities (accounts : List Account) (highWater : Nat) : Request → Except String (List Account)
  | .create user canLogin =>
      if user = "public" then .error "public is reserved for default privileges"
      else if accounts.any fun account => account.user = user then
        .error (if canLogin then "account already exists" else "identity already exists")
      else
        let id := max (maxId accounts) highWater + 1
        if id < 2 ^ 63 then .ok (accounts ++ [⟨id, user, canLogin, false, true, false, 1⟩])
        else .error "account id exhausted"
  | .alter user canLogin isSuperuser enabled systemCatalogManager =>
      match accounts.find? fun account => account.user = user with
      | none => .error "unknown account"
      | some account => do
          let changed ← Account.revised { account with
            canLogin := canLogin.getD account.canLogin
            isSuperuser := isSuperuser.getD account.isSuperuser
            enabled := enabled.getD account.enabled
            systemCatalogManager := systemCatalogManager.getD account.systemCatalogManager }
          let next := accounts.map fun other => if other.user = user then changed else other
          if hasSuperuser accounts then requireSuperuser next
          .ok next
  | .reset user =>
      match accounts.find? fun account => account.user = user with
      | none => .error "unknown account"
      | some account => do
          let changed ← account.revised
          .ok (accounts.map fun other => if other.user = user then changed else other)
  | .drop user =>
      let next := accounts.filter fun account => account.user ≠ user
      if next.length = accounts.length then .error "unknown account"
      else do
        if hasSuperuser accounts then requireSuperuser next
        .ok next

def Request.user : Request → String
  | .create user _ | .alter user _ _ _ _ | .reset user | .drop user => user

/-- Change the stored identities; a dropped identity takes its memberships along. -/
def accountRequest (world : World) (request : Request) : Except String World :=
  if !validIdentities world.identities then .error "invalid or duplicate identity record"
  else if !accountName request.user then .error "invalid account name"
  else do
    let next ← changeIdentities world.identities world.identityHighWater request
    let removed := (world.identities.map (·.user)).filter fun user => user ∉ next.map (·.user)
    .ok { world with
      identities := next
      identityHighWater := max world.identityHighWater (maxId next)
      members := world.members.filter fun row => row.1 ∉ removed ∧ row.2 ∉ removed }

/-! ### Accounts and roles -/

def readRoleNames (world : World) : List String := world.identities.map (·.user)

/-- The roles above some roles. -/
def closureUp (edges : List (String × String)) (known : List String) : List String :=
  grow (fun known => (edges.filter fun edge => edge.2 ∈ known ∧ edge.1 ∉ known).map (·.1))
    (fun known more => (known ++ more).eraseDups) edges.length known

/-- Check all members and cycles before anything is written. -/
def validateMembers (names : List String) (pairs : List (String × String)) (role : String)
    (members : List String) : Except String Unit :=
  let rec foldMembers (edges : List (String × String)) : List String → Except String Unit
    | [] => .ok ()
    | member :: rest =>
        if member ∈ closureUp edges [role] then
          .error ("role membership would create a cycle: " ++ role ++ " and " ++ member)
        else foldMembers ((role, member) :: edges) rest
  if role ∉ names then .error ("unknown role: " ++ role)
  else if members.any fun member => member ∉ names then .error "unknown role member"
  else foldMembers pairs members

/-- A change of an identity by a session that manages the catalog. -/
inductive AccountCommand where
  | create (name : String)
  | reset (name : String)
  | drop (name : String)
  | alter (name : String) (attributes : List (String × Bool))
deriving Repr, DecidableEq

def AccountCommand.target : AccountCommand → String
  | .create name | .reset name | .drop name | .alter name _ => name

def AccountCommand.privilegedChange : AccountCommand → Bool
  | .alter _ attributes =>
      attributes.any fun entry => entry.1 = "superuser" ∨ entry.1 = "system_catalog_manager"
  | _ => false

def runAccountCommand (world : World) (principal : Principal) (command : AccountCommand) :
    Except String World :=
  if !principal.isCatalogManager then .error "catalog manager required"
  else if !principal.isRoot ∧ ((world.identities.any fun account => account.user = command.target ∧
      (account.isSuperuser ∨ account.systemCatalogManager)) ∨ command.privilegedChange) then
    .error "superuser required to manage privileged identities"
  else
    match command with
    | .create name => accountRequest world (.create name true)
    | .reset name => accountRequest world (.reset name)
    | .drop name => accountRequest world (.drop name)
    | .alter name attributes =>
        if ¬(attributes.map (·.1)).Nodup then .error "duplicate identity attribute"
        else accountRequest world (.alter name (attributes.lookup "login") (attributes.lookup "superuser")
          (attributes.lookup "enabled") (attributes.lookup "system_catalog_manager"))

inductive RoleCommand where
  | create (role : String)
  | drop (role : String)
  | grant (role : String) (members : List String)
  | revoke (role : String) (members : List String)
deriving Repr, DecidableEq

/-- Role commands; those that take something away drop what loses its source. -/
def runRoleCommand (world : World) (principal : Principal) : RoleCommand → Except String World
  | .create role =>
      if !principal.isCatalogManager then .error "administrator required"
      else if role ∈ readRoleNames world then .error ("role already exists: " ++ role)
      else accountRequest world (.create role false)
  | .drop role =>
      if !principal.isRoot then .error "administrator required"
      else (accountRequest world (.drop role)).map objectReconcile
  | .grant role members =>
      if !principal.isRoot then .error "administrator required"
      else
        (validateMembers (readRoleNames world) world.members role members).map fun _ => { world with
          members := world.members ++
            (members.filter fun member => (role, member) ∉ world.members).map fun member => (role, member) }
  | .revoke role members =>
      if !principal.isRoot then .error "administrator required"
      else .ok (objectReconcile { world with
        members := world.members.filter fun row => ¬(row.1 = role ∧ row.2 ∈ members) })

/-! ### Databases and tables -/

/-- A change of the databases and tables; `refusal` says why storage refuses it, where it
does so for a reason of its own. -/
inductive ObjectCommand where
  | createDatabase (name : String) (refusal : Option String)
  | createTable (database name : String) (refusal : Option String)
  | dropDatabase (name : String) (refusal : Option String)
  | dropTable (database name : String) (refusal : Option String)
deriving Repr, DecidableEq

def Database.addTable (database : Database) (name : String) : Database := { database with
  tables := database.tables ++ [(name, database.highWater + 1)]
  highWater := database.highWater + 1 }

def Database.removeTable (database : Database) (name : String) : Database := { database with
  tables := database.tables.filter fun table => table.1 ≠ name }

namespace World

variable (world : World)

def addDatabase (name : String) : World := { world with
  databases := world.databases ++ [⟨world.objectHighWater + 1, name, [], 0⟩]
  objectHighWater := world.objectHighWater + 1 }

def removeDatabase (name : String) : World := { world with
  databases := world.databases.filter fun database => database.name ≠ name }

def addTable (parent name : String) : World := { world with
  databases := world.databases.map fun database =>
    if database.name = parent then database.addTable name else database }

def removeTable (parent name : String) : World := { world with
  databases := world.databases.map fun database =>
    if database.name = parent then database.removeTable name else database }

end World

/-- Refuse a statement where storage does. -/
def refuse (refusal : Option String) (world : World) : Except String World :=
  match refusal with
  | some message => .error message
  | none => .ok world

def plainCreateDatabase (world : World) (name : String) (refusal : Option String) : Except String World :=
  if name = "system" ∨ (world.findDatabase name).isSome then .error "database already exists"
  else refuse refusal (world.addDatabase name)

def plainCreateTable (world : World) (parent name : String) (refusal : Option String) :
    Except String World :=
  match world.findDatabase parent with
  | none => .error ("unknown database: " ++ parent)
  | some database =>
      if database.tables.any fun table => table.1 = name then .error ("table already exists: " ++ name)
      else refuse refusal (world.addTable parent name)

/-- Run an object statement and keep owners and grants in step. -/
def runObjectStatement (world : World) (principal : Principal) : ObjectCommand → Except String Unit × World
  | .createDatabase name refusal =>
      if !principal.isRoot then (.error "administrator required", world)
      else
        match plainCreateDatabase world name refusal with
        | .error message => (.error message, world)
        | .ok created =>
            match objectClaim created principal (.database name) with
            | .error message => (.error message, created.removeDatabase name)
            | .ok claimed => (.ok (), claimed)
  | .createTable parent name refusal =>
      match authorizeTables world principal parent [(.database parent, "create")] with
      | .error message => (.error message, world)
      | .ok () =>
          match objectPrepareCreate world principal parent name with
          | .error message => (.error message, world)
          | .ok prepared =>
              match plainCreateTable prepared parent name refusal with
              | .error message => (.error message, objectReconcile prepared)
              | .ok created =>
                  match objectClaim created principal (.table parent name) with
                  | .error message => (.error message, created.removeTable parent name)
                  | .ok claimed => (.ok (), claimed)
  | .dropDatabase name refusal =>
      match objectOwner world principal (.database name) >>= fun _ => world.resolve (.database name) with
      | .error message => (.error message, world)
      | .ok _ =>
          match refuse refusal (world.removeDatabase name) with
          | .error message => (.error message, world)
          | .ok dropped => (.ok (), objectReconcile dropped)
  | .dropTable parent name refusal =>
      match objectOwner world principal (.table parent name) >>= fun _ =>
          world.resolve (.table parent name) with
      | .error message => (.error message, world)
      | .ok _ =>
          match refuse refusal (world.removeTable parent name) with
          | .error message => (.error message, world)
          | .ok dropped => (.ok (), objectReconcile dropped)

/-! ### Statements -/

inductive Command where
  | grant (names : List String) (object : ObjectName) (role : String) (option : Bool)
  | revoke (optionOnly : Bool) (names : List String) (object : ObjectName) (role : String)
  | account (command : AccountCommand)
  | role (command : RoleCommand)
  | object (command : ObjectCommand)
deriving Repr, DecidableEq

def perform (world : World) (principal : Principal) : Command → Except String Unit × World
  | .grant names object role option => objectGrant world principal names object role option
  | .revoke optionOnly names object role => revokeObject world principal optionOnly names object role
  | .account command =>
      match runAccountCommand world principal command with
      | .error message => (.error message, world)
      | .ok changed => (.ok (), objectReconcile changed)
  | .role command =>
      match runRoleCommand world principal command with
      | .error message => (.error message, world)
      | .ok changed => (.ok (), changed)
  | .object command => runObjectStatement world principal command

/-- One statement of a session; an identity that changed since sign-in is refused. -/
def step (world : World) (client : Client) (command : Command) : Except String Unit × World :=
  match validatePrincipal world client with
  | .error message => (.error message, world)
  | .ok () => perform world client.principal command

/-- Sign in; the password is checked elsewhere. -/
def signIn (world : World) (name : String) : Except String Client :=
  match world.identities.filter fun account => account.user = name with
  | [account] =>
      if account.enabled ∧ account.canLogin then
        .ok ⟨if account.isSuperuser then .root name else .ordinary account, (account.id, account.revision)⟩
      else .error "invalid account or session"
  | _ => .error "invalid account or session"

/-- The state after some statements. -/
def run (world : World) (statements : List (Client × Command)) : World :=
  statements.foldl (fun world statement => (step world statement.1 statement.2).2) world

end ChuSQL.Server.Acl
