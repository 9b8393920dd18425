import ChuSQL.Library

/-! Object privileges: who owns which object, who granted what to whom, and which
of the recorded grants count. Names come here folded to lower case and trimmed. -/

set_option autoImplicit false

namespace ChuSQL.Server.Acl

open Library.Growth

/-- A stable role number; `root` is the number kept for the administrator before
it has an account, `everyone` the role `public`. -/
inductive RoleId where
  | root
  | everyone
  | account (id : Nat)
deriving Repr, DecidableEq

structure Account where
  id : Nat
  user : String
  canLogin : Bool
  isSuperuser : Bool
  enabled : Bool
  systemCatalogManager : Bool
  revision : Nat
deriving Repr, DecidableEq

inductive Kind where
  | database
  /-- All tables of a database, also those to come. -/
  | tables
  | table
deriving Repr, DecidableEq

structure Target where
  database : Nat
  table : Option Nat
  kind : Kind
  name : String
deriving Repr, DecidableEq

structure Edge where
  role : RoleId
  grantor : RoleId
  target : Target
  privilege : String
  option : Bool
  root : Bool
deriving Repr, DecidableEq

structure Owner where
  role : RoleId
  target : Target
deriving Repr, DecidableEq

/-- Who is about to create a table. -/
structure Pending where
  role : RoleId
  database : Nat
  name : String
deriving Repr, DecidableEq

structure ACL where
  edges : List Edge
  owners : List Owner
  closed : List Nat
  pending : List Pending
deriving Repr, DecidableEq

structure Context where
  identities : List Account
  members : List (String × String)
  targets : List Target
deriving Repr, DecidableEq

namespace Context

variable (env : Context)

/-- The stable number of a role. -/
def roleId (name : String) : Except String RoleId :=
  match (env.identities.filter fun account => account.user = name).map (·.id) with
  | [id] => .ok (.account id)
  | [] => if name = "public" then .ok .everyone else .error ("unknown role: " ++ name)
  | _ => .error ("unknown role: " ++ name)

/-- Does an identity contribute privileges now? -/
def active : RoleId → Bool
  | .root | .everyone => true
  | .account id => env.identities.any fun account => account.id = id ∧ account.enabled

/-- Does a stable identity still exist? -/
def knownRole : RoleId → Bool
  | .root | .everyone => true
  | .account id => env.identities.any fun account => account.id = id

/-- Memberships between active roles, the parent first. -/
def pairs : List (RoleId × RoleId) :=
  env.members.filterMap fun (parentName, childName) =>
    match env.roleId parentName, env.roleId childName with
    | .ok parent, .ok child =>
        if env.active parent ∧ env.active child then some (parent, child) else none
    | _, _ => none

/-- Parents of the known roles that are not known. -/
def parents (known : List RoleId) : List RoleId :=
  (env.pairs.filter fun pair => pair.2 ∈ known ∧ pair.1 ∉ known).map (·.1)

/-- The active roles an identity inherits from. -/
def roles (value : RoleId) : List RoleId :=
  (.everyone :: grow env.parents (fun known more => (known ++ more).eraseDups) env.pairs.length
    [value]).eraseDups

end Context

/-- Does the scope of one object cover another? -/
def covers (source target : Target) : Bool :=
  source.database = target.database ∧
    (source.kind = .tables ∧ (target.kind = .tables ∨ target.kind = .table) ∨
      source.kind = target.kind ∧ source.table = target.table)

/-- Does a stable object exist now? -/
def Context.hasTarget (env : Context) (target : Target) : Bool :=
  env.targets.any fun current =>
    current.database = target.database ∧
      (target.kind = .tables ∧ current.kind = .database ∨
        current.kind = target.kind ∧ current.table = target.table)

/-- Does an identity own an object? -/
def owns (env : Context) (acl : ACL) (identity : RoleId) (target : Target) : Bool :=
  acl.owners.any fun owner =>
    owner.role ∈ env.roles identity ∧ owner.target = target ∧ env.active owner.role

section Effective

variable (env : Context) (acl : ACL)

def liveOwners : List Owner :=
  acl.owners.filter fun owner => env.knownRole owner.role ∧ env.hasTarget owner.target

def candidates : List Edge :=
  acl.edges.filter fun edge =>
    env.knownRole edge.role ∧ env.knownRole edge.grantor ∧ env.hasTarget edge.target

def rootEdges : List Edge := (candidates env acl).filter (·.root)

/-- Does the grantor own the object or hold the privilege with grant option? -/
def supported (known : List Edge) (edge : Edge) : Bool :=
  env.active edge.grantor ∧
    (owns env { acl with owners := liveOwners env acl } edge.grantor edge.target ∨
      known.any fun source =>
        env.active source.role ∧ source.option ∧ source.role ∈ env.roles edge.grantor ∧
          source.privilege = edge.privilege ∧ covers source.target edge.target)

/-- The closure of the grants that still have a source. -/
def effective : ACL :=
  { acl with
    owners := liveOwners env acl
    edges := closure (supported env acl) (candidates env acl) (candidates env acl).length
      (rootEdges env acl)
    closed := acl.closed.filter fun value =>
      env.targets.any fun target => target.kind = .database ∧ target.database = value }

/-- Check a privilege in scope, or ownership. -/
def allowed (identity : RoleId) (target : Target) (privilege : String) (option : Bool) : Bool :=
  owns env acl identity target ∨
    (!option ∧ privilege = "connect" ∧ target.kind = .database ∧ target.database ∉ acl.closed) ∨
    acl.edges.any fun edge =>
      env.active edge.role ∧ edge.role ∈ env.roles identity ∧ edge.privilege = privilege ∧
        covers edge.target target ∧ (!option ∨ edge.option)

end Effective

/-- Expand and check privilege names for a kind of object. -/
def privileges (target : Target) (names : List String) : Except String (List String) :=
  let supported := if target.kind = .database then ["connect", "create"]
    else ["select", "insert", "update", "delete"]
  let expanded := (names.flatMap fun name => if name = "all" then supported else [name]).eraseDups
  if expanded.all fun name => name ∈ supported then .ok expanded
  else .error "invalid privilege for object scope"

end ChuSQL.Server.Acl
