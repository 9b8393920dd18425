import ChuSQL.Server.Acl.Invariant
import ChuSQL.Server.Acl.Commands

/-! The states that statements lead to: object numbers are never used twice, no
creation is left open, and the stored grants have a source as long as no grant
takes the place of a root grant. -/

set_option autoImplicit false

namespace ChuSQL.Server.Acl

open Library

/-! ### Identities and memberships -/

section Identities

variable {world next : World}

theorem accountRequest_eq_ok {request : Request} (changed : accountRequest world request = .ok next) :
    ∃ accounts, changeIdentities world.identities world.identityHighWater request = .ok accounts ∧
      next = { world with
        identities := accounts
        identityHighWater := max world.identityHighWater (maxId accounts)
        members := world.members.filter fun row =>
          row.1 ∉ (world.identities.map (·.user)).filter (fun user => user ∉ accounts.map (·.user)) ∧
            row.2 ∉ (world.identities.map (·.user)).filter fun user => user ∉ accounts.map (·.user) } := by
  unfold accountRequest at changed
  split at changed
  · cases changed
  split at changed
  · cases changed
  obtain ⟨accounts, done, same⟩ := bind_eq_ok.mp changed
  exact ⟨accounts, done, (Except.ok.inj same).symm⟩

theorem accountRequest_bounded {request : Request} (bounded : Bounded world)
    (changed : accountRequest world request = .ok next) : Bounded next := by
  obtain ⟨_, _, rfl⟩ := accountRequest_eq_ok changed
  exact ⟨bounded.unique, bounded.small, bounded.numbered⟩

theorem accountRequest_acl {request : Request} (changed : accountRequest world request = .ok next) :
    next.acl = world.acl := by
  obtain ⟨_, _, rfl⟩ := accountRequest_eq_ok changed
  rfl

theorem runAccountCommand_eq_ok {principal : Principal} {command : AccountCommand}
    (changed : runAccountCommand world principal command = .ok next) :
    ∃ request, accountRequest world request = .ok next := by
  unfold runAccountCommand at changed
  split at changed
  · cases changed
  split at changed
  · cases changed
  cases command with
  | create name => exact ⟨_, changed⟩
  | reset name => exact ⟨_, changed⟩
  | drop name => exact ⟨_, changed⟩
  | alter name attributes =>
      dsimp only at changed
      split at changed
      · cases changed
      · exact ⟨_, changed⟩

/-- A new name takes no role from another. -/
theorem roleId_append {env grown : Context} {account : Account}
    (identities : grown.identities = env.identities ++ [account])
    (fresh : ∀ other ∈ env.identities, other.user ≠ account.user) (named : account.user ≠ "public")
    {name : String} {role : RoleId} (found : env.roleId name = .ok role) :
    grown.roleId name = .ok role := by
  have apart : name ≠ account.user := by
    rintro rfl
    have none : (env.identities.filter fun other => other.user = account.user) = [] :=
      List.filter_eq_nil_iff.mpr fun other member => by simpa using fresh other member
    simp only [Context.roleId, none, List.map_nil, if_neg named] at found
    cases found
  have same : ((env.identities ++ [account]).filter fun other => other.user = name) =
      env.identities.filter fun other => other.user = name := by
    have none : [account].filter (fun other => other.user = name) = [] :=
      List.filter_eq_nil_iff.mpr fun other member => by
        rw [List.mem_singleton.mp member]
        simpa using apart.symm
    rw [List.filter_append, none, List.append_nil]
  simpa only [Context.roleId, identities, same] using found

theorem Inherits.grow {env other : Context} (names : ∀ name role, env.roleId name = .ok role → other.roleId name = .ok role)
    (active : ∀ role, env.active role = true → other.active role = true)
    (members : ∀ row ∈ env.members, row ∈ other.members) {child parent : RoleId}
    (inherits : Inherits env child parent) : Inherits other child parent := by
  obtain ⟨row, member, pair⟩ := List.mem_filterMap.mp inherits
  refine List.mem_filterMap.mpr ⟨row, members row member, ?_⟩
  obtain ⟨parentName, childName⟩ := row
  dsimp only at pair ⊢
  cases upper : env.roleId parentName with
  | error message => rw [upper] at pair; cases pair
  | ok upperRole =>
      cases lower : env.roleId childName with
      | error message => rw [upper, lower] at pair; cases pair
      | ok lowerRole =>
          rw [upper, lower] at pair
          rw [names _ _ upper, names _ _ lower]
          dsimp only at pair ⊢
          split at pair
          · next both => rwa [if_pos ⟨active _ both.1, active _ both.2⟩]
          · cases pair

theorem changeIdentities_create {accounts changed : List Account} {highWater : Nat} {user : String}
    {canLogin : Bool} (created : changeIdentities accounts highWater (.create user canLogin) = .ok changed) :
    user ≠ "public" ∧ (∀ other ∈ accounts, other.user ≠ user) ∧
      ∃ account, account.user = user ∧ changed = accounts ++ [account] := by
  simp only [changeIdentities] at created
  split at created
  · cases created
  next named =>
  split at created
  · cases created
  next fresh =>
  split at created
  · cases created
    simp only [List.any_eq_true, decide_eq_true_eq, not_exists, not_and] at fresh
    exact ⟨named, fresh, _, rfl, rfl⟩
  · cases created

/-- A new identity takes nothing away. -/
theorem grows_create {canLogin : Bool} {user : String}
    (changed : accountRequest world (.create user canLogin) = .ok next) :
    next.databases = world.databases ∧ next.objectHighWater = world.objectHighWater ∧ next.acl = world.acl ∧
      Grows world.context next.context := by
  obtain ⟨accounts, created, rfl⟩ := accountRequest_eq_ok changed
  obtain ⟨named, fresh, account, rfl, rfl⟩ := changeIdentities_create created
  have active : ∀ role, world.context.active role = true →
      ({ world.context with identities := world.identities ++ [account] } : Context).active role = true := by
    intro role active
    cases role with
    | root => rfl
    | everyone => rfl
    | account id =>
        simp only [Context.active, List.any_append, Bool.or_eq_true]
        exact .inl active
  have kept : ∀ user, user ∉ (world.identities.map (·.user)).filter fun user =>
      user ∉ (world.identities ++ [account]).map (·.user) := by
    intro user removed
    obtain ⟨old, gone⟩ := List.mem_filter.mp removed
    rw [List.map_append, decide_eq_true_eq] at gone
    exact gone (List.mem_append_left _ old)
  refine ⟨rfl, rfl, rfl, active, ?_, ?_, fun _ present => present⟩
  · intro role known
    cases role with
    | root => rfl
    | everyone => rfl
    | account id =>
        simp only [Context.knownRole, World.context, List.any_append, Bool.or_eq_true]
        exact .inl known
  · intro child parent inherits
    refine Inherits.grow ?_ ?_ ?_ inherits
    · exact fun name role found => roleId_append rfl fresh named found
    · exact active
    · intro row member
      exact List.mem_filter.mpr ⟨member, decide_eq_true ⟨kept row.1, kept row.2⟩⟩

/-- So do new memberships. -/
theorem grows_members {members : List (String × String)} :
    Grows world.context { world with members := world.members ++ members }.context := by
  refine ⟨fun _ active => active, fun _ known => known, fun child parent inherits => ?_,
    fun _ present => present⟩
  refine Inherits.grow ?_ ?_ ?_ inherits
  · exact fun _ _ found => found
  · exact fun _ active => active
  · exact fun row member => List.mem_append_left _ member

theorem runRoleCommand_kept {principal : Principal} {command : RoleCommand} (sound : Sound world)
    (changed : runRoleCommand world principal command = .ok next) : Kept world next := by
  cases command with
  | create role =>
      simp only [runRoleCommand] at changed
      split at changed
      · cases changed
      split at changed
      · cases changed
      obtain ⟨databases, highWater, acl, grows⟩ := grows_create changed
      exact sound.grow databases highWater acl grows
  | drop role =>
      simp only [runRoleCommand] at changed
      split at changed
      · cases changed
      cases dropped : accountRequest world (.drop role) with
      | error message =>
          rw [dropped] at changed
          cases changed
      | ok other =>
          rw [dropped] at changed
          cases changed
          refine reconcile_kept (accountRequest_bounded sound.bounded dropped) ?_
          exact accountRequest_acl dropped ▸ sound.recorded.proper
  | grant role members =>
      simp only [runRoleCommand] at changed
      split at changed
      · cases changed
      cases valid : validateMembers (readRoleNames world) world.members role members with
      | error message =>
          rw [valid] at changed
          cases changed
      | ok _ =>
          rw [valid] at changed
          cases changed
          exact sound.grow rfl rfl rfl grows_members
  | revoke role members =>
      simp only [runRoleCommand] at changed
      split at changed
      · cases changed
      cases changed
      exact reconcile_kept ⟨sound.bounded.unique, sound.bounded.small, sound.bounded.numbered⟩
        sound.recorded.proper

end Identities

/-! ### Grants and revokes -/

section Grants

variable {world : World} {principal : Principal} {names : List String} {object : ObjectName} {role : String}

theorem checkGrant_eq_ok {env : Context} {acl : ACL} {target : Target} {recipient grantor : RoleId}
    {items : List String}
    (checked : checkGrant principal env acl target names object role = .ok (recipient, grantor, items)) :
    env.roleId role = .ok recipient ∧ privileges target names = .ok items ∧
      grantorId principal env = .ok grantor ∧
      (principal.isRoot = false → ∀ item ∈ items, allowed env acl grantor target item true = true) := by
  obtain ⟨_, found, checked⟩ := bind_eq_ok.mp checked
  obtain ⟨_, expanded, checked⟩ := bind_eq_ok.mp checked
  obtain ⟨_, granting, checked⟩ := bind_eq_ok.mp checked
  split at checked
  · next isRoot =>
      cases checked
      exact ⟨found, expanded, granting, fun ordinary => by rw [isRoot] at ordinary; cases ordinary⟩
  · split at checked
    · cases checked
    · next all =>
        cases checked
        refine ⟨found, expanded, granting, fun _ item member => ?_⟩
        simpa using List.find?_eq_none.mp all item member

/-- What a grant does: nothing, or it records its edges. -/
theorem objectGrant_cases (settled : world.acl.pending = []) {option : Bool} :
    (∃ message, objectGrant world principal names object role option = (.error message, world)) ∨
      ∃ target recipient grantor items, world.resolve object = .ok target ∧
        checkGrant principal world.context (effective world.context world.acl) target names object role =
          .ok (recipient, grantor, items) ∧
        objectGrant world principal names object role option = (.ok (), { world with acl :=
          { effective world.context world.acl with
            edges := recordGrants (effective world.context world.acl)
              (newEdges recipient grantor target items option principal.isRoot)
            closed := if recipient = .everyone ∧ "connect" ∈ items then
                (effective world.context world.acl).closed.filter fun value => value ≠ target.database
              else (effective world.context world.acl).closed } }) := by
  simp only [objectGrant, load_settled settled]
  cases found : world.resolve object with
  | error message => exact .inl ⟨message, rfl⟩
  | ok target =>
      dsimp only
      cases checked : checkGrant principal world.context (effective world.context world.acl) target names object role with
      | error message => exact .inl ⟨message, rfl⟩
      | ok parts =>
          obtain ⟨recipient, grantor, items⟩ := parts
          exact .inr ⟨target, recipient, grantor, items, rfl, checked, rfl⟩

/-- A grant by an ordinary session that takes the place of a root grant. -/
def ReplacesRoot (world : World) (principal : Principal) : Command → Prop
  | .grant names object role _ =>
      principal.isRoot = false ∧ ∃ old ∈ world.acl.edges, old.root = true ∧
        world.context.roleId role = .ok old.role ∧ grantorId principal world.context = .ok old.grantor ∧
        world.resolve object = .ok old.target ∧
        ∃ items, privileges old.target names = .ok items ∧ old.privilege ∈ items
  | _ => False

theorem knownRole_of_grantorId {env : Context} {grantor : RoleId}
    (found : grantorId principal env = .ok grantor) : env.knownRole grantor = true := by
  unfold grantorId at found
  split at found
  · split at found
    · next looked =>
        cases found
        exact knownRole_of_roleId looked
    · cases found
      rfl
  · exact knownRole_of_roleId found

theorem mem_newEdges {recipient grantor : RoleId} {target : Target} {items : List String} {option root : Bool}
    {edge : Edge} : edge ∈ newEdges recipient grantor target items option root ↔
      ∃ item ∈ items, edge = ⟨recipient, grantor, target, item, option, root⟩ := by
  simp [newEdges, eq_comm]

/-- Who may pass a privilege on has a source for the grant. -/
theorem supportedBy_of_allowed {env : Context} {acl : ACL} {edge : Edge} (active : env.active edge.grantor = true)
    (live : acl.owners = liveOwners env acl)
    (allowed : allowed env acl edge.grantor edge.target edge.privilege true = true) :
    SupportedBy env acl {source | source ∈ acl.edges} edge := by
  refine ⟨active, ?_⟩
  simp only [Acl.allowed, decide_eq_true_eq] at allowed
  rcases allowed with owned | ⟨plain, _⟩ | granted
  · refine .inl ?_
    rwa [← live]
  · cases plain
  · refine .inr ?_
    obtain ⟨source, stored, holds⟩ := List.any_eq_true.mp granted
    simp only [decide_eq_true_eq] at holds
    obtain ⟨sourceActive, inherited, privilege, covered, option⟩ := holds
    exact ⟨source, stored, sourceActive, option.resolve_left (by simp), inherited, privilege, covered⟩

theorem grantorId_ordinary {env : Context} {grantor : RoleId} (ordinary : principal.isRoot = false)
    (found : grantorId principal env = .ok grantor) : env.roleId principal.name = .ok grantor := by
  simpa [grantorId, ordinary] using found

/-- The grants of a statement are about roles and objects that exist. -/
theorem newEdges_valid {target : Target} {recipient grantor : RoleId} {items : List String} {option root : Bool}
    (found : world.resolve object = .ok target) (known : world.context.roleId role = .ok recipient)
    (granting : grantorId principal world.context = .ok grantor) :
    ∀ edge ∈ newEdges recipient grantor target items option root, world.context.knownRole edge.role = true ∧
      world.context.knownRole edge.grantor = true ∧ world.context.hasTarget edge.target = true := by
  intro edge member
  obtain ⟨item, _, rfl⟩ := mem_newEdges.mp member
  exact ⟨knownRole_of_roleId known, knownRole_of_grantorId granting, hasTarget_of_resolve found⟩

theorem keepsRoots_of_not_replaces {target : Target} {recipient grantor : RoleId} {items : List String}
    {option : Bool} (known : world.context.roleId role = .ok recipient)
    (expanded : privileges target names = .ok items) (granting : grantorId principal world.context = .ok grantor)
    (found : world.resolve object = .ok target)
    (keeps : ¬ReplacesRoot world principal (.grant names object role option)) :
    KeepsRoots (effective world.context world.acl)
      (newEdges recipient grantor target items option principal.isRoot) := by
  intro old stored edge member sameKey root
  obtain ⟨item, inside, rfl⟩ := mem_newEdges.mp member
  obtain ⟨sameRole, sameGrantor, sameTarget, samePrivilege⟩ := sameKey
  by_contra ordinary
  rw [Bool.not_eq_true] at ordinary
  refine keeps ⟨ordinary, old, (mem_candidates.mp (effective_edges_subset old stored)).1, root, ?_⟩
  rw [sameRole, sameGrantor, sameTarget, samePrivilege]
  exact ⟨known, granting, found, items, expanded, inside⟩

theorem objectGrant_sound {option : Bool} (sound : Sound world) :
    Sound (objectGrant world principal names object role option).2 := by
  rcases objectGrant_cases sound.pending with ⟨message, same⟩ | done
  · rw [same]
    exact sound
  obtain ⟨target, recipient, grantor, items, found, checked, same⟩ := done
  obtain ⟨known, expanded, granting, _⟩ := checkGrant_eq_ok checked
  have before : Recorded world.context (effective world.context world.acl) :=
    recorded_effective sound.recorded.proper
  rw [same]
  refine ⟨sound.bounded.setAcl _, sound.pending, ⟨?_, before.owner, before.proper⟩⟩
  exact recordGrants_candidates before.edge (newEdges_valid found known granting) rfl

theorem objectGrant_stable {client : Client} {option : Bool} (sound : Sound world)
    (stable : Stable world.context world.acl) (valid : validatePrincipal world client = .ok ())
    (keeps : ¬ReplacesRoot world client.principal (.grant names object role option)) :
    Stable (objectGrant world client.principal names object role option).2.context
      (objectGrant world client.principal names object role option).2.acl := by
  rcases objectGrant_cases sound.pending with ⟨message, same⟩ | done
  · rw [same]
    exact stable
  obtain ⟨target, recipient, grantor, items, found, checked, same⟩ := done
  obtain ⟨known, expanded, granting, permitted⟩ := checkGrant_eq_ok checked
  rw [same]
  refine (stable_effective world.context world.acl).record ?_ rfl rfl (newEdges_valid found known granting) ?_
  · exact keepsRoots_of_not_replaces known expanded granting found keeps
  · intro edge member
    obtain ⟨item, inside, rfl⟩ := mem_newEdges.mp member
    cases ordinary : client.principal.isRoot with
    | true => exact .inl rfl
    | false =>
        refine .inr (supportedBy_of_allowed ?_ liveOwners_effective.symm (permitted ordinary item inside))
        obtain ⟨identity, looked, active⟩ := roleId_of_valid valid
        rw [grantorId_ordinary ordinary granting, Except.ok.injEq] at looked
        exact looked ▸ active

theorem revokeObject_kept {optionOnly : Bool} (sound : Sound world) :
    Kept world (revokeObject world principal optionOnly names object role).2 := by
  simp only [revokeObject, load_settled sound.pending]
  cases found : world.resolve object with
  | error message => exact sound.refl
  | ok target =>
      dsimp only
      split
      · exact sound.refl
      · split
        · exact sound.refl
        · refine ⟨⟨sound.bounded.setAcl _, sound.pending, ?_⟩, fun _ => stable_effective _ _⟩
          refine recorded_effective fun owner member => ?_
          exact sound.recorded.proper owner (mem_liveOwners.mp member).1

end Grants

/-! ### Databases and tables -/

section Objects

variable {world : World} {principal : Principal}

theorem Bounded.addDatabase (bounded : Bounded world) (name : String) : Bounded (world.addDatabase name) := by
  refine ⟨?_, ?_, ?_⟩
  · simp only [World.addDatabase, List.map_append, List.map_cons, List.map_nil]
    refine List.nodup_append.mpr ⟨bounded.unique, List.nodup_singleton _, ?_⟩
    intro id member fresh inside same
    obtain ⟨database, present, rfl⟩ := List.mem_map.mp member
    rw [List.mem_singleton.mp inside] at same
    have small := bounded.small database present
    omega
  · intro database member
    rcases List.mem_append.mp member with old | new
    · exact (bounded.small database old).trans (Nat.le_succ _)
    · rw [List.mem_singleton.mp new]
      exact le_rfl
  · intro database member
    rcases List.mem_append.mp member with old | new
    · exact bounded.numbered database old
    · rw [List.mem_singleton.mp new]
      exact ⟨List.nodup_nil, fun table row => by cases row⟩

theorem Bounded.removeDatabase (bounded : Bounded world) (name : String) : Bounded (world.removeDatabase name) := by
  refine ⟨bounded.unique.sublist (List.filter_sublist.map _), ?_, ?_⟩
  · exact fun database member => bounded.small database (List.mem_of_mem_filter member)
  · exact fun database member => bounded.numbered database (List.mem_of_mem_filter member)

/-- A change of databases that keeps their numbers and the bounds of their tables. -/
theorem Bounded.mapDatabases (bounded : Bounded world) {change : Database → Database}
    (ids : ∀ database, (change database).id = database.id)
    (numbered : ∀ database : Database, database.Numbered → (change database).Numbered) :
    Bounded { world with databases := world.databases.map change } := by
  refine ⟨?_, ?_, ?_⟩
  · have same : ((fun database : Database => database.id) ∘ change) = fun database => database.id :=
      funext ids
    simp only [List.map_map, same]
    exact bounded.unique
  · intro database member
    obtain ⟨old, inside, rfl⟩ := List.mem_map.mp member
    exact (ids old).symm ▸ bounded.small old inside
  · intro database member
    obtain ⟨old, inside, rfl⟩ := List.mem_map.mp member
    exact numbered old (bounded.numbered old inside)

theorem Database.Numbered.addTable {database : Database} (numbered : database.Numbered) (name : String) :
    (database.addTable name).Numbered := by
  refine ⟨?_, ?_⟩
  · simp only [Database.addTable, List.map_append, List.map_cons, List.map_nil]
    refine List.nodup_append.mpr ⟨numbered.unique, List.nodup_singleton _, ?_⟩
    intro id member fresh inside same
    obtain ⟨table, row, rfl⟩ := List.mem_map.mp member
    rw [List.mem_singleton.mp inside] at same
    have small := numbered.small table row
    omega
  · intro table row
    rcases List.mem_append.mp row with before | new
    · exact (numbered.small table before).trans (Nat.le_succ _)
    · rw [List.mem_singleton.mp new]
      exact le_rfl

theorem Database.Numbered.removeTable {database : Database} (numbered : database.Numbered) (name : String) :
    (database.removeTable name).Numbered := by
  refine ⟨numbered.unique.sublist (List.filter_sublist.map _), ?_⟩
  exact fun table row => numbered.small table (List.mem_of_mem_filter row)

theorem Bounded.addTable (bounded : Bounded world) (parent name : String) :
    Bounded (world.addTable parent name) := by
  refine bounded.mapDatabases (fun database => ?_) (fun database numbered => ?_)
  · split <;> rfl
  · split
    · exact numbered.addTable name
    · exact numbered

theorem Bounded.removeTable (bounded : Bounded world) (parent name : String) :
    Bounded (world.removeTable parent name) := by
  refine bounded.mapDatabases (fun database => ?_) (fun database numbered => ?_)
  · split <;> rfl
  · split
    · exact numbered.removeTable name
    · exact numbered

theorem objectClaim_eq_ok {object : ObjectName} {next : World}
    (claimed : objectClaim world principal object = .ok next) :
    ∃ target identity, world.resolve object = .ok target ∧
      world.context.roleId principal.name = .ok identity ∧
      next = { world with acl := { world.load.2.1 with
        owners := ⟨identity, target⟩ :: world.load.2.1.owners.filter fun owner => owner.target ≠ target } } := by
  obtain ⟨acl, same⟩ := load_world world
  simp only [objectClaim, same, load_context] at claimed
  have found : World.resolve { world with acl } object = world.resolve object := rfl
  rw [found] at claimed
  cases resolved : world.resolve object with
  | error message =>
      rw [resolved] at claimed
      cases claimed
  | ok target =>
      rw [resolved] at claimed
      dsimp only at claimed
      cases looked : world.context.roleId principal.name with
      | error message =>
          rw [looked] at claimed
          cases claimed
      | ok identity =>
          rw [looked] at claimed
          exact ⟨target, identity, rfl, rfl, (Except.ok.inj claimed).symm⟩

theorem objectClaim_of_ok {object : ObjectName} {target : Target} {identity : RoleId}
    (found : world.resolve object = .ok target) (looked : world.context.roleId principal.name = .ok identity) :
    ∃ next, objectClaim world principal object = .ok next := by
  obtain ⟨acl, same⟩ := load_world world
  have resolved : World.resolve { world with acl } object = .ok target := found
  simp only [objectClaim, same, load_context, resolved, looked]
  exact ⟨_, rfl⟩

theorem claim_kept {object : ObjectName} {before next : World} (bounded : Bounded world)
    (proper : Proper world.acl) (claimed : objectClaim world principal object = .ok next)
    (fresh : ∀ target, world.resolve object = .ok target → target.kind ≠ .tables ∧
      ∀ edge ∈ world.acl.edges, edge.target ≠ target) : Kept before next := by
  obtain ⟨target, identity, found, looked, rfl⟩ := objectClaim_eq_ok claimed
  obtain ⟨kind, unused⟩ := fresh target found
  have loaded := load_recorded proper
  refine ⟨⟨bounded.setAcl _, load_pending world, loaded.edge, ?_, ?_⟩, fun _ => ?_⟩
  · intro owner member
    rcases List.mem_cons.mp member with rfl | old
    · exact ⟨knownRole_of_roleId looked, hasTarget_of_resolve found⟩
    · exact loaded.owner owner (List.mem_of_mem_filter old)
  · intro owner member
    rcases List.mem_cons.mp member with rfl | old
    · exact kind
    · exact loaded.proper owner (List.mem_of_mem_filter old)
  · exact (load_stable world).claim fun edge member => unused edge (load_edges world member)

/-- The first database of a name, after a table is added. -/
theorem findDatabase_addTable {parent name : String} {database : Database}
    (found : world.findDatabase parent = some database) :
    (world.addTable parent name).findDatabase parent = some (database.addTable name) := by
  have named : database.name = parent := by simpa using List.find?_some found
  simp only [World.findDatabase, World.addTable, List.find?_map]
  have same : ((fun database : Database => decide (database.name = parent)) ∘ fun database : Database =>
      if database.name = parent then database.addTable name else database) =
      fun database => decide (database.name = parent) := by
    funext other
    simp only [Function.comp_apply]
    split <;> rfl
  rw [same]
  have looked : (world.databases.find? fun database => decide (database.name = parent)) = some database := found
  rw [looked, Option.map_some, if_pos named]

theorem findDatabase_addDatabase {name : String} (free : world.findDatabase name = none) :
    (world.addDatabase name).findDatabase name = some ⟨world.objectHighWater + 1, name, [], 0⟩ := by
  have none : (world.databases.find? fun database => decide (database.name = name)) = Option.none := free
  simp only [World.findDatabase, World.addDatabase, List.find?_append, none, Option.none_or]
  exact List.find?_cons_of_pos (decide_eq_true rfl)

theorem resolve_addDatabase {name : String} {target : Target} (free : world.findDatabase name = none)
    (found : (world.addDatabase name).resolve (.database name) = .ok target) :
    target = Database.target ⟨world.objectHighWater + 1, name, [], 0⟩ := by
  obtain ⟨database, _, looked, ⟨_, rfl⟩ | ⟨other, _⟩ | ⟨_, _, other, _⟩⟩ := resolve_eq_ok found
  · have first : (world.addDatabase name).findDatabase name = some database := looked
    rw [findDatabase_addDatabase free] at first
    rw [← Option.some.inj first]
  · cases other
  · cases other

theorem absent_new_table (bounded : Bounded world) {database : Database} (member : database ∈ world.databases)
    {name : String} :
    world.context.hasTarget ((database.addTable name).tableTarget (name, database.highWater + 1)) = false := by
  rw [Bool.eq_false_iff]
  intro present
  obtain ⟨other, inside, number, wide | ⟨plain, _⟩ | ⟨_, table, row, same⟩⟩ := hasTarget_iff.mp present
  · cases wide
  · cases plain
  · have equal : other = database := List.inj_on_of_nodup_map bounded.unique inside member number
    subst equal
    have small := (bounded.numbered other inside).small table row
    have large : table.2 = other.highWater + 1 := Option.some.inj same
    omega

theorem absent_new_database (bounded : Bounded world) {name : String} :
    world.context.hasTarget (Database.target ⟨world.objectHighWater + 1, name, [], 0⟩) = false := by
  rw [Bool.eq_false_iff]
  intro present
  obtain ⟨other, inside, number, _⟩ := hasTarget_iff.mp present
  have small := bounded.small other inside
  have large : other.id = world.objectHighWater + 1 := number
  omega

theorem refuse_eq_ok {refusal : Option String} {next : World} (done : refuse refusal world = .ok next) :
    next = world := by
  cases refusal with
  | none => exact (Except.ok.inj done).symm
  | some message => cases done

theorem prepare_eq_ok {parent name : String} {prepared : World} (sound : Sound world)
    (done : objectPrepareCreate world principal parent name = .ok prepared) :
    (∃ acl, prepared = { world with acl } ∧ Proper acl ∧ ∀ edge ∈ acl.edges, edge ∈ world.acl.edges) ∧
      parent ≠ "" ∧ parent ≠ "system" ∧ ∃ identity, world.context.roleId principal.name = .ok identity := by
  simp only [objectPrepareCreate, load_settled sound.pending] at done
  cases resolved : world.resolve (.database parent) with
  | error message =>
      rw [resolved] at done
      cases done
  | ok target =>
      have proper : parent ≠ "" ∧ parent ≠ "system" := by
        unfold World.resolve at resolved
        split at resolved
        · cases resolved
        next filled =>
        split at resolved
        · cases resolved
        next ordinary => exact ⟨filled, ordinary⟩
      rw [resolved] at done
      dsimp only at done
      cases looked : world.context.roleId principal.name with
      | error message =>
          rw [looked] at done
          cases done
      | ok identity =>
          rw [looked] at done
          dsimp only at done
          refine ⟨?_, proper.1, proper.2, identity, rfl⟩
          split at done
          · exact ⟨world.acl, (Except.ok.inj done).symm, sound.recorded.proper, fun _ stored => stored⟩
          · refine ⟨_, (Except.ok.inj done).symm, ?_, ?_⟩
            · exact (recorded_effective sound.recorded.proper).proper
            · exact fun edge member => (mem_candidates.mp (effective_edges_subset edge member)).1

/-- The new table is found under its name. -/
theorem resolve_addTable {parent name : String} {database : Database} (filled : parent ≠ "")
    (ordinary : parent ≠ "system") (found : world.findDatabase parent = some database)
    (absent : ¬(database.tables.any fun table => decide (table.1 = name)) = true) :
    (world.addTable parent name).resolve (.table parent name) =
      .ok ((database.addTable name).tableTarget (name, database.highWater + 1)) := by
  have none : (database.tables.find? fun table => decide (table.1 = name)) = none := by
    refine List.find?_eq_none.mpr fun table row same => absent ?_
    exact List.any_eq_true.mpr ⟨table, row, same⟩
  have row : ((database.addTable name).tables.find? fun table => decide (table.1 = name)) =
      some (name, database.highWater + 1) := by
    simp [Database.addTable, List.find?_append, none]
  simp only [World.resolve, ObjectName.databaseName, if_neg filled, if_neg ordinary,
    findDatabase_addTable found, row]

/-- What creating a table does: nothing, clean up, or number the table and let its creator claim it. -/
theorem createTable_cases {parent name : String} {refusal : Option String} (sound : Sound world) :
    (∃ message, runObjectStatement world principal (.createTable parent name refusal) = (.error message, world)) ∨
    (∃ message acl, Proper acl ∧ runObjectStatement world principal (.createTable parent name refusal) =
      (.error message, objectReconcile { world with acl })) ∨
    ∃ database ∈ world.databases, ∃ acl next, Proper acl ∧ (∀ edge ∈ acl.edges, edge ∈ world.acl.edges) ∧
      World.resolve (World.addTable { world with acl } parent name) (.table parent name) =
        .ok ((database.addTable name).tableTarget (name, database.highWater + 1)) ∧
      objectClaim (World.addTable { world with acl } parent name) principal (.table parent name) = .ok next ∧
      runObjectStatement world principal (.createTable parent name refusal) = (.ok (), next) := by
  simp only [runObjectStatement]
  cases allowed : authorizeTables world principal parent [(.database parent, "create")] with
  | error message => exact .inl ⟨message, rfl⟩
  | ok _ =>
      cases done : objectPrepareCreate world principal parent name with
      | error message => exact .inl ⟨message, rfl⟩
      | ok prepared =>
          obtain ⟨⟨acl, rfl, proper, stored⟩, filled, ordinary, identity, looked⟩ := prepare_eq_ok sound done
          dsimp only
          cases added : plainCreateTable { world with acl } parent name refusal with
          | error message => exact .inr (.inl ⟨message, acl, proper, rfl⟩)
          | ok created =>
              refine .inr (.inr ?_)
              simp only [plainCreateTable] at added
              split at added
              · cases added
              next database found =>
              split at added
              · cases added
              next absent =>
              have same := refuse_eq_ok added
              subst same
              have resolved := resolve_addTable filled ordinary found absent
              have claims : ∃ next, objectClaim (World.addTable { world with acl } parent name) principal
                  (.table parent name) = .ok next := objectClaim_of_ok resolved looked
              obtain ⟨next, claimed⟩ := claims
              refine ⟨database, List.mem_of_find?_eq_some found, acl, next, proper, stored, resolved, claimed, ?_⟩
              simp only [claimed]

theorem createTable_kept {parent name : String} {refusal : Option String} (sound : Sound world) :
    Kept world (runObjectStatement world principal (.createTable parent name refusal)).2 := by
  rcases createTable_cases sound with ⟨message, same⟩ | ⟨message, acl, proper, same⟩ | done
  · rw [same]
    exact sound.refl
  · rw [same]
    exact reconcile_kept (sound.bounded.setAcl acl) proper
  · obtain ⟨database, inside, acl, next, proper, stored, resolved, claimed, same⟩ := done
    rw [same]
    refine claim_kept ((sound.bounded.setAcl acl).addTable parent name) proper claimed ?_
    intro target again
    rw [resolved] at again
    cases again
    refine ⟨Kind.noConfusion, fun edge member => ?_⟩
    exact sound.recorded.absent (absent_new_table sound.bounded inside) edge (stored edge member)

/-- What creating a database does: nothing but use up a number, or let its creator claim it. -/
theorem createDatabase_cases {name : String} {refusal : Option String} :
    (∃ message highWater, world.objectHighWater ≤ highWater ∧
      runObjectStatement world principal (.createDatabase name refusal) =
        (.error message, { world with objectHighWater := highWater })) ∨
    ∃ next, world.findDatabase name = none ∧
      objectClaim (world.addDatabase name) principal (.database name) = .ok next ∧
      runObjectStatement world principal (.createDatabase name refusal) = (.ok (), next) := by
  simp only [runObjectStatement]
  split
  · exact .inl ⟨_, world.objectHighWater, le_rfl, rfl⟩
  cases added : plainCreateDatabase world name refusal with
  | error message => exact .inl ⟨message, world.objectHighWater, le_rfl, rfl⟩
  | ok created =>
      simp only [plainCreateDatabase] at added
      split at added
      · cases added
      next free =>
      obtain ⟨_, unused⟩ := not_or.mp free
      have same := refuse_eq_ok added
      subst same
      have none : world.findDatabase name = none := by simpa using unused
      dsimp only
      cases claimed : objectClaim (world.addDatabase name) principal (.database name) with
      | ok next => exact .inr ⟨next, none, rfl, rfl⟩
      | error message =>
          -- the claim failed and the database is gone again
          refine .inl ⟨message, world.objectHighWater + 1, Nat.le_succ _, ?_⟩
          have others : ∀ database ∈ world.databases, ¬database.name = name := fun database member =>
            of_decide_eq_false (Bool.not_eq_true _ ▸ List.find?_eq_none.mp none database member)
          simpa [World.removeDatabase, World.addDatabase, List.filter_append] using others

theorem createDatabase_kept {name : String} {refusal : Option String} (sound : Sound world) :
    Kept world (runObjectStatement world principal (.createDatabase name refusal)).2 := by
  rcases @createDatabase_cases world principal name refusal with ⟨message, highWater, larger, same⟩ | done
  · rw [same]
    refine ⟨⟨⟨sound.bounded.unique, ?_, sound.bounded.numbered⟩, sound.pending, sound.recorded⟩,
      fun stable => stable⟩
    exact fun database member => (sound.bounded.small database member).trans larger
  · obtain ⟨next, free, claimed, same⟩ := done
    rw [same]
    refine claim_kept (sound.bounded.addDatabase name) sound.recorded.proper claimed ?_
    intro target found
    obtain rfl := resolve_addDatabase free found
    exact ⟨Kind.noConfusion, sound.recorded.absent (absent_new_database sound.bounded)⟩

theorem runObjectStatement_kept {command : ObjectCommand} (sound : Sound world) :
    Kept world (runObjectStatement world principal command).2 := by
  cases command with
  | createDatabase name refusal => exact createDatabase_kept sound
  | createTable parent name refusal => exact createTable_kept sound
  | dropDatabase name refusal =>
      simp only [runObjectStatement]
      split
      · exact sound.refl
      split
      · exact sound.refl
      · next dropped done =>
          rw [refuse_eq_ok done]
          exact reconcile_kept (sound.bounded.removeDatabase name) sound.recorded.proper
  | dropTable parent name refusal =>
      simp only [runObjectStatement]
      split
      · exact sound.refl
      split
      · exact sound.refl
      · next dropped done =>
          rw [refuse_eq_ok done]
          exact reconcile_kept (sound.bounded.removeTable parent name) sound.recorded.proper

end Objects

/-! ### Statements -/

section Statements

variable {world : World}

theorem step_sound {client : Client} {command : Command} (sound : Sound world) :
    Sound (step world client command).2 ∧ (¬ReplacesRoot world client.principal command →
      Stable world.context world.acl →
      Stable (step world client command).2.context (step world client command).2.acl) := by
  unfold step
  cases valid : validatePrincipal world client with
  | error message => exact ⟨sound, fun _ stable => stable⟩
  | ok _ =>
      cases command with
      | grant names object role option =>
          exact ⟨objectGrant_sound sound, fun keeps stable => objectGrant_stable sound stable valid keeps⟩
      | revoke optionOnly names object role =>
          have kept := @revokeObject_kept world client.principal names object role optionOnly sound
          exact ⟨kept.sound, fun _ => kept.stable⟩
      | account command =>
          simp only [perform]
          cases changed : runAccountCommand world client.principal command with
          | error message => exact ⟨sound, fun _ stable => stable⟩
          | ok next =>
              obtain ⟨request, done⟩ := runAccountCommand_eq_ok changed
              have proper : Proper next.acl := accountRequest_acl done ▸ sound.recorded.proper
              have kept : Kept world (objectReconcile next) :=
                reconcile_kept (accountRequest_bounded sound.bounded done) proper
              exact ⟨kept.sound, fun _ => kept.stable⟩
      | role command =>
          simp only [perform]
          cases changed : runRoleCommand world client.principal command with
          | error message => exact ⟨sound, fun _ stable => stable⟩
          | ok next =>
              have kept := runRoleCommand_kept sound changed
              exact ⟨kept.sound, fun _ => kept.stable⟩
      | object command =>
          have kept := @runObjectStatement_kept world client.principal command sound
          exact ⟨kept.sound, fun _ => kept.stable⟩

/-- The states that statements meeting a condition lead to. -/
inductive Reached (condition : World → Client → Command → Prop) (start : World) : World → Prop where
  | start : Reached condition start start
  | step {world : World} (client : Client) (command : Command) : Reached condition start world →
      condition world client command → Reached condition start (step world client command).2

theorem reached_sound {condition : World → Client → Command → Prop} {start : World} (sound : Sound start)
    (reached : Reached condition start world) : Sound world := by
  induction reached with
  | start => exact sound
  | step client command _ _ ih => exact (step_sound ih).1

/-- As long as no grant takes the place of a root grant, every stored grant has a source. -/
theorem reached_stable {start : World} (sound : Sound start) (stable : Stable start.context start.acl)
    (reached : Reached (fun world client command => ¬ReplacesRoot world client.principal command) start world) :
    Stable world.context world.acl := by
  induction reached with
  | start => exact stable
  | step client command reached keeps ih => exact (step_sound (reached_sound sound reached)).2 keeps ih

end Statements

end ChuSQL.Server.Acl
