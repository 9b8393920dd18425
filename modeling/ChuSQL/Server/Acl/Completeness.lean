import ChuSQL.Server.Acl.Announced

/-! Everybody whose privileges a command changes is announced, where the search
for them does not come to `public` on the way. -/

set_option autoImplicit false

namespace ChuSQL.Server.Acl

open Library

/-! ### The state the commands start from -/

section Load

variable {world : World}

theorem load_done : world.load.2.2.acl.pending = [] := by
  rcases load_cases world with ⟨settled, loaded⟩ | loaded
  · rw [loaded]
    exact settled
  · rw [loaded]
    rfl

theorem load_again : world.load.2.2.load = world.load := by
  rw [load_settled load_done]
  rcases load_cases world with ⟨_, loaded⟩ | loaded
  · rw [loaded]
  · rw [loaded]
    rfl

theorem load_permitted (identity : RoleId) (target : Target) (privilege : String) (option : Bool) :
    permitted world.load.2.2 identity target privilege option =
      permitted world identity target privilege option := by
  rw [permitted, load_again, permitted]

theorem load_databases : world.load.2.2.databases = world.databases := by
  obtain ⟨acl, same⟩ := load_world world
  rw [same]

theorem load_identities : world.load.2.2.identities = world.identities := by
  obtain ⟨acl, same⟩ := load_world world
  rw [same]

theorem resolve_congr {other : World} (databases : other.databases = world.databases) (object : ObjectName) :
    other.resolve object = world.resolve object := by
  simp only [World.resolve, World.findDatabase, databases]

theorem load_objectAffected (names : List String) :
    objectAffected world.load.2.2 names = objectAffected world names := by
  simp only [objectAffected, load_again]

theorem load_notified (command : Command) : notified world.load.2.2 command = notified world command := by
  unfold notified
  split <;> simp only [objectUsers, load_again, load_objectAffected]

end Load

/-! ### Role commands -/

section Roles

variable {world : World} {principal : Principal} {names : List String} {role : String}
  {members : List String} {identity : RoleId} {target : Target} {privilege : String} {held : Bool}

theorem runRoleCommand_drop {next : World} (done : runRoleCommand world principal (.drop role) = .ok next) :
    ∃ changed, accountRequest world (.drop role) = .ok changed ∧ next = objectReconcile changed := by
  simp only [runRoleCommand] at done
  split at done
  · cases done
  · cases changed : accountRequest world (.drop role) with
    | error message =>
        rw [changed] at done
        cases done
    | ok other =>
        rw [changed] at done
        exact ⟨other, rfl, (Except.ok.inj done).symm⟩

/-- Memberships that go leave fewer above each role. -/
theorem grows_back_members {members : List (String × String)} (fewer : ∀ row ∈ members, row ∈ world.members) :
    Grows { world with members }.context world.context := by
  refine ⟨fun _ active => active, fun _ known => known, fun child parent inherits => ?_,
    fun _ present => present⟩
  refine Inherits.grow ?_ ?_ ?_ inherits
  · exact fun _ _ found => found
  · exact fun _ active => active
  · exact fun row member => fewer row member

theorem permitted_members {members : List (String × String)} (settled : world.acl.pending = []) :
    permitted { world with members } identity target privilege held =
      allowed { world with members }.context (effective { world with members }.context world.acl)
        identity target privilege held := permitted_settled settled

theorem permitted_fewer_members {members : List (String × String)} (settled : world.acl.pending = []) :
    permitted (objectReconcile { world with members }) identity target privilege held =
      allowed { world with members }.context (effective { world with members }.context world.acl)
        identity target privilege held :=
  @permitted_reconciled { world with members } settled identity target privilege held

theorem role_spares {command : RoleCommand} (settled : world.acl.pending = []) (named : Named world.context)
    (listed : ∀ role, command ≠ .create role)
    (fresh : "public" ∉ reachedNames world.context world.acl (directNames (.role command)))
    (numbered : RootNumbered world.acl)
    (counted : ∀ role members, command = .grant role members → Settled world.context world.acl)
    (start : Spared world.context (reachedNames world.context world.acl (directNames (.role command))) identity)
    (present : world.context.hasTarget target = true) :
    permitted world identity target privilege held =
      permitted (perform world principal (.role command)).2 identity target privilege held := by
  simp only [perform]
  cases done : runRoleCommand world principal command with
  | error message => rfl
  | ok next =>
      dsimp only
      cases command with
      | create role => exact absurd rfl (listed role)
      | drop role =>
          obtain ⟨changed, dropped, rfl⟩ := runRoleCommand_drop done
          exact drop_spares settled named (List.mem_singleton_self role) fresh numbered dropped start present
      | grant role members =>
          simp only [runRoleCommand] at done
          split at done
          · cases done
          cases valid : validateMembers (readRoleNames world) world.members role members with
          | error message =>
              rw [valid] at done
              cases done
          | ok _ =>
              rw [valid] at done
              cases done
              refine Eq.trans ?_ (permitted_members settled).symm
              refine members_spares settled named fresh numbered ?_ ?_ ?_ start present
              · exact fun row member _ => List.mem_append_left _ member
              · intro row member absent
                refine (List.mem_append.mp member).resolve_right fun added => absent ?_
                obtain ⟨name, listed, rfl⟩ := List.mem_map.mp added
                exact subset_walk (List.mem_filter.mp listed).1
              · intro edge counts
                refine (counted role members rfl).back ?_ ?_ counts
                · exact fun _ known => known
                · rfl
      | revoke role members =>
          simp only [runRoleCommand] at done
          split at done
          · cases done
          cases done
          refine Eq.trans ?_ (permitted_fewer_members settled).symm
          refine members_spares settled named fresh numbered ?_ ?_ ?_ start present
          · intro row member absent
            refine List.mem_filter.mpr ⟨member, decide_eq_true fun both => absent ?_⟩
            exact subset_walk both.2
          · exact fun row member _ => (List.mem_filter.mp member).1
          · exact fun edge counts => sourced_back
              (grows_back_members fun row member => (List.mem_filter.mp member).1) counts

theorem account_spares {command : AccountCommand} (settled : world.acl.pending = []) (named : Named world.context)
    (listed : (∃ name, command = .drop name) ∨ ∃ name attributes, command = .alter name attributes)
    (fresh : "public" ∉ reachedNames world.context world.acl (directNames (.account command)))
    (numbered : RootNumbered world.acl)
    (counted : ∀ name attributes, command = .alter name attributes → Settled world.context world.acl)
    (start : Spared world.context (reachedNames world.context world.acl (directNames (.account command))) identity)
    (present : world.context.hasTarget target = true) :
    permitted world identity target privilege held =
      permitted (perform world principal (.account command)).2 identity target privilege held := by
  simp only [perform]
  cases done : runAccountCommand world principal command with
  | error message => rfl
  | ok next =>
      dsimp only
      obtain ⟨name, rfl⟩ | ⟨name, attributes, rfl⟩ := listed
      · exact drop_spares settled named (List.mem_singleton_self name) fresh numbered
          (runAccountCommand_drop done) start present
      · obtain ⟨canLogin, isSuperuser, enabled, manager, changed⟩ := runAccountCommand_alter done
        exact alter_spares settled named (List.mem_singleton_self name) fresh numbered
          (counted name attributes rfl) changed start present

end Roles

/-! ### Objects that go -/

section Objects

variable {world : World} {principal : Principal} {object : ObjectName} {target : Target}

theorem dropTable_cases {parent name : String} {refusal : Option String} :
    (runObjectStatement world principal (.dropTable parent name refusal)).2 = world ∨
      (runObjectStatement world principal (.dropTable parent name refusal)).2 =
        objectReconcile (world.removeTable parent name) := by
  simp only [runObjectStatement]
  split
  · exact .inl rfl
  · split
    · exact .inl rfl
    · next dropped done =>
        rw [refuse_eq_ok done]
        exact .inr rfl

theorem dropDatabase_cases {name : String} {refusal : Option String} :
    (runObjectStatement world principal (.dropDatabase name refusal)).2 = world ∨
      (runObjectStatement world principal (.dropDatabase name refusal)).2 =
        objectReconcile (world.removeDatabase name) := by
  simp only [runObjectStatement]
  split
  · exact .inl rfl
  · split
    · exact .inl rfl
    · next dropped done =>
        rw [refuse_eq_ok done]
        exact .inr rfl

/-- Only the table itself goes. -/
theorem stays_or_table {parent name : String} (found : world.resolve object = .ok target) :
    (world.removeTable parent name).context.hasTarget target = true ∨ object = .table parent name := by
  obtain ⟨database, inside, _, parts⟩ := resolve_eq_ok found
  have mapped : (if database.name = parent then database.removeTable name else database) ∈
      (world.removeTable parent name).databases := List.mem_map.mpr ⟨database, inside, rfl⟩
  rw [hasTarget_iff]
  obtain ⟨_, rfl⟩ | ⟨_, rfl⟩ | ⟨table, row, rfl, rfl⟩ := parts
  · refine .inl ⟨_, mapped, ?_, .inr (.inl ⟨rfl, rfl⟩)⟩
    split <;> rfl
  · refine .inl ⟨_, mapped, ?_, .inl rfl⟩
    split <;> rfl
  · by_cases dropped : database.name = parent ∧ table.1 = name
    · rw [dropped.1, dropped.2]
      exact .inr rfl
    · refine .inl ⟨_, mapped, ?_, .inr (.inr ⟨rfl, table, ?_, rfl⟩)⟩
      · split <;> rfl
      · split
        · next here =>
            refine List.mem_filter.mpr ⟨row, decide_eq_true fun same => dropped ⟨here, same⟩⟩
        · exact row

theorem stays_or_database {name : String} (found : world.resolve object = .ok target) :
    (world.removeDatabase name).context.hasTarget target = true ∨ object.databaseName = name := by
  obtain ⟨database, inside, looked, parts⟩ := resolve_eq_ok found
  have named : database.name = object.databaseName := by simpa using List.find?_some looked
  by_cases dropped : database.name = name
  · exact .inr (named.symm.trans dropped)
  · have kept : database ∈ (world.removeDatabase name).databases :=
      List.mem_filter.mpr ⟨inside, decide_eq_true dropped⟩
    rw [hasTarget_iff]
    obtain ⟨_, rfl⟩ | ⟨_, rfl⟩ | ⟨table, row, _, rfl⟩ := parts
    · exact .inl ⟨database, kept, rfl, .inr (.inl ⟨rfl, rfl⟩)⟩
    · exact .inl ⟨database, kept, rfl, .inl rfl⟩
    · exact .inl ⟨database, kept, rfl, .inr (.inr ⟨rfl, table, row, rfl⟩)⟩

/-- Objects of one database have its number. -/
theorem resolve_database {name : String} {other : Target} (found : world.resolve object = .ok target)
    (named : object.databaseName = name) (whole : world.resolve (.database name) = .ok other) :
    target.database = other.database := by
  obtain ⟨database, _, looked, parts⟩ := resolve_eq_ok found
  obtain ⟨same, _, again, whole⟩ := resolve_eq_ok whole
  have again : world.findDatabase name = some same := again
  rw [named, again] at looked
  cases looked
  obtain ⟨_, rfl⟩ | ⟨refused, _⟩ | ⟨_, _, refused, _⟩ := whole
  · obtain ⟨_, rfl⟩ | ⟨_, rfl⟩ | ⟨_, _, _, rfl⟩ := parts <;> rfl
  · cases refused
  · cases refused

/-- Who has a related role is announced. -/
theorem related_announced (settled : world.acl.pending = []) (named : Named world.context) {account : Account}
    (member : account ∈ world.identities) (ordinary : account.isSuperuser = false) {role : RoleId}
    {roles : List RoleId} (related : role ∈ roles)
    (inherited : role ∈ world.context.roles (.account account.id)) :
    account.user ∈ objectAffected world ((roles.map world.context.roleName).eraseDups) := by
  have listed : world.context.roleName role ∈ (roles.map world.context.roleName).eraseDups := by
    rw [List.mem_eraseDups]
    exact List.mem_map_of_mem related
  have named_ := roleName_account named member
  simp only [objectAffected, load_settled settled]
  by_cases everyone : role = .everyone
  · subst everyone
    have direct : "public" ∈ (roles.map world.context.roleName).eraseDups := listed
    rw [if_pos direct, List.mem_eraseDups]
    refine List.mem_append_right _ (List.mem_map.mpr ⟨account, ?_, rfl⟩)
    exact List.mem_filter.mpr ⟨member, by simp [ordinary]⟩
  · have reached : account.user ∈ reachedNames world.context world.acl
        ((roles.map world.context.roleName).eraseDups) := by
      by_contra absent
      have start : Spared world.context (reachedNames world.context world.acl
          ((roles.map world.context.roleName).eraseDups)) (.account account.id) :=
        ⟨by simp, .inr (by rwa [named_])⟩
      have spared : Spared world.context (reachedNames world.context world.acl
          ((roles.map world.context.roleName).eraseDups)) role ∧ world.context.roleName role ≠ "" := by
        cases mem_roles.mp inherited with
        | inl same => exact absurd same everyone
        | inr path =>
            clear related listed everyone inherited
            induction path with
            | refl => exact ⟨start, by rw [named_]; exact named.filled account member⟩
            | tail _ inherits ih =>
                obtain ⟨row, _, upper, _⟩ := inherits_iff.mp inherits
                have name := roleName_of_roleId named upper
                exact ⟨spared_above named ih.1 inherits, by rw [name.1]; exact name.2.1⟩
      cases spared.1.2 with
      | inl empty => exact spared.2 empty
      | inr fresh => exact fresh (subset_walk listed)
    split
    · rw [List.mem_eraseDups]
      exact List.mem_append_left _ reached
    · exact reached

/-- The names of the roles that hold something on an object that goes, superusers left out. -/
theorem objectUsers_eq_ok {names : List String} (settled : world.acl.pending = [])
    (announced : objectUsers world object = .ok names) : ∃ target, world.resolve object = .ok target ∧
      names = (objectAffected world (((relatedRoles (effective world.context world.acl) target).map
        world.context.roleName).eraseDups)).filter fun name =>
          !world.identities.any fun account => account.user = name ∧ account.isSuperuser := by
  simp only [objectUsers, load_settled settled] at announced
  split at announced
  · cases announced
  · next target found =>
      cases announced
      exact ⟨target, found, rfl⟩

theorem ordinary_kept (named : Named world.context) {account : Account} (member : account ∈ world.identities)
    (ordinary : account.isSuperuser = false) {names : List String} (found : account.user ∈ names) :
    account.user ∈ names.filter fun name =>
      !world.identities.any fun account => account.user = name ∧ account.isSuperuser := by
  refine List.mem_filter.mpr ⟨found, ?_⟩
  rw [Bool.not_eq_true', List.any_eq_false]
  intro other inside both
  obtain ⟨same, super⟩ := of_decide_eq_true both
  have equal : other = account := List.inj_on_of_nodup_map named.users inside member same
  rw [equal, ordinary] at super
  cases super

theorem grows_removed {removed : World} (identities : removed.identities = world.identities)
    (members : removed.members = world.members)
    (fewer : ∀ target, removed.context.hasTarget target = true → world.context.hasTarget target = true) :
    Grows removed.context world.context := by
  have active : removed.context.active = world.context.active := by
    funext role
    cases role <;> simp only [Context.active, World.context, identities]
  have known : removed.context.knownRole = world.context.knownRole := by
    funext role
    cases role <;> simp only [Context.knownRole, World.context, identities]
  refine ⟨fun role => by rw [active]; exact fun holds => holds,
    fun role => by rw [known]; exact fun holds => holds, fun child parent inherits => ?_, fewer⟩
  rw [inherits_iff, active] at inherits
  simpa only [inherits_iff, Context.roleId, World.context, identities, members] using inherits

/-- Nobody gains anything on objects that go; a database that was open stays so. -/
theorem removed_back {removed : World} (settled : world.acl.pending = [])
    (grows : Grows removed.context world.context) (acl : removed.acl = world.acl) {identity : RoleId}
    {privilege : String} {held : Bool}
    (opened : target.kind = .database → target.database ∉ world.acl.closed)
    (after : permitted (objectReconcile removed) identity target privilege held = true) :
    permitted world identity target privilege held = true := by
  rw [permitted_reconciled (acl ▸ settled), allowed_iff, acl] at after
  rw [permitted_settled settled, allowed_iff]
  rcases after with owned | ⟨option, connect, kind, _⟩ | ⟨edge, member, active, inherited, same, covered, option⟩
  · exact .inl (owns_live_mono grows (fun owner stored _ => stored) owned)
  · refine .inr (.inl ⟨option, connect, kind, fun closed => opened kind ?_⟩)
    exact (List.mem_filter.mp closed).1
  · refine .inr (.inr ⟨edge, ?_, grows.active _ active, roles_mono grows.inherits inherited, same, covered, option⟩)
    exact mem_effective.mpr (sourced_back grows (mem_effective.mp member))

/-- Owners of what is in a database own it or hold a grant in it, and everybody may
connect to it. -/
def Covered (world : World) (target : Target) : Prop :=
  target.database ∉ world.acl.closed ∧ ∀ owner ∈ world.acl.owners, owner.target.database = target.database →
    owner.target = target ∨ ∃ edge ∈ (effective world.context world.acl).edges,
      edge.role = owner.role ∧ edge.target.database = target.database

instance (world : World) (target : Target) : Decidable (Covered world target) :=
  inferInstanceAs (Decidable (_ ∧ ∀ owner ∈ world.acl.owners, _ → _))

/-- A role behind each privilege on an object that goes. -/
theorem related_of_permitted (settled : world.acl.pending = []) {whole : Target} {identity : RoleId}
    {privilege : String} {held : Bool} (inside : target.database = whole.database)
    (scope : whole.kind = .database ∨ target = whole)
    (owners : whole.kind = .database → Covered world whole)
    (before : permitted world identity target privilege held = true) :
    (held = false ∧ privilege = "connect" ∧ target.kind = .database) ∨
      ∃ role ∈ relatedRoles (effective world.context world.acl) whole, role ∈ world.context.roles identity := by
  rw [permitted_settled settled, allowed_iff] at before
  have byEdge : ∀ edge ∈ (effective world.context world.acl).edges,
      (whole.kind = .database → edge.target.database = whole.database) →
      (whole.kind ≠ .database → covers edge.target whole = true) →
      edge.role ∈ relatedRoles (effective world.context world.acl) whole := by
    intro edge member wide narrow
    refine List.mem_append_left _ (List.mem_map.mpr ⟨edge, List.mem_filter.mpr ⟨member, ?_⟩, rfl⟩)
    split
    · next kind => exact decide_eq_true (wide kind)
    · next kind => exact narrow kind
  rcases before with owned | ⟨option, connect, kind, _⟩ | ⟨edge, member, _, inherited, _, covered, _⟩
  · obtain ⟨owner, live, inherited, same, _⟩ := owns_iff.mp owned
    have stored := mem_liveOwners.mp live
    have direct : owner.target = whole → owner.role ∈ relatedRoles (effective world.context world.acl) whole := by
      intro same
      exact List.mem_append_right _ (List.mem_map.mpr ⟨owner, List.mem_filter.mpr ⟨live, decide_eq_true same⟩, rfl⟩)
    refine .inr ⟨owner.role, ?_, inherited⟩
    rcases scope with wide | equal
    · have number : owner.target.database = whole.database := by rw [same, inside]
      rcases (owners wide).2 owner stored.1 number with same | ⟨edge, member, role, number⟩
      · exact direct same
      · rw [← role]
        exact byEdge edge member (fun _ => number) (fun narrow => absurd wide narrow)
    · exact direct (same.trans equal)
  · exact .inl ⟨option, connect, kind⟩
  · refine .inr ⟨edge.role, byEdge edge member (fun _ => ?_) (fun narrow => ?_), inherited⟩
    · have covering := covered
      simp only [covers, decide_eq_true_eq] at covering
      exact covering.1.trans inside
    · rcases scope with wide | equal
      · exact absurd wide narrow
      · rwa [← equal]

end Objects

/-! ### Everybody affected is announced -/

/-- The statements that change what roles hold. -/
def Command.changesPrivileges : Command → Bool
  | .grant _ _ _ _ | .revoke _ _ _ _ => true
  | .account (.drop _) | .account (.alter _ _) => true
  | .role (.drop _) | .role (.grant _ _) | .role (.revoke _ _) => true
  | .object (.dropTable _ _ _) | .object (.dropDatabase _ _) => true
  | .account (.create _) | .account (.reset _) | .role (.create _) => false
  | .object (.createTable _ _ _) | .object (.createDatabase _ _) => false

/-- Statements after which an identity may inherit from more roles. -/
def Command.connects : Command → Bool
  | .role (.grant _ _) | .account (.alter _ _) => true
  | _ => false

/-- Nothing a statement changes passes through `public` unless it names it; nothing
that was recorded waits for a new source. -/
structure Careful (world : World) (command : Command) : Prop where
  numbered : RootNumbered world.acl
  everyone : ∀ name ∈ directNames command,
    Leads (nameEdges world.context (effective world.context world.acl)) name "public" →
      "public" ∈ directNames command
  counted : command.connects = true → Settled world.context world.acl
  covered : ∀ name refusal target, command = .object (.dropDatabase name refusal) →
    world.resolve (.database name) = .ok target → Covered world target

section Announced

variable {world : World} {principal : Principal} {command : Command} {names : List String} {account : Account}
  {object : ObjectName} {target : Target} {privilege : String} {option : Bool}

/-- Who is not announced is out of reach, and so is `public`. -/
theorem spared_of_not_announced (settled : world.acl.pending = []) (named : Named world.context)
    (careful : Careful world command) (member : account ∈ world.identities)
    (ordinary : account.isSuperuser = false)
    (missing : account.user ∉ objectAffected world (directNames command)) :
    "public" ∉ reachedNames world.context world.acl (directNames command) ∧
      Spared world.context (reachedNames world.context world.acl (directNames command))
        (.account account.id) := by
  simp only [objectAffected, load_settled settled] at missing
  split at missing
  · refine absurd ?_ missing
    rw [List.mem_eraseDups]
    refine List.mem_append_right _ (List.mem_map.mpr ⟨account, ?_, rfl⟩)
    exact List.mem_filter.mpr ⟨member, by simp [ordinary]⟩
  · next fresh =>
      refine ⟨fun reached => fresh ?_, by simp, .inr ?_⟩
      · obtain ⟨name, direct, path⟩ := mem_walk.mp reached
        exact careful.everyone name direct path
      · rw [roleName_account named member]
        exact missing

/-- What goes with a dropped object. -/
theorem dropped_announced (settled : world.acl.pending = []) (named : Named world.context)
    (member : account ∈ world.identities) (ordinary : account.isSuperuser = false) {removed : World}
    (grows : Grows removed.context world.context) (acl : removed.acl = world.acl) {dropped : ObjectName}
    {whole : Target} (announced : objectUsers world dropped = .ok names)
    (found : world.resolve dropped = .ok whole) (inside : target.database = whole.database)
    (scope : whole.kind = .database ∨ target = whole ∧ target.kind ≠ .database)
    (owners : whole.kind = .database → Covered world whole)
    (differs : permitted world (.account account.id) target privilege option ≠
      permitted (objectReconcile removed) (.account account.id) target privilege option) :
    account.user ∈ names := by
  obtain ⟨same, again, rfl⟩ := objectUsers_eq_ok settled announced
  rw [found] at again
  cases again
  have opened : target.kind = .database → target.database ∉ world.acl.closed := by
    intro kind
    rw [inside]
    exact (owners (scope.resolve_right fun narrow => narrow.2 kind)).1
  refine ordinary_kept named member ordinary ?_
  cases before : permitted world (.account account.id) target privilege option with
  | false =>
      cases after : permitted (objectReconcile removed) (.account account.id) target privilege option with
      | false => exact absurd (before.trans after.symm) differs
      | true =>
          rw [removed_back settled grows acl opened after] at before
          cases before
  | true =>
      rcases related_of_permitted settled inside (scope.imp_right And.left) owners before with
        ⟨rfl, rfl, kind⟩ | ⟨role, related, inherited⟩
      · refine absurd ?_ differs
        rw [before, permitted_reconciled (acl ▸ settled), eq_comm, allowed_iff]
        refine .inr (.inl ⟨rfl, rfl, kind, fun closed => opened kind ?_⟩)
        rw [← acl]
        exact (List.mem_filter.mp closed).1
      · exact related_announced settled named member ordinary related inherited

theorem table_announced {parent name : String} {refusal : Option String} (settled : world.acl.pending = [])
    (named : Named world.context) (numbered : RootNumbered world.acl)
    (announced : objectUsers world (.table parent name) = .ok names)
    (member : account ∈ world.identities) (ordinary : account.isSuperuser = false)
    (existing : world.resolve object = .ok target)
    (differs : permitted world (.account account.id) target privilege option ≠
      permitted (runObjectStatement world principal (.dropTable parent name refusal)).2
        (.account account.id) target privilege option) : account.user ∈ names := by
  have fewer := fun target => @hasTarget_removeTable world parent name target
  have grows : Grows (world.removeTable parent name).context world.context := grows_removed rfl rfl fewer
  rcases @dropTable_cases world principal parent name refusal with same | same
  · exact absurd (by rw [same]) differs
  · rw [same] at differs
    rcases @stays_or_table world object target parent name existing with stays | dropped
    · exact absurd (@removed_permitted world settled named numbered (world.removeTable parent name) rfl rfl rfl
        fewer _ _ _ _ (hasTarget_of_resolve existing) stays) differs
    · subst dropped
      have kind : target.kind ≠ .database := by
        obtain ⟨_, _, _, ⟨other, _⟩ | ⟨other, _⟩ | ⟨_, _, _, rfl⟩⟩ := resolve_eq_ok existing
        · cases other
        · cases other
        · simp [Database.tableTarget]
      exact dropped_announced settled named member ordinary grows rfl announced existing rfl (.inr ⟨rfl, kind⟩)
        (fun whole => absurd whole kind) differs

theorem database_announced {name : String} {refusal : Option String} (settled : world.acl.pending = [])
    (named : Named world.context) (numbered : RootNumbered world.acl)
    (covered : ∀ whole, world.resolve (.database name) = .ok whole → Covered world whole)
    (announced : objectUsers world (.database name) = .ok names)
    (member : account ∈ world.identities) (ordinary : account.isSuperuser = false)
    (existing : world.resolve object = .ok target)
    (differs : permitted world (.account account.id) target privilege option ≠
      permitted (runObjectStatement world principal (.dropDatabase name refusal)).2
        (.account account.id) target privilege option) : account.user ∈ names := by
  have fewer := fun target => @hasTarget_removeDatabase world name target
  have grows : Grows (world.removeDatabase name).context world.context := grows_removed rfl rfl fewer
  rcases @dropDatabase_cases world principal name refusal with same | same
  · exact absurd (by rw [same]) differs
  · rw [same] at differs
    rcases @stays_or_database world object target name existing with stays | inside
    · exact absurd (@removed_permitted world settled named numbered (world.removeDatabase name) rfl rfl rfl
        fewer _ _ _ _ (hasTarget_of_resolve existing) stays) differs
    · obtain ⟨whole, found, _⟩ := objectUsers_eq_ok settled announced
      have kind : whole.kind = .database := by
        obtain ⟨_, _, _, ⟨_, rfl⟩ | ⟨other, _⟩ | ⟨_, _, other, _⟩⟩ := resolve_eq_ok found
        · rfl
        · cases other
        · cases other
      exact dropped_announced settled named member ordinary grows rfl announced found
        (resolve_database existing inside found) (.inl kind) (fun _ => covered whole found) differs

theorem settled_notified (settled : world.acl.pending = []) (named : Named world.context)
    (listed : command.changesPrivileges = true) (announced : notified world command = .ok names)
    (careful : Careful world command) (member : account ∈ world.identities)
    (ordinary : account.isSuperuser = false) (existing : world.resolve object = .ok target)
    (differs : permitted world (.account account.id) target privilege option ≠
      permitted (perform world principal command).2 (.account account.id) target privilege option) :
    account.user ∈ names := by
  have present := hasTarget_of_resolve existing
  have outside : names = objectAffected world (directNames command) → account.user ∉ names →
      "public" ∉ reachedNames world.context world.acl (directNames command) ∧
        Spared world.context (reachedNames world.context world.acl (directNames command))
          (.account account.id) :=
    fun same missing => spared_of_not_announced settled named careful member ordinary (same ▸ missing)
  by_contra missing
  cases command with
  | grant items named_ role option =>
      obtain ⟨fresh, start⟩ := outside (Except.ok.inj announced).symm missing
      exact differs (grant_spares settled named (List.mem_singleton_self role) fresh careful.numbered start present)
  | revoke optionOnly items named_ role =>
      obtain ⟨fresh, start⟩ := outside (Except.ok.inj announced).symm missing
      exact differs (revoke_spares settled named (List.mem_singleton_self role) fresh careful.numbered start present)
  | role command =>
      obtain ⟨fresh, start⟩ := outside (Except.ok.inj announced).symm missing
      refine differs (role_spares settled named ?_ fresh careful.numbered ?_ start present)
      · rintro role rfl
        cases listed
      · rintro role members rfl
        exact careful.counted rfl
  | account command =>
      cases command with
      | create name => cases listed
      | reset name => cases listed
      | drop name =>
          obtain ⟨fresh, start⟩ := outside (Except.ok.inj announced).symm missing
          refine differs (account_spares settled named (.inl ⟨name, rfl⟩) fresh careful.numbered ?_ start present)
          exact fun _ _ same => by cases same
      | alter name attributes =>
          obtain ⟨fresh, start⟩ := outside (Except.ok.inj announced).symm missing
          refine differs (account_spares settled named (.inr ⟨name, attributes, rfl⟩) fresh careful.numbered ?_
            start present)
          exact fun _ _ _ => careful.counted rfl
  | object command =>
      cases command with
      | createDatabase name refusal => cases listed
      | createTable parent name refusal => cases listed
      | dropTable parent name refusal =>
          exact missing (table_announced settled named careful.numbered announced member ordinary existing differs)
      | dropDatabase name refusal =>
          exact missing (database_announced settled named careful.numbered
            (fun whole found => careful.covered name refusal whole rfl found) announced member ordinary existing
            differs)

end Announced

/-- An administrator, Ann and Bob. -/
def square : World where
  identities := [⟨1, "admin", true, true, true, false, 1⟩, ⟨2, "ann", true, false, true, false, 1⟩,
    ⟨3, "bob", true, false, true, false, 1⟩]
  identityHighWater := 3
  members := []
  databases := [⟨1, "shop", [("items", 1)], 1⟩]
  objectHighWater := 1
  acl := ⟨[], [], [], []⟩

def ann : Client := ⟨.ordinary ⟨2, "ann", true, false, true, false, 1⟩, 2, 1⟩

/-- Ann may pass on what she reads, and does. -/
def passed (role : String) : World :=
  run square [(admin, .grant ["select"] (.table "shop" "items") "ann" true),
    (ann, .grant ["select"] (.table "shop" "items") role false)]

def revokeAnn : Command := .revoke false ["select"] (.table "shop" "items") "ann"

def shopItems : Target := ⟨1, some 1, .table, "shop.items"⟩

instance (acl : ACL) : Decidable (RootNumbered acl) :=
  inferInstanceAs (Decidable (∀ edge ∈ acl.edges, edge.grantor = .root → edge.root = true))

theorem careful_passed : Careful (passed "bob").load.2.2 revokeAnn := by
  refine ⟨by decide +kernel, fun name direct path => ?_, fun connects => ?_, fun _ _ _ same => ?_⟩
  · have reached := mem_walk.mpr ⟨name, direct, path⟩
    revert reached
    decide +kernel
  · cases connects
  · cases same

end ChuSQL.Server.Acl
