import ChuSQL.Server.Acl.Escalation

/-! Whom a change of privileges is announced to: a search over names, from the
names in the command along memberships and along grants that count, on the state
before the command. -/

set_option autoImplicit false

namespace ChuSQL.Server.Acl

open Library.Growth

/-! ### The search -/

/-- The name of a stable number. -/
def Context.roleName (env : Context) : RoleId → String
  | .everyone => "public"
  | .root => ((env.identities.find? fun account => account.id = 0).map (·.user)).getD ""
  | .account id => ((env.identities.find? fun account => account.id = id).map (·.user)).getD ""

/-- Grants from the grantor to the role, and memberships from the role to the member. -/
def nameEdges (env : Context) (acl : ACL) : List (String × String) :=
  acl.edges.map (fun edge => (env.roleName edge.grantor, env.roleName edge.role)) ++ env.members

def nextNames (edges : List (String × String)) (seen : List String) : List String :=
  (edges.filter fun edge => edge.1 ∈ seen ∧ edge.2 ∉ seen ∧ edge.2 ≠ "").map (·.2)

def walk (edges : List (String × String)) (names : List String) : List String :=
  grow (nextNames edges) (fun seen more => (seen ++ more).eraseDups) edges.length names

/-- The identities to check again after a change that names some roles. -/
def objectAffected (world : World) (names : List String) : List String :=
  let (env, acl, _) := world.load
  let reached := walk (nameEdges env acl) names
  if "public" ∈ names then
    (reached ++ (env.identities.filter fun account => !account.isSuperuser).map (·.user)).eraseDups
  else reached

/-- The roles that hold something on an object that goes. -/
def relatedRoles (acl : ACL) (target : Target) : List RoleId :=
  (acl.edges.filter fun edge =>
    if target.kind = .database then edge.target.database = target.database
    else covers edge.target target).map (·.role) ++
  (acl.owners.filter fun owner => owner.target = target).map (·.role)

def objectUsers (world : World) (object : ObjectName) : Except String (List String) :=
  let (env, acl, loaded) := world.load
  match loaded.resolve object with
  | .error message => .error message
  | .ok target =>
      let names := ((relatedRoles acl target).map env.roleName).eraseDups
      .ok ((objectAffected loaded names).filter fun name =>
        !env.identities.any fun account => account.user = name ∧ account.isSuperuser)

/-- The names in a command that change what roles hold. -/
def directNames : Command → List String
  | .grant _ _ role _ | .revoke _ _ _ role => [role]
  | .account (.drop name) | .account (.alter name _) => [name]
  | .role (.drop role) => [role]
  | .role (.grant _ members) | .role (.revoke _ members) => members
  | .account (.create _) | .account (.reset _) | .role (.create _) | .object _ => []

/-- The names a session announces when it runs a command. -/
def notified (world : World) (command : Command) : Except String (List String) :=
  match command with
  | .account (.create _) => .ok []
  | .account (.reset name) => .ok [name]
  | .object (.dropTable parent name _) => objectUsers world (.table parent name)
  | .object (.dropDatabase name _) => objectUsers world (.database name)
  | .object (.createTable _ _ _) | .object (.createDatabase _ _) => .ok []
  | command => .ok (objectAffected world (directNames command))

theorem mem_nextNames {edges : List (String × String)} {seen : List String} {name : String} :
    name ∈ nextNames edges seen ↔ name ∉ seen ∧ name ≠ "" ∧ ∃ parent ∈ seen, (parent, name) ∈ edges := by
  simp only [nextNames, List.mem_map, List.mem_filter, decide_eq_true_eq]
  constructor
  · rintro ⟨edge, ⟨member, parent, fresh, filled⟩, rfl⟩
    exact ⟨fresh, filled, edge.1, parent, member⟩
  · rintro ⟨fresh, filled, parent, inside, member⟩
    exact ⟨(parent, name), ⟨member, inside, fresh, filled⟩, rfl⟩

theorem mem_names_join (seen more : List String) (name : String) :
    name ∈ (seen ++ more).eraseDups ↔ name ∈ seen ∨ name ∈ more := by
  rw [List.mem_eraseDups, List.mem_append]

theorem subset_walk {edges : List (String × String)} {names : List String} {name : String}
    (member : name ∈ names) : name ∈ walk edges names :=
  subset_grow mem_names_join _ member

/-- The search leaves no edge from a name it found to one it did not. -/
theorem walk_closed {edges : List (String × String)} {names : List String} {parent child : String}
    (edge : (parent, child) ∈ edges) (found : parent ∈ walk edges names) (filled : child ≠ "") :
    child ∈ walk edges names := by
  have pool : ∀ seen, ∀ name ∈ nextNames edges seen, name ∈ edges.map (·.2) ∧ name ∉ seen := by
    intro seen name missing
    obtain ⟨fresh, _, parent, _, member⟩ := mem_nextNames.mp missing
    exact ⟨List.mem_map.mpr ⟨(parent, name), member, rfl⟩, fresh⟩
  have closed := grow_closed mem_names_join pool edges.length names
    ((List.length_filter_le _ _).trans (by rw [List.length_map]))
  by_contra fresh
  have missing : child ∈ nextNames edges (walk edges names) :=
    mem_nextNames.mpr ⟨fresh, filled, parent, found, edge⟩
  rw [walk, closed] at missing
  cases missing

/-- One name leads to another along memberships and counting grants. -/
def Leads (edges : List (String × String)) (start name : String) : Prop :=
  Relation.ReflTransGen (fun parent child => (parent, child) ∈ edges ∧ child ≠ "") start name

/-- The search finds what its names lead to. -/
theorem mem_walk {edges : List (String × String)} {names : List String} {name : String} :
    name ∈ walk edges names ↔ ∃ start ∈ names, Leads edges start name := by
  constructor
  · have found := @grow_induction _ (nextNames edges) _ mem_names_join
      (fun name => ∃ start ∈ names, Leads edges start name) ?_ edges.length names ?_
    · exact found name
    · intro seen reached child missing
      obtain ⟨_, filled, parent, inside, edge⟩ := mem_nextNames.mp missing
      obtain ⟨start, member, path⟩ := reached parent inside
      exact ⟨start, member, path.tail ⟨edge, filled⟩⟩
    · exact fun item member => ⟨item, member, .refl⟩
  · rintro ⟨start, member, path⟩
    induction path with
    | refl => exact subset_walk member
    | tail _ edge ih => exact walk_closed edge.1 ih edge.2

/-! ### Roles that a change does not reach -/

/-- A change of the context and the privileges, and roles it does not reach: what
they inherit, own and hold directly stays, and their grants come from such roles. -/
structure Spares (spared : RoleId → Prop) (env other : Context) (acl next : ACL) : Prop where
  active : ∀ role, spared role → other.active role = env.active role
  known : ∀ role, spared role → other.knownRole role = env.knownRole role
  inherits : ∀ child parent, spared child → (Inherits other child parent ↔ Inherits env child parent)
  above : ∀ child parent, spared child → Inherits env child parent → spared parent
  everyone : spared .everyone
  scope : ∀ source target, covers source target = true → env.hasTarget target = true →
    other.hasTarget target = true → env.hasTarget source = true ∧ other.hasTarget source = true
  owner : ∀ owner, spared owner.role → env.hasTarget owner.target = true →
    other.hasTarget owner.target = true → (owner ∈ liveOwners env acl ↔ owner ∈ liveOwners other next)
  grantor : ∀ edge, Sourced env acl edge → spared edge.role →
    other.knownRole edge.grantor = true ∧ (edge.root = true ∨ spared edge.grantor)
  stored : ∀ edge, Sourced env acl edge → spared edge.role → edge ∈ next.edges
  back : ∀ edge, Sourced other next edge → spared edge.role → env.hasTarget edge.target = true →
    Sourced env acl edge

namespace Spares

variable {spared : RoleId → Prop} {env other : Context} {acl next : ACL}

theorem roles (spares : Spares spared env other acl next) {value : RoleId} (start : spared value)
    {role : RoleId} : role ∈ env.roles value ↔ role ∈ other.roles value := by
  rw [mem_roles, mem_roles]
  refine or_congr_right ⟨fun path => ?_, fun path => ?_⟩
  · have both : spared role ∧ Relation.ReflTransGen (Inherits other) value role := by
      induction path with
      | refl => exact ⟨start, .refl⟩
      | tail _ inherits ih =>
          exact ⟨spares.above _ _ ih.1 inherits, ih.2.tail ((spares.inherits _ _ ih.1).mpr inherits)⟩
    exact both.2
  · have both : spared role ∧ Relation.ReflTransGen (Inherits env) value role := by
      induction path with
      | refl => exact ⟨start, .refl⟩
      | tail _ inherits ih =>
          have before := (spares.inherits _ _ ih.1).mp inherits
          exact ⟨spares.above _ _ ih.1 before, ih.2.tail before⟩
    exact both.2

theorem spared_roles (spares : Spares spared env other acl next) {value role : RoleId}
    (start : spared value) (member : role ∈ env.roles value) : spared role := by
  cases mem_roles.mp member with
  | inl same => exact same ▸ spares.everyone
  | inr path =>
      induction path with
      | refl => exact start
      | tail path inherits ih => exact spares.above _ _ (ih (mem_roles.mpr (.inr path))) inherits

/-- Ownership of what exists before and after. -/
theorem owns_eq (spares : Spares spared env other acl next) {identity : RoleId} (start : spared identity)
    {target : Target} (before : env.hasTarget target = true) (after : other.hasTarget target = true) :
    owns env { acl with owners := liveOwners env acl } identity target = true ↔
      owns other { next with owners := liveOwners other next } identity target = true := by
  rw [owns_iff, owns_iff]
  constructor
  · rintro ⟨owner, live, inherited, rfl, active⟩
    have reached := spares.spared_roles start inherited
    refine ⟨owner, (spares.owner owner reached before after).mp live, (spares.roles start).mp inherited,
      rfl, ?_⟩
    rwa [spares.active _ reached]
  · rintro ⟨owner, live, inherited, rfl, active⟩
    have inherited := (spares.roles start).mpr inherited
    have reached := spares.spared_roles start inherited
    refine ⟨owner, (spares.owner owner reached before after).mpr live, inherited, rfl, ?_⟩
    rwa [← spares.active _ reached]

/-- Grants to spared roles on objects that stay keep counting. -/
theorem sourced (spares : Spares spared env other acl next) {edge : Edge} (counts : Sourced env acl edge)
    (reached : spared edge.role) (after : other.hasTarget edge.target = true) :
    Sourced other next edge := by
  have candidate : ∀ edge, Sourced env acl edge → spared edge.role → other.hasTarget edge.target = true →
      edge ∈ candidates other next := by
    intro edge counts reached after
    obtain ⟨_, known, _, _⟩ := mem_candidates.mp counts.candidate
    refine mem_candidates.mpr ⟨spares.stored edge counts reached, ?_, (spares.grantor edge counts reached).1, after⟩
    rwa [spares.known _ reached]
  induction counts with
  | root stored isRoot => exact .root (candidate _ (.root stored isRoot) reached after) isRoot
  | @owner edge stored active owned =>
      have counts : Sourced env acl edge := .owner stored active owned
      obtain ⟨_, isRoot | granting⟩ := spares.grantor edge counts reached
      · exact .root (candidate edge counts reached after) isRoot
      · have before := (mem_candidates.mp stored).2.2.2
        refine .owner (candidate edge counts reached after) ?_ ((spares.owns_eq granting before after).mp owned)
        rwa [spares.active _ granting]
  | @grant source edge stored active supports sourced ih =>
      have counts : Sourced env acl edge := .grant stored active supports sourced
      obtain ⟨_, isRoot | granting⟩ := spares.grantor edge counts reached
      · exact .root (candidate edge counts reached after) isRoot
      · obtain ⟨sourceActive, option, inherited, privilege, covered⟩ := supports
        have sourceSpared := spares.spared_roles granting inherited
        have before := (mem_candidates.mp stored).2.2.2
        have present := (spares.scope _ _ covered before after).2
        refine .grant (candidate edge counts reached after) ?_ ?_ (ih sourceSpared present)
        · rwa [spares.active _ granting]
        · refine ⟨?_, option, (spares.roles granting).mp inherited, privilege, covered⟩
          rwa [spares.active _ sourceSpared]

/-- Spared identities may do the same as before on what exists before and after. -/
theorem allowed_eq (spares : Spares spared env other acl next) {identity : RoleId}
    (start : spared identity) {target : Target} {privilege : String} {option : Bool}
    (before : env.hasTarget target = true) (after : other.hasTarget target = true)
    (closed : target.kind = .database →
      (target.database ∈ (effective env acl).closed ↔ target.database ∈ (effective other next).closed)) :
    allowed env (effective env acl) identity target privilege option =
      allowed other (effective other next) identity target privilege option := by
  rw [Bool.eq_iff_iff, allowed_iff, allowed_iff]
  refine or_congr ?_ (or_congr ?_ ?_)
  · exact spares.owns_eq start before after
  · refine and_congr_right fun _ => and_congr_right fun _ => and_congr_right fun kind => ?_
    rw [closed kind]
  · constructor
    · rintro ⟨edge, member, active, inherited, same, covered, held⟩
      have reached := spares.spared_roles start inherited
      have present := (spares.scope _ _ covered before after).2
      refine ⟨edge, mem_effective.mpr (spares.sourced (mem_effective.mp member) reached present), ?_,
        (spares.roles start).mp inherited, same, covered, held⟩
      rwa [spares.active _ reached]
    · rintro ⟨edge, member, active, inherited, same, covered, held⟩
      have inherited := (spares.roles start).mpr inherited
      have reached := spares.spared_roles start inherited
      have present := (spares.scope _ _ covered before after).1
      refine ⟨edge, mem_effective.mpr (spares.back edge (mem_effective.mp member) reached present), ?_,
        inherited, same, covered, held⟩
      rwa [← spares.active _ reached]

end Spares

/-! ### Names and numbers -/

/-- Names and numbers of the stored identities are unique, as each reading of the
account table checks. -/
structure Named (env : Context) : Prop where
  filled : ∀ account ∈ env.identities, account.user ≠ ""
  users : (env.identities.map (·.user)).Nodup
  numbers : (env.identities.map (·.id)).Nodup

theorem named_of_valid {world : World} (valid : validIdentities world.identities = true) :
    Named world.context := by
  simp only [validIdentities, decide_eq_true_eq, List.all_eq_true, accountName] at valid
  exact ⟨fun account member => (valid.1 account member).1.1, valid.2.1, valid.2.2⟩

section Names

variable {env : Context}

theorem roleName_account (named : Named env) {account : Account} (member : account ∈ env.identities) :
    env.roleName (.account account.id) = account.user := by
  simp only [Context.roleName]
  cases found : env.identities.find? fun other => other.id = account.id with
  | none =>
      have missing := List.find?_eq_none.mp found account member
      simp at missing
  | some other =>
      have same : other.id = account.id := by simpa using List.find?_some found
      have equal : other = account := List.inj_on_of_nodup_map named.numbers
        (List.mem_of_find?_eq_some found) member same
      rw [equal]
      rfl

/-- Who a name stands for has that name. -/
theorem roleName_of_roleId (named : Named env) {name : String} {role : RoleId}
    (found : env.roleId name = .ok role) : env.roleName role = name ∧ name ≠ "" ∧ role ≠ .root := by
  unfold Context.roleId at found
  split at found
  · next id only =>
      cases found
      have member : id ∈ (env.identities.filter fun account => account.user = name).map (·.id) := by
        rw [only]
        exact List.mem_singleton_self id
      obtain ⟨account, inside, rfl⟩ := List.mem_map.mp member
      obtain ⟨stored, user⟩ := List.mem_filter.mp inside
      simp only [decide_eq_true_eq] at user
      subst user
      exact ⟨roleName_account named stored, named.filled account stored, by simp⟩
  · split at found
    · next everybody =>
        cases found
        exact ⟨everybody.symm, by rw [everybody]; decide, by simp⟩
    · cases found
  · cases found

/-- A role that exists has a name, the administrator's number apart. -/
theorem roleName_filled (named : Named env) {role : RoleId} (known : env.knownRole role = true)
    (proper : role ≠ .root) : env.roleName role ≠ "" := by
  cases role with
  | root => exact absurd rfl proper
  | everyone => simp [Context.roleName]
  | account id =>
      simp only [Context.knownRole, List.any_eq_true, decide_eq_true_eq] at known
      obtain ⟨account, member, rfl⟩ := known
      rw [roleName_account named member]
      exact named.filled account member

/-- Roles whose name the search does not find. -/
def Spared (env : Context) (reached : List String) (role : RoleId) : Prop :=
  role ≠ .root ∧ (env.roleName role = "" ∨ env.roleName role ∉ reached)

theorem spared_of_roleId (named : Named env) {reached : List String} {name : String} {role : RoleId}
    (found : env.roleId name = .ok role) : Spared env reached role ↔ name ∉ reached := by
  obtain ⟨same, filled, proper⟩ := roleName_of_roleId named found
  simp [Spared, same, filled, proper]

theorem inherits_iff {child parent : RoleId} : Inherits env child parent ↔
    ∃ row ∈ env.members, env.roleId row.1 = .ok parent ∧ env.roleId row.2 = .ok child ∧
      env.active parent = true ∧ env.active child = true := by
  constructor
  · intro inherits
    obtain ⟨row, member, pair⟩ := List.mem_filterMap.mp inherits
    refine ⟨row, member, ?_⟩
    obtain ⟨parentName, childName⟩ := row
    dsimp only at pair ⊢
    cases upper : env.roleId parentName with
    | error message => rw [upper] at pair; cases pair
    | ok upperRole =>
        cases lower : env.roleId childName with
        | error message => rw [upper, lower] at pair; cases pair
        | ok lowerRole =>
            rw [upper, lower] at pair
            dsimp only at pair
            split at pair
            · next both =>
                cases pair
                exact ⟨rfl, rfl, both.1, both.2⟩
            · cases pair
  · rintro ⟨row, member, upper, lower, above, below⟩
    refine List.mem_filterMap.mpr ⟨row, member, ?_⟩
    obtain ⟨parentName, childName⟩ := row
    dsimp only at upper lower ⊢
    rw [upper, lower]
    exact if_pos ⟨above, below⟩

end Names

/-- What contains an object exists with it. -/
theorem hasTarget_of_covers {world : World} {source target : Target} (covered : covers source target = true)
    (present : world.context.hasTarget target = true) : world.context.hasTarget source = true := by
  simp only [covers, decide_eq_true_eq] at covered
  obtain ⟨number, ⟨wide, _⟩ | ⟨kind, table⟩⟩ := covered
  · obtain ⟨database, inside, same, _⟩ := hasTarget_iff.mp present
    exact hasTarget_iff.mpr ⟨database, inside, same.trans number.symm, .inl wide⟩
  · obtain ⟨database, inside, same, scope⟩ := hasTarget_iff.mp present
    refine hasTarget_iff.mpr ⟨database, inside, same.trans number.symm, ?_⟩
    rw [kind, table]
    exact scope

/-! ### The search spares what the change does not reach -/

section Outside

variable {env other : Context} {acl : ACL} {names : List String}

/-- The names the search finds. -/
abbrev reachedNames (env : Context) (acl : ACL) (names : List String) : List String :=
  walk (nameEdges env (effective env acl)) names

/-- Spared roles inherit from spared roles. -/
theorem spared_above (named : Named env) {child parent : RoleId}
    (spared : Spared env (reachedNames env acl names) child) (inherits : Inherits env child parent) :
    Spared env (reachedNames env acl names) parent := by
  obtain ⟨row, member, upper, lower, _⟩ := inherits_iff.mp inherits
  rw [spared_of_roleId named upper]
  rw [spared_of_roleId named lower] at spared
  intro reached
  have edge : (row.1, row.2) ∈ nameEdges env (effective env acl) := List.mem_append_right _ member
  exact spared (walk_closed edge reached (roleName_of_roleId named lower).2.1)

/-- Counting grants to spared roles come from the administrator or spared roles. -/
theorem spared_grantor (named : Named env) {edge : Edge} (counts : Sourced env acl edge)
    (spared : Spared env (reachedNames env acl names) edge.role) :
    edge.grantor = .root ∨ Spared env (reachedNames env acl names) edge.grantor := by
  by_cases root : edge.grantor = .root
  · exact .inl root
  · refine .inr ⟨root, .inr fun reached => ?_⟩
    have known := (mem_candidates.mp counts.candidate).2.1
    have filled := roleName_filled named known spared.1
    have row : (env.roleName edge.grantor, env.roleName edge.role) ∈ nameEdges env (effective env acl) :=
      List.mem_append_left _ (List.mem_map.mpr ⟨edge, mem_effective.mpr counts, rfl⟩)
    cases spared.2 with
    | inl empty => exact filled empty
    | inr fresh => exact fresh (walk_closed row reached filled)

/-- A change of identities and memberships within the names that were found. -/
structure Outside (reached : List String) (env other : Context) : Prop where
  names : ∀ name, name ∉ reached → other.roleId name = env.roleId name
  inside : ∀ name ∈ reached, ∀ role, other.roleId name = .ok role → ¬Spared env reached role
  kept : ∀ row ∈ env.members, row.1 ∉ reached → row.2 ∉ reached → row ∈ other.members
  old : ∀ row ∈ other.members, row.2 ∉ reached → row ∈ env.members
  accounts : ∀ account : Account, Spared env reached (.account account.id) →
    (account ∈ other.identities ↔ account ∈ env.identities)
  targets : other.targets = env.targets

namespace Outside

variable {reached : List String}

theorem active (outside : Outside reached env other) {role : RoleId} (spared : Spared env reached role) :
    other.active role = env.active role := by
  cases role with
  | root => rfl
  | everyone => rfl
  | account id =>
      rw [Bool.eq_iff_iff]
      simp only [Context.active, List.any_eq_true, decide_eq_true_eq]
      constructor
      · rintro ⟨account, member, rfl, enabled⟩
        exact ⟨account, (outside.accounts account spared).mp member, rfl, enabled⟩
      · rintro ⟨account, member, rfl, enabled⟩
        exact ⟨account, (outside.accounts account spared).mpr member, rfl, enabled⟩

theorem known (outside : Outside reached env other) {role : RoleId} (spared : Spared env reached role) :
    other.knownRole role = env.knownRole role := by
  cases role with
  | root => rfl
  | everyone => rfl
  | account id =>
      rw [Bool.eq_iff_iff]
      simp only [Context.knownRole, List.any_eq_true, decide_eq_true_eq]
      constructor
      · rintro ⟨account, member, rfl⟩
        exact ⟨account, (outside.accounts account spared).mp member, rfl⟩
      · rintro ⟨account, member, rfl⟩
        exact ⟨account, (outside.accounts account spared).mpr member, rfl⟩

end Outside

theorem Outside.inherits (named : Named env) (outside : Outside (reachedNames env acl names) env other)
    {child parent : RoleId} (spared : Spared env (reachedNames env acl names) child) :
    Inherits other child parent ↔ Inherits env child parent := by
  constructor
  · intro inherits
    obtain ⟨row, member, upper, lower, above, below⟩ := inherits_iff.mp inherits
    have freshChild : row.2 ∉ reachedNames env acl names := fun reached =>
      outside.inside row.2 reached child lower spared
    have lowerBefore := (outside.names row.2 freshChild).symm.trans lower
    have memberBefore := outside.old row member freshChild
    have freshParent : row.1 ∉ reachedNames env acl names := fun reached =>
      freshChild (walk_closed (List.mem_append_right _ memberBefore) reached
        (roleName_of_roleId named lowerBefore).2.1)
    have upperBefore := (outside.names row.1 freshParent).symm.trans upper
    have sparedParent := (spared_of_roleId named upperBefore).mpr freshParent
    refine inherits_iff.mpr ⟨row, memberBefore, upperBefore, lowerBefore, ?_, ?_⟩
    · rwa [← outside.active sparedParent]
    · rwa [← outside.active spared]
  · intro inherits
    have sparedParent := spared_above named spared inherits
    obtain ⟨row, member, upper, lower, above, below⟩ := inherits_iff.mp inherits
    have freshChild := (spared_of_roleId named lower).mp spared
    have freshParent := (spared_of_roleId named upper).mp sparedParent
    refine inherits_iff.mpr ⟨row, outside.kept row member freshParent freshChild, ?_, ?_, ?_, ?_⟩
    · rw [outside.names row.1 freshParent, upper]
    · rw [outside.names row.2 freshChild, lower]
    · rwa [outside.active sparedParent]
    · rwa [outside.active spared]

end Outside

end ChuSQL.Server.Acl
