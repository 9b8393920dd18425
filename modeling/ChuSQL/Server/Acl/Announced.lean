import ChuSQL.Server.Acl.Notify

/-! Which commands announce everybody whose privileges they change. -/

set_option autoImplicit false

namespace ChuSQL.Server.Acl

open Library Library.Growth

/-! ### Identities and memberships -/

section Outside

variable {env other : Context} {acl : ACL} {names : List String}

theorem hasTarget_same (targets : other.targets = env.targets) (target : Target) :
    other.hasTarget target = env.hasTarget target := by
  simp only [Context.hasTarget, targets]

/-- No grant under the administrator's own number depends on a source. -/
def RootNumbered (acl : ACL) : Prop := ∀ edge ∈ acl.edges, edge.grantor = .root → edge.root = true

/-- A change within the names that were found spares the roles of other names. -/
theorem Outside.spares (named : Named env) (outside : Outside (reachedNames env acl names) env other)
    (fresh : "public" ∉ reachedNames env acl names) (numbered : RootNumbered acl)
    (scope : ∀ source target, covers source target = true → env.hasTarget target = true →
      env.hasTarget source = true)
    (back : ∀ edge, Sourced other acl edge → Spared env (reachedNames env acl names) edge.role →
      Sourced env acl edge) :
    Spares (Spared env (reachedNames env acl names)) env other acl acl where
  active := fun _ spared => outside.active spared
  known := fun _ spared => outside.known spared
  inherits := fun _ _ spared => outside.inherits named spared
  above := fun _ _ spared inherits => spared_above named spared inherits
  everyone := ⟨by simp, .inr fresh⟩
  scope := by
    intro source target covered before _
    have present := scope source target covered before
    exact ⟨present, by rwa [hasTarget_same outside.targets]⟩
  owner := by
    intro owner spared before after
    rw [mem_liveOwners, mem_liveOwners, outside.known spared, before, after]
  grantor := by
    intro edge counts spared
    have stored := mem_candidates.mp counts.candidate
    cases spared_grantor named counts spared with
    | inl root => exact ⟨by rw [root]; rfl, .inl (numbered edge stored.1 root)⟩
    | inr granting => exact ⟨by rw [outside.known granting]; exact stored.2.2.1, .inr granting⟩
  stored := fun _ counts _ => (mem_candidates.mp counts.candidate).1
  back := fun edge counts spared _ => back edge counts spared

/-- A smaller context supports no grant that a larger one does not. -/
theorem sourced_back (grows : Grows other env) {edge : Edge} (counts : Sourced other acl edge) :
    Sourced env acl edge := by
  refine Sourced.map (fun edge => edge) grows ?_ ?_ ?_ ?_ ?_ counts
  · exact fun edge candidate => (mem_candidates.mp candidate).1
  · exact fun edge => ⟨rfl, rfl, rfl, rfl⟩
  · exact fun _ _ option => option
  · exact fun _ _ root => root
  · exact fun edge _ owned => owns_live_mono grows (fun owner stored _ => stored) owned

/-- Every recorded grant about roles and objects that exist counts. -/
def Settled (env : Context) (acl : ACL) : Prop :=
  ∀ edge ∈ candidates env acl, edge ∈ (effective env acl).edges

instance (env : Context) (acl : ACL) : Decidable (Settled env acl) :=
  inferInstanceAs (Decidable (∀ edge ∈ candidates env acl, edge ∈ (effective env acl).edges))

/-- Where all recorded grants count, none starts to. -/
theorem Settled.back (settled : Settled env acl) (known : ∀ role, other.knownRole role = true →
      env.knownRole role = true) (targets : other.targets = env.targets) {edge : Edge}
    (counts : Sourced other acl edge) : Sourced env acl edge := by
  obtain ⟨stored, role, grantor, present⟩ := mem_candidates.mp counts.candidate
  rw [hasTarget_same targets] at present
  exact mem_effective.mp (settled edge
    (mem_candidates.mpr ⟨stored, known _ role, known _ grantor, present⟩))

/-- Memberships of names that were found. -/
theorem outside_members (named : Named env) {members : List (String × String)}
    (kept : ∀ row ∈ env.members, row.2 ∉ reachedNames env acl names → row ∈ members)
    (old : ∀ row ∈ members, row.2 ∉ reachedNames env acl names → row ∈ env.members) :
    Outside (reachedNames env acl names) env { env with members } where
  names := fun _ _ => rfl
  inside := fun _ reached _ found spared => (spared_of_roleId named found).mp spared reached
  kept := fun row member _ fresh => kept row member fresh
  old := old
  accounts := fun _ _ => Iff.rfl
  targets := rfl

end Outside

section Accounts

variable {world next : World} {names : List String} {user : String}

/-- The identities after a change of one of them. -/
structure Changed (user : String) (before after : List Account) : Prop where
  others : ∀ account : Account, account.user ≠ user → (account ∈ after ↔ account ∈ before)
  filtered : ∀ name, name ≠ user → (after.filter fun account => account.user = name) =
    before.filter fun account => account.user = name
  same : ∀ account ∈ after, account.user = user → ∃ old ∈ before, old.user = user ∧ old.id = account.id

theorem revised_same {account changed : Account} (done : account.revised = .ok changed) :
    changed.user = account.user ∧ changed.id = account.id := by
  unfold Account.revised at done
  split at done
  · cases done
    exact ⟨rfl, rfl⟩
  · cases done

theorem dropped_eq {accounts changed : List Account} {highWater : Nat}
    (done : changeIdentities accounts highWater (.drop user) = .ok changed) :
    changed = accounts.filter fun account => account.user ≠ user := by
  simp only [changeIdentities] at done
  split at done
  · cases done
  · split at done
    · obtain ⟨_, _, same⟩ := bind_eq_ok.mp done
      exact (Except.ok.inj same).symm
    · exact (Except.ok.inj done).symm

theorem changed_drop {accounts changed : List Account} {highWater : Nat}
    (done : changeIdentities accounts highWater (.drop user) = .ok changed) :
    Changed user accounts changed := by
  have result := dropped_eq done
  subst result
  refine ⟨fun account other => by simp [other], fun name other => ?_, fun account member named => ?_⟩
  · rw [List.filter_filter]
    refine List.filter_congr fun account _ => ?_
    by_cases same : account.user = name
    · simp [same, other]
    · simp [same]
  · exact absurd named (by simpa using (List.mem_filter.mp member).2)

theorem changed_alter {accounts changed : List Account} {highWater : Nat}
    {canLogin isSuperuser enabled manager : Option Bool}
    (done : changeIdentities accounts highWater (.alter user canLogin isSuperuser enabled manager) =
      .ok changed) : Changed user accounts changed := by
  have result : ∃ account replaced, account ∈ accounts ∧ account.user = user ∧ replaced.user = user ∧
      replaced.id = account.id ∧
      changed = accounts.map fun other => if other.user = user then replaced else other := by
    simp only [changeIdentities] at done
    split at done
    · cases done
    · next account found =>
        obtain ⟨replaced, revised, done⟩ := bind_eq_ok.mp done
        obtain ⟨sameUser, sameId⟩ := revised_same revised
        have named : account.user = user := by simpa using List.find?_some found
        refine ⟨account, replaced, List.mem_of_find?_eq_some found, named, sameUser.trans named, sameId, ?_⟩
        split at done
        · obtain ⟨_, _, same⟩ := bind_eq_ok.mp done
          exact (Except.ok.inj same).symm
        · exact (Except.ok.inj done).symm
  obtain ⟨old, replaced, stored, oldNamed, named, sameId, rfl⟩ := result
  refine ⟨fun account other => ?_, fun name other => ?_, fun account member same => ?_⟩
  · rw [List.mem_map]
    constructor
    · rintro ⟨source, member, rfl⟩
      split at other
      · exact absurd named other
      · next apart => rwa [if_neg apart]
    · intro member
      exact ⟨account, member, if_neg other⟩
  · clear stored done
    induction accounts with
    | nil => rfl
    | cons account rest ih =>
        rw [List.map_cons, List.filter_cons, List.filter_cons, ih]
        by_cases held : account.user = user
        · simp [held, named, other.symm]
        · simp [held]
  · obtain ⟨source, member, rfl⟩ := List.mem_map.mp member
    split
    · exact ⟨old, stored, oldNamed, sameId.symm⟩
    · next apart =>
        rw [if_neg apart] at same
        exact absurd same apart

/-- A change of one identity stays within the names found from it. -/
theorem outside_accounts {request : Request} (named : Named world.context)
    (changes : ∀ accounts, changeIdentities world.identities world.identityHighWater request = .ok accounts →
      Changed user world.identities accounts)
    (direct : user ∈ names) (fresh : "public" ∉ reachedNames world.context world.acl names)
    (done : accountRequest world request = .ok next) :
    Outside (reachedNames world.context world.acl names) world.context next.context := by
  obtain ⟨accounts, identities, built⟩ := accountRequest_eq_ok done
  have changed := changes accounts identities
  have sameAccounts : next.identities = accounts := by rw [built]
  have reached : user ∈ reachedNames world.context world.acl names := subset_walk direct
  have resolves : ∀ name, name ≠ user → next.context.roleId name = world.context.roleId name := by
    intro name other
    simp only [Context.roleId, World.context, sameAccounts, changed.filtered name other]
  have apart : ∀ {name}, name ∉ reachedNames world.context world.acl names → name ≠ user := by
    rintro name absent rfl
    exact absent reached
  have userOf : ∀ account ∈ world.identities,
      Spared world.context (reachedNames world.context world.acl names) (.account account.id) →
        account.user ≠ user := by
    rintro account member spared rfl
    have name := roleName_account named member
    cases spared.2 with
    | inl empty => exact named.filled account member (name.symm.trans empty)
    | inr missing => exact missing (name ▸ reached)
  have stays : ∀ name, name ∉ reachedNames world.context world.acl names →
      name ∉ (world.identities.map (·.user)).filter fun user => user ∉ accounts.map (·.user) := by
    intro name absent removed
    obtain ⟨listed, gone⟩ := List.mem_filter.mp removed
    obtain ⟨account, member, rfl⟩ := List.mem_map.mp listed
    rw [decide_eq_true_eq] at gone
    exact gone (List.mem_map_of_mem ((changed.others account (apart absent)).mpr member))
  refine ⟨fun name absent => resolves name (apart absent), ?_, ?_, ?_, ?_, ?_⟩
  · intro name inside role found
    by_cases same : name = user
    · subst same
      unfold Context.roleId at found
      split at found
      · next id only =>
          cases found
          have member : id ∈ (next.context.identities.filter fun account => account.user = name).map (·.id) := by
            rw [only]
            exact List.mem_singleton_self id
          obtain ⟨account, listed, rfl⟩ := List.mem_map.mp member
          obtain ⟨stored, user⟩ := List.mem_filter.mp listed
          obtain ⟨old, before, oldUser, sameId⟩ := changed.same account (sameAccounts ▸ stored)
            (by simpa using user)
          intro spared
          rw [← sameId] at spared
          exact userOf old before spared oldUser
      · split at found
        · next everybody => exact absurd (everybody ▸ reached) fresh
        · cases found
      · cases found
    · rw [resolves name same] at found
      exact fun spared => (spared_of_roleId named found).mp spared inside
  · intro row member freshParent freshChild
    have kept : row ∈ next.members := by
      rw [built]
      exact List.mem_filter.mpr ⟨member, decide_eq_true ⟨stays _ freshParent, stays _ freshChild⟩⟩
    exact kept
  · intro row member _
    have kept : row ∈ next.members := member
    rw [built] at kept
    exact (List.mem_filter.mp kept).1
  · intro account spared
    have iff : account.user ≠ user → (account ∈ next.identities ↔ account ∈ world.identities) := by
      rw [sameAccounts]
      exact changed.others account
    constructor
    · intro member
      by_cases same : account.user = user
      · obtain ⟨old, before, oldUser, sameId⟩ := changed.same account (sameAccounts ▸ member) same
        rw [← sameId] at spared
        exact absurd oldUser (userOf old before spared)
      · exact (iff same).mp member
    · intro member
      exact (iff (userOf account member spared)).mpr member
  · have same : next.databases = world.databases := by rw [built]
    simp only [World.context, World.targets, same]

end Accounts

/-! ### What stays permitted -/

section Permitted

variable {world next : World} {spared : RoleId → Prop} {acl : ACL}

theorem permitted_reconciled {changed : World} (settled : changed.acl.pending = []) (identity : RoleId)
    (target : Target) (privilege : String) (option : Bool) :
    permitted (objectReconcile changed) identity target privilege option =
      allowed changed.context (effective changed.context changed.acl) identity target privilege option := by
  have written : (objectReconcile changed).acl.pending = [] := by
    rw [objectReconcile_eq, load_settled settled]
    exact settled
  rw [permitted_settled written, objectReconcile_eq, load_settled settled]
  show allowed changed.context (effective changed.context (effective changed.context changed.acl)) _ _ _ _ = _
  rw [effective_idempotent]

theorem mem_effective_closed {env : Context} {acl : ACL} {target : Target} (kind : target.kind = .database)
    (present : env.hasTarget target = true) :
    target.database ∈ (effective env acl).closed ↔ target.database ∈ acl.closed := by
  simp only [Context.hasTarget, List.any_eq_true, decide_eq_true_eq, kind] at present
  obtain ⟨found, member, number, ⟨wide, _⟩ | ⟨same, _⟩⟩ := present
  · cases wide
  · simp only [effective, List.mem_filter, List.any_eq_true, decide_eq_true_eq, and_iff_left_iff_imp]
    exact fun _ => ⟨found, member, same, number⟩

/-- Spared identities are permitted the same on what exists before and after. -/
theorem spared_permitted (settled : world.acl.pending = [])
    (spares : Spares spared world.context next.context world.acl acl) {identity : RoleId}
    (start : spared identity) {target : Target} {privilege : String} {option : Bool}
    (after : permitted next identity target privilege option =
      allowed next.context (effective next.context acl) identity target privilege option)
    (present : world.context.hasTarget target = true) (stays : next.context.hasTarget target = true)
    (closed : target.kind = .database → (target.database ∈ world.acl.closed ↔ target.database ∈ acl.closed)) :
    permitted world identity target privilege option = permitted next identity target privilege option := by
  rw [permitted_settled settled, after]
  refine spares.allowed_eq start present stays fun kind => ?_
  rw [mem_effective_closed kind present, mem_effective_closed kind stays]
  exact closed kind

end Permitted

/-! ### Grants and revokes -/

section Grants

variable {world : World} {principal : Principal} {names items : List String} {object : ObjectName}
  {role : String}

/-- A change of grants to roles that were found. -/
theorem spares_edges {env : Context} {acl next : ACL} (named : Named env)
    (fresh : "public" ∉ reachedNames env acl names) (numbered : RootNumbered acl)
    (scope : ∀ source target, covers source target = true → env.hasTarget target = true →
      env.hasTarget source = true)
    (owners : next.owners = liveOwners env acl)
    (edges : ∀ edge, Spared env (reachedNames env acl names) edge.role →
      (edge ∈ next.edges ↔ Sourced env acl edge)) :
    Spares (Spared env (reachedNames env acl names)) env env acl next where
  active := fun _ _ => rfl
  known := fun _ _ => rfl
  inherits := fun _ _ _ => Iff.rfl
  above := fun _ _ spared inherits => spared_above named spared inherits
  everyone := ⟨by simp, .inr fresh⟩
  scope := fun source target covered before _ => ⟨scope source target covered before, scope source target covered before⟩
  owner := by
    intro owner _ _ _
    rw [@mem_liveOwners env next, owners, mem_liveOwners]
    exact ⟨fun live => ⟨live, live.2⟩, fun live => live.1⟩
  grantor := by
    intro edge counts spared
    have stored := mem_candidates.mp counts.candidate
    cases spared_grantor named counts spared with
    | inl root => exact ⟨stored.2.2.1, .inl (numbered edge stored.1 root)⟩
    | inr granting => exact ⟨stored.2.2.1, .inr granting⟩
  stored := fun edge counts spared => (edges edge spared).mpr counts
  back := fun edge counts spared _ => (edges edge spared).mp (mem_candidates.mp counts.candidate).1

theorem recipient_found {env : Context} {acl : ACL} (named : Named env) (direct : role ∈ names)
    {recipient : RoleId} (resolved : env.roleId role = .ok recipient) :
    ¬Spared env (reachedNames env acl names) recipient := fun spared =>
  (spared_of_roleId named resolved).mp spared (subset_walk direct)

theorem recipient_not_everyone {env : Context} {acl : ACL} (named : Named env) (direct : role ∈ names)
    (fresh : "public" ∉ reachedNames env acl names) {recipient : RoleId}
    (resolved : env.roleId role = .ok recipient) : recipient ≠ .everyone := by
  rintro rfl
  have name := (roleName_of_roleId named resolved).1
  have same : role = "public" := name.symm
  exact fresh (same ▸ subset_walk direct)

theorem grant_spares {option : Bool} (settled : world.acl.pending = []) (named : Named world.context)
    (direct : role ∈ names) (fresh : "public" ∉ reachedNames world.context world.acl names)
    (numbered : RootNumbered world.acl) {identity : RoleId}
    (start : Spared world.context (reachedNames world.context world.acl names) identity) {target : Target}
    {privilege : String} {held : Bool} (present : world.context.hasTarget target = true) :
    permitted world identity target privilege held =
      permitted (objectGrant world principal items object role option).2 identity target privilege held := by
  rcases @objectGrant_cases _ principal items object role settled option with ⟨message, refused⟩ | ⟨scope, recipient, grantor, expanded, _, checked, done⟩
  · rw [refused]
  · have resolved := (checkGrant_eq_ok checked).1
    have notEveryone := recipient_not_everyone named direct fresh resolved
    rw [done]
    simp only [notEveryone, false_and, if_false]
    refine @spared_permitted _ _ _ { effective world.context world.acl with
      edges := recordGrants (effective world.context world.acl)
        (newEdges recipient grantor scope expanded option principal.isRoot) }
      settled ?_ _ start _ _ _ ?_ present present ?_
    · refine spares_edges named fresh numbered (fun _ _ => hasTarget_of_covers) rfl fun edge spared => ?_
      have other : ∀ recorded ∈ newEdges recipient grantor scope expanded option principal.isRoot,
          edge.role ≠ recorded.role := by
        intro recorded member same
        obtain ⟨item, _, rfl⟩ := mem_newEdges.mp member
        exact recipient_found named direct resolved (same ▸ spared)
      rw [mem_recordGrants, ← mem_effective]
      constructor
      · rintro (⟨member, _⟩ | ⟨recorded, member, rfl⟩)
        · exact member
        · exact absurd rfl (other recorded member)
      · exact fun member => .inl ⟨member, fun recorded new same => other recorded new same.1⟩
    · exact permitted_settled settled
    · exact fun kind => (mem_effective_closed kind present).symm

/-- The state after a revoke leaves these grants to start from. -/
def writeEdges (world : World) (edges : List Edge) (closed : List Nat) : World :=
  let acl := effective world.context world.acl
  { world with acl := effective world.context { acl with edges, closed } }

theorem revokeObject_cases {optionOnly : Bool} (settled : world.acl.pending = []) :
    (∃ message, revokeObject world principal optionOnly items object role = (.error message, world)) ∨
      ∃ (recipient : RoleId) (taken : Edge → Bool) (closed : List Nat) (edges : List Edge),
        world.context.roleId role = .ok recipient ∧
        (∀ edge, taken edge = true → edge.role = recipient) ∧
        (recipient ≠ .everyone → closed = (effective world.context world.acl).closed) ∧
        edges = (if optionOnly then
            (effective world.context world.acl).edges.map fun edge =>
              if taken edge then { edge with option := false } else edge
          else (effective world.context world.acl).edges.filter fun edge => !taken edge) ∧
        revokeObject world principal optionOnly items object role =
          (.ok (), writeEdges world edges closed) := by
  simp only [revokeObject, load_settled settled]
  cases found : world.resolve object with
  | error message => exact .inl ⟨message, rfl⟩
  | ok target =>
      dsimp only
      split
      · next message _ => exact .inl ⟨message, rfl⟩
      · next recipient expanded grantor parts =>
          have resolved : world.context.roleId role = .ok recipient := by
            obtain ⟨known, resolved, parts⟩ := bind_eq_ok.mp parts
            obtain ⟨_, _, parts⟩ := bind_eq_ok.mp parts
            split at parts
            · obtain ⟨_, _, parts⟩ := bind_eq_ok.mp parts
              cases parts
              exact resolved
            · obtain ⟨_, _, parts⟩ := bind_eq_ok.mp parts
              cases parts
              exact resolved
          split
          · exact .inl ⟨_, rfl⟩
          · refine .inr ⟨recipient, _, _, _, resolved, ?_, ?_, rfl, rfl⟩
            · intro edge taken
              simp only [matchesRevoke, decide_eq_true_eq] at taken
              exact taken.1
            · intro other
              simp [other]

theorem revoke_spares {optionOnly : Bool} (settled : world.acl.pending = []) (named : Named world.context)
    (direct : role ∈ names) (fresh : "public" ∉ reachedNames world.context world.acl names)
    (numbered : RootNumbered world.acl) {identity : RoleId}
    (start : Spared world.context (reachedNames world.context world.acl names) identity) {target : Target}
    {privilege : String} {held : Bool} (present : world.context.hasTarget target = true) :
    permitted world identity target privilege held =
      permitted (revokeObject world principal optionOnly items object role).2 identity target privilege held := by
  rcases @revokeObject_cases _ principal items object role optionOnly settled with ⟨message, refused⟩ |
      ⟨recipient, taken, closed, edges, resolved, takes, opens, same, done⟩
  · rw [refused]
  · have notEveryone := recipient_not_everyone named direct fresh resolved
    have spares_taken : ∀ edge, taken edge = true →
        ¬Spared world.context (reachedNames world.context world.acl names) edge.role := by
      intro edge takes_ spared
      exact recipient_found named direct resolved (takes edge takes_ ▸ spared)
    have kept : ∀ edge, Spared world.context (reachedNames world.context world.acl names) edge.role →
        (edge ∈ edges ↔ Sourced world.context world.acl edge) := by
      intro edge spared
      rw [same, ← mem_effective]
      split
      · rw [List.mem_map]
        constructor
        · rintro ⟨source, member, rfl⟩
          split at spared
          · next held => exact absurd spared (spares_taken source held)
          · next apart => rwa [if_neg apart]
        · exact fun member => ⟨edge, member, if_neg fun held => spares_taken edge held spared⟩
      · rw [List.mem_filter]
        constructor
        · exact fun kept => kept.1
        · intro member
          refine ⟨member, ?_⟩
          cases held : taken edge with
          | false => rfl
          | true => exact absurd spared (spares_taken edge held)
    have spares := @spares_edges names world.context world.acl
      { effective world.context world.acl with edges, closed } named fresh numbered
      (fun _ _ => hasTarget_of_covers) rfl kept
    have settledAfter : (writeEdges world edges closed).acl.pending = [] := settled
    rw [done]
    refine @spared_permitted world (writeEdges world edges closed) _ _ settled spares identity start
      target privilege held ?_ present present ?_
    · rw [permitted_settled settledAfter]
      exact congrArg (allowed world.context · identity target privilege held) (effective_idempotent _ _)
    · intro kind
      rw [opens notEveryone]
      exact (mem_effective_closed kind present).symm

end Grants

/-! ### Identities and roles -/

section Roles

variable {world next : World} {principal : Principal} {names : List String} {user : String}

/-- A drop takes identities and memberships away and adds none. -/
theorem grows_back_drop (named : user ≠ "public") (done : accountRequest world (.drop user) = .ok next) :
    Grows next.context world.context := by
  obtain ⟨accounts, identities, built⟩ := accountRequest_eq_ok done
  have changed := changed_drop identities
  have smaller := dropped_eq identities
  have sameAccounts : next.identities = accounts := by rw [built]
  have member : ∀ account ∈ next.identities, account ∈ world.identities := by
    intro account inside
    rw [sameAccounts, smaller] at inside
    exact (List.mem_filter.mp inside).1
  have active : ∀ role, next.context.active role = true → world.context.active role = true := by
    intro role active
    cases role with
    | root => rfl
    | everyone => rfl
    | account id =>
        obtain ⟨account, inside, holds⟩ := List.any_eq_true.mp active
        exact List.any_eq_true.mpr ⟨account, member account inside, holds⟩
  refine ⟨active, ?_, ?_, ?_⟩
  · intro role known
    cases role with
    | root => rfl
    | everyone => rfl
    | account id =>
        obtain ⟨account, inside, holds⟩ := List.any_eq_true.mp known
        exact List.any_eq_true.mpr ⟨account, member account inside, holds⟩
  · intro child parent inherits
    refine Inherits.grow ?_ active ?_ inherits
    · intro name role found
      by_cases same : name = user
      · subst same
        have none : (next.identities.filter fun account => account.user = name) = [] := by
          rw [sameAccounts, smaller, List.filter_filter]
          exact List.filter_eq_nil_iff.mpr fun account _ => by simp
        simp only [Context.roleId, World.context, none, List.map_nil, if_neg named] at found
        cases found
      · simpa only [Context.roleId, World.context, sameAccounts, changed.filtered name same] using found
    · intro row inside
      have kept : row ∈ next.members := inside
      rw [built] at kept
      exact (List.mem_filter.mp kept).1
  · intro target present
    have same : next.databases = world.databases := by rw [built]
    simpa only [Context.hasTarget, World.context, World.targets, same] using present

/-- What a change of identities or memberships leaves permitted. -/
theorem outside_permitted (settled : world.acl.pending = []) (named : Named world.context)
    (fresh : "public" ∉ reachedNames world.context world.acl names) (numbered : RootNumbered world.acl)
    {changed : World} (sameAcl : changed.acl = world.acl)
    (outside : Outside (reachedNames world.context world.acl names) world.context changed.context)
    (back : ∀ edge, Sourced changed.context world.acl edge → Sourced world.context world.acl edge)
    {identity : RoleId} (start : Spared world.context (reachedNames world.context world.acl names) identity)
    {target : Target} {privilege : String} {held : Bool} (present : world.context.hasTarget target = true) :
    permitted world identity target privilege held =
      allowed changed.context (effective changed.context changed.acl) identity target privilege held := by
  have spares := outside.spares named fresh numbered (fun _ _ => hasTarget_of_covers)
    fun edge counts _ => back edge counts
  have stays : changed.context.hasTarget target = true := by rwa [hasTarget_same outside.targets]
  rw [permitted_settled settled, sameAcl]
  refine spares.allowed_eq start present stays fun kind => ?_
  rw [mem_effective_closed kind present, mem_effective_closed kind stays]

theorem drop_spares (settled : world.acl.pending = []) (named : Named world.context) (direct : user ∈ names)
    (fresh : "public" ∉ reachedNames world.context world.acl names) (numbered : RootNumbered world.acl)
    (done : accountRequest world (.drop user) = .ok next)
    {identity : RoleId} (start : Spared world.context (reachedNames world.context world.acl names) identity)
    {target : Target} {privilege : String} {held : Bool} (present : world.context.hasTarget target = true) :
    permitted world identity target privilege held =
      permitted (objectReconcile next) identity target privilege held := by
  have acl := accountRequest_acl done
  have apart : user ≠ "public" := by
    rintro rfl
    exact fresh (subset_walk direct)
  rw [permitted_reconciled (acl ▸ settled)]
  exact outside_permitted settled named fresh numbered acl
    (outside_accounts named (fun _ => changed_drop) direct fresh done)
    (fun edge counts => sourced_back (grows_back_drop apart done) counts) start present

theorem alter_spares {canLogin isSuperuser enabled manager : Option Bool} (settled : world.acl.pending = [])
    (named : Named world.context) (direct : user ∈ names)
    (fresh : "public" ∉ reachedNames world.context world.acl names) (numbered : RootNumbered world.acl)
    (counted : Settled world.context world.acl)
    (done : accountRequest world (.alter user canLogin isSuperuser enabled manager) = .ok next)
    {identity : RoleId} (start : Spared world.context (reachedNames world.context world.acl names) identity)
    {target : Target} {privilege : String} {held : Bool} (present : world.context.hasTarget target = true) :
    permitted world identity target privilege held =
      permitted (objectReconcile next) identity target privilege held := by
  have acl := accountRequest_acl done
  have outside := outside_accounts named (fun _ => changed_alter) direct fresh done
  have known : ∀ role, next.context.knownRole role = true → world.context.knownRole role = true := by
    intro role known
    cases role with
    | root => rfl
    | everyone => rfl
    | account id =>
        obtain ⟨accounts, identities, built⟩ := accountRequest_eq_ok done
        have changed := changed_alter identities
        have sameAccounts : next.identities = accounts := by rw [built]
        obtain ⟨account, inside, holds⟩ := List.any_eq_true.mp known
        have member : account ∈ accounts := sameAccounts ▸ inside
        by_cases same : account.user = user
        · obtain ⟨old, before, _, sameId⟩ := changed.same account member same
          exact List.any_eq_true.mpr ⟨old, before, by rw [sameId]; exact holds⟩
        · exact List.any_eq_true.mpr ⟨account, (changed.others account same).mp member, holds⟩
  rw [permitted_reconciled (acl ▸ settled)]
  exact outside_permitted settled named fresh numbered acl outside
    (fun edge counts => counted.back known outside.targets counts) start present

theorem runAccountCommand_drop {name : String}
    (done : runAccountCommand world principal (.drop name) = .ok next) :
    accountRequest world (.drop name) = .ok next := by
  unfold runAccountCommand at done
  split at done
  · cases done
  · split at done
    · cases done
    · exact done

theorem runAccountCommand_alter {name : String} {attributes : List (String × Bool)}
    (done : runAccountCommand world principal (.alter name attributes) = .ok next) :
    ∃ canLogin isSuperuser enabled manager,
      accountRequest world (.alter name canLogin isSuperuser enabled manager) = .ok next := by
  unfold runAccountCommand at done
  split at done
  · cases done
  · split at done
    · cases done
    · dsimp only at done
      split at done
      · cases done
      · exact ⟨_, _, _, _, done⟩

theorem members_spares {members : List (String × String)} (settled : world.acl.pending = [])
    (named : Named world.context) (fresh : "public" ∉ reachedNames world.context world.acl names)
    (numbered : RootNumbered world.acl)
    (kept : ∀ row ∈ world.members, row.2 ∉ reachedNames world.context world.acl names → row ∈ members)
    (old : ∀ row ∈ members, row.2 ∉ reachedNames world.context world.acl names → row ∈ world.members)
    (back : ∀ edge, Sourced { world with members }.context world.acl edge →
      Sourced world.context world.acl edge)
    {identity : RoleId} (start : Spared world.context (reachedNames world.context world.acl names) identity)
    {target : Target} {privilege : String} {held : Bool} (present : world.context.hasTarget target = true) :
    permitted world identity target privilege held =
      allowed { world with members }.context (effective { world with members }.context world.acl)
        identity target privilege held :=
  @outside_permitted world names settled named fresh numbered { world with members } rfl
    (outside_members named kept old) back identity start target privilege held present

end Roles

/-! ### Objects that go -/

section Objects

variable {world next : World} {principal : Principal}

theorem hasTarget_removeTable {parent name : String} {target : Target}
    (present : (world.removeTable parent name).context.hasTarget target = true) :
    world.context.hasTarget target = true := by
  obtain ⟨database, inside, number, scope⟩ := hasTarget_iff.mp present
  obtain ⟨old, member, rfl⟩ := List.mem_map.mp inside
  refine hasTarget_iff.mpr ⟨old, member, ?_, ?_⟩
  · split at number <;> exact number
  · refine scope.imp_right (Or.imp_right (And.imp_right ?_))
    rintro ⟨table, row, same⟩
    split at row
    · exact ⟨table, (List.mem_filter.mp row).1, same⟩
    · exact ⟨table, row, same⟩

theorem hasTarget_removeDatabase {name : String} {target : Target}
    (present : (world.removeDatabase name).context.hasTarget target = true) :
    world.context.hasTarget target = true := by
  obtain ⟨database, inside, number, scope⟩ := hasTarget_iff.mp present
  exact hasTarget_iff.mpr ⟨database, (List.mem_filter.mp inside).1, number, scope⟩

/-- Removing objects leaves what is permitted on the others. -/
theorem removed_permitted (settled : world.acl.pending = []) (named : Named world.context)
    (numbered : RootNumbered world.acl) {removed : World} (identities : removed.identities = world.identities)
    (members : removed.members = world.members) (acl : removed.acl = world.acl)
    (fewer : ∀ target, removed.context.hasTarget target = true → world.context.hasTarget target = true)
    {id : Nat} {target : Target} {privilege : String} {held : Bool}
    (present : world.context.hasTarget target = true) (stays : removed.context.hasTarget target = true) :
    permitted world (.account id) target privilege held =
      permitted (objectReconcile removed) (.account id) target privilege held := by
  have active : removed.context.active = world.context.active := by
    funext role
    cases role <;> simp only [Context.active, World.context, identities]
  have known : removed.context.knownRole = world.context.knownRole := by
    funext role
    cases role <;> simp only [Context.knownRole, World.context, identities]
  have inherits : ∀ child parent, Inherits removed.context child parent ↔ Inherits world.context child parent := by
    intro child parent
    rw [inherits_iff, inherits_iff, active]
    simp only [Context.roleId, World.context, identities, members]
  have spares : Spares (· ≠ .root) world.context removed.context world.acl removed.acl := by
    refine ⟨fun _ _ => by rw [active], fun _ _ => by rw [known], fun child parent _ => inherits child parent,
      ?_, by simp, ?_, ?_, ?_, ?_, ?_⟩
    · intro child parent _ above
      obtain ⟨row, _, upper, _⟩ := inherits_iff.mp above
      exact (roleName_of_roleId named upper).2.2
    · exact fun source target covered before after =>
        ⟨hasTarget_of_covers covered before, hasTarget_of_covers covered after⟩
    · intro owner _ before after
      rw [mem_liveOwners, mem_liveOwners, acl, known, before, after]
    · intro edge counts _
      have stored := mem_candidates.mp counts.candidate
      refine ⟨by rw [known]; exact stored.2.2.1, ?_⟩
      by_cases root : edge.grantor = .root
      · exact .inl (numbered edge stored.1 root)
      · exact .inr root
    · intro edge counts _
      rw [acl]
      exact (mem_candidates.mp counts.candidate).1
    · intro edge counts _ _
      rw [acl] at counts
      exact sourced_back ⟨fun role => by rw [active]; exact fun holds => holds,
        fun role => by rw [known]; exact fun holds => holds,
        fun child parent => (inherits child parent).mp, fewer⟩ counts
  rw [permitted_settled settled, permitted_reconciled (acl ▸ settled)]
  refine spares.allowed_eq (by simp) present stays fun kind => ?_
  rw [mem_effective_closed kind present, mem_effective_closed kind stays, acl]

end Objects

end ChuSQL.Server.Acl
