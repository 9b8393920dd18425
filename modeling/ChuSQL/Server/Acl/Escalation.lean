import ChuSQL.Server.Acl.Reachable

/-! What a grant changes in what identities may do, and what a new database or table
is worth to those who held rights on an older one of its name. -/

set_option autoImplicit false

namespace ChuSQL.Server.Acl

/-- May an identity use a privilege on an object now, or pass it on? -/
def permitted (world : World) (identity : RoleId) (target : Target) (privilege : String) (option : Bool) : Bool :=
  allowed world.load.1 world.load.2.1 identity target privilege option

section Permitted

variable {env : Context} {acl : ACL} {world : World} {identity : RoleId} {target scope : Target}
  {privilege : String} {option : Bool}

theorem allowed_iff : allowed env acl identity target privilege option = true ↔
    owns env acl identity target = true ∨
      (option = false ∧ privilege = "connect" ∧ target.kind = .database ∧ target.database ∉ acl.closed) ∨
      ∃ edge ∈ acl.edges, env.active edge.role = true ∧ edge.role ∈ env.roles identity ∧
        edge.privilege = privilege ∧ covers edge.target target = true ∧ (option = true → edge.option = true) := by
  simp only [allowed, decide_eq_true_eq, List.any_eq_true, Bool.not_eq_eq_eq_not,
    Bool.not_true]
  refine or_congr_right (or_congr_right (exists_congr fun edge => and_congr_right fun _ => ?_))
  cases option <;> simp

theorem permitted_settled (settled : world.acl.pending = []) : permitted world identity target privilege option =
    allowed world.context (effective world.context world.acl) identity target privilege option := by
  rw [permitted, load_settled settled]

/-- Only a scope of all tables covers an object other than itself. -/
theorem eq_of_covers (bounded : Bounded world) {object other : ObjectName} (found : world.resolve object = .ok target)
    (again : world.resolve other = .ok scope) (covered : covers target scope = true)
    (narrow : target.kind ≠ .tables) : scope = target := by
  simp only [covers, decide_eq_true_eq] at covered
  obtain ⟨number, ⟨wide, _⟩ | ⟨kind, table⟩⟩ := covered
  · exact absurd wide narrow
  obtain ⟨first, inside, _, firstCases⟩ := resolve_eq_ok found
  obtain ⟨second, member, _, secondCases⟩ := resolve_eq_ok again
  have firstNumber : target.database = first.id := by
    rcases firstCases with ⟨_, rfl⟩ | ⟨_, rfl⟩ | ⟨_, _, _, rfl⟩ <;> rfl
  have secondNumber : scope.database = second.id := by
    rcases secondCases with ⟨_, rfl⟩ | ⟨_, rfl⟩ | ⟨_, _, _, rfl⟩ <;> rfl
  have same : first = second := List.inj_on_of_nodup_map bounded.unique inside member
    (firstNumber.symm.trans (number.trans secondNumber))
  subst same
  rcases firstCases with ⟨_, rfl⟩ | ⟨_, rfl⟩ | ⟨row, listed, _, rfl⟩
  · rcases secondCases with ⟨_, rfl⟩ | ⟨_, rfl⟩ | ⟨_, _, _, rfl⟩
    · rfl
    · cases kind
    · cases kind
  · exact absurd rfl narrow
  · rcases secondCases with ⟨_, rfl⟩ | ⟨_, rfl⟩ | ⟨other, present, _, rfl⟩
    · cases kind
    · cases kind
    · have equal : row = other := List.inj_on_of_nodup_map (bounded.numbered first inside).unique listed present
        (Option.some.inj table)
      rw [equal]

/-- Who may pass a privilege on for an object may do so for what it covers. -/
theorem allowed_of_covers (sound : Sound world) {object other : ObjectName}
    (found : world.resolve object = .ok target) (again : world.resolve other = .ok scope)
    (covered : covers target scope = true)
    (holds : allowed world.context (effective world.context world.acl) identity target privilege true = true) :
    allowed world.context (effective world.context world.acl) identity scope privilege true = true := by
  rcases allowed_iff.mp holds with owned | ⟨plain, _⟩ | ⟨edge, stored, active, inherited, same, covering, option⟩
  · obtain ⟨owner, present, _, rfl, _⟩ := owns_iff.mp owned
    have recorded : Recorded world.context (effective world.context world.acl) :=
      recorded_effective sound.recorded.proper
    have narrow := recorded.proper owner present
    rw [eq_of_covers sound.bounded found again covered narrow]
    exact holds
  · cases plain
  · exact allowed_iff.mpr (.inr (.inr ⟨edge, stored, active, inherited, same, covers_trans covering covered, option⟩))

theorem kind_of_connect {names items : List String} (expanded : privileges target names = .ok items)
    (connect : "connect" ∈ items) : target.kind = .database := by
  unfold privileges at expanded
  by_contra other
  simp only [if_neg other] at expanded
  split at expanded
  · next all =>
      cases expanded
      have member := List.all_eq_true.mp all "connect" connect
      revert member
      decide
  · cases expanded

end Permitted

/-! ### Grants -/

section Grants

variable {world next : World} {client : Client} {names : List String} {object : ObjectName} {role : String}
  {option : Bool}

/-- A successful grant records its edges in the grants that count. -/
theorem grant_eq_ok (sound : Sound world)
    (done : step world client (.grant names object role option) = (.ok (), next)) :
    validatePrincipal world client = .ok () ∧ ∃ target recipient grantor items,
      world.resolve object = .ok target ∧
      checkGrant client.principal world.context (effective world.context world.acl) target names object role =
        .ok (recipient, grantor, items) ∧
      next.context = world.context ∧ next.acl.pending = [] ∧
      next.acl.owners = (effective world.context world.acl).owners ∧
      next.acl.edges = recordGrants (effective world.context world.acl)
        (newEdges recipient grantor target items option client.principal.isRoot) ∧
      next.acl.closed = if recipient = .everyone ∧ "connect" ∈ items then
          (effective world.context world.acl).closed.filter fun value => value ≠ target.database
        else (effective world.context world.acl).closed := by
  unfold step at done
  cases valid : validatePrincipal world client with
  | error message =>
      rw [valid] at done
      cases done
  | ok _ =>
      rw [valid] at done
      refine ⟨rfl, ?_⟩
      have granted : objectGrant world client.principal names object role option = (.ok (), next) := done
      rcases objectGrant_cases sound.pending with ⟨message, same⟩ | cases_
      · rw [same] at granted
        cases granted
      · obtain ⟨target, recipient, grantor, items, found, checked, same⟩ := cases_
        rw [same] at granted
        cases granted
        exact ⟨target, recipient, grantor, items, found, checked, rfl, sound.pending, rfl, rfl, rfl⟩

/-- What a grant adds is for the recipient and those who inherit from it, is one of the
privileges granted on the object or under it, and is nothing the grantor could not pass on. -/
theorem grant_adds (sound : Sound world) (ordinary : client.principal.isRoot = false)
    (done : step world client (.grant names object role option) = (.ok (), next)) :
    ∃ recipient grantor target items, world.context.roleId role = .ok recipient ∧
      world.context.roleId client.principal.name = .ok grantor ∧ world.resolve object = .ok target ∧
      privileges target names = .ok items ∧
      ∀ identity other scope privilege option, world.resolve other = .ok scope →
        permitted world identity scope privilege option = false →
        permitted next identity scope privilege option = true →
        recipient ∈ world.context.roles identity ∧ privilege ∈ items ∧ covers target scope = true ∧
          permitted world grantor scope privilege true = true := by
  obtain ⟨_, target, recipient, grantor, items, found, checked, context, pending, owners, edges, closed⟩ :=
    grant_eq_ok sound done
  obtain ⟨known, expanded, granting, passes⟩ := checkGrant_eq_ok checked
  refine ⟨recipient, grantor, target, items, known, grantorId_ordinary ordinary granting, found, expanded, ?_⟩
  intro identity other scope privilege opt again before after
  rw [permitted_settled sound.pending] at before ⊢
  rw [permitted_settled pending, context] at after
  have refused : ¬allowed world.context (effective world.context world.acl) identity scope privilege opt = true := by
    rw [before]
    exact Bool.false_ne_true
  -- the privileges of the grant on what the object covers
  have reach : privilege ∈ items → covers target scope = true → recipient ∈ world.context.roles identity →
      recipient ∈ world.context.roles identity ∧ privilege ∈ items ∧ covers target scope = true ∧
        allowed world.context (effective world.context world.acl) grantor scope privilege true = true := by
    intro member covered inherits
    exact ⟨inherits, member, covered, allowed_of_covers sound found again covered (passes ordinary privilege member)⟩
  rcases allowed_iff.mp after with owned | ⟨plain, connect, database, opened⟩ |
    ⟨edge, counted, active, inherited, same, covering, optionHeld⟩
  · obtain ⟨owner, live, rest⟩ := owns_iff.mp owned
    have old := owners ▸ (mem_liveOwners.mp live).1
    exact absurd (allowed_iff.mpr (.inl (owns_iff.mpr ⟨owner, old, rest⟩))) refused
  · have shut : scope.database ∈ (effective world.context world.acl).closed := by
      by_contra absent
      exact refused (allowed_iff.mpr (.inr (.inl ⟨plain, connect, database, absent⟩)))
    have present := (List.mem_filter.mp shut).2
    have gone : scope.database ∉ next.acl.closed := fun kept => opened (List.mem_filter.mpr ⟨kept, present⟩)
    rw [closed] at gone
    split at gone
    · next both =>
        have number : scope.database = target.database := by
          by_contra different
          exact gone (List.mem_filter.mpr ⟨shut, decide_eq_true different⟩)
        have kind := kind_of_connect expanded both.2
        refine reach (connect ▸ both.2) ?_ (both.1 ▸ everyone_mem_roles identity)
        have plainTarget : target.table = none := by
          obtain ⟨_, _, _, ⟨_, rfl⟩ | ⟨_, rfl⟩ | ⟨_, _, _, rfl⟩⟩ := resolve_eq_ok found
          · rfl
          · rfl
          · cases kind
        have plainScope : scope.table = none := by
          obtain ⟨_, _, _, ⟨_, rfl⟩ | ⟨_, rfl⟩ | ⟨_, _, _, rfl⟩⟩ := resolve_eq_ok again
          · rfl
          · rfl
          · cases database
        simp [covers, number, kind, database, plainTarget, plainScope]
    · exact absurd shut gone
  · have recorded := (mem_candidates.mp (effective_edges_subset edge counted)).1
    rw [edges] at recorded
    rcases mem_recordGrants.mp recorded with ⟨old, _⟩ | ⟨source, inside, rfl⟩
    · exact absurd (allowed_iff.mpr (.inr (.inr ⟨edge, old, active, inherited, same, covering, optionHeld⟩))) refused
    · obtain ⟨item, member, rfl⟩ := mem_newEdges.mp inside
      exact reach (same ▸ member) covering inherited

/-- A grant that replaces no root grant by another kind takes nothing away. -/
theorem grant_keeps (sound : Sound world)
    (keeps : ¬ReplacesRoot world client.principal (.grant names object role option))
    (done : step world client (.grant names object role option) = (.ok (), next)) {identity : RoleId}
    {scope : Target} {privilege : String} {opt : Bool}
    (before : permitted world identity scope privilege opt = true) :
    permitted next identity scope privilege opt = true := by
  obtain ⟨_, target, recipient, grantor, items, found, checked, context, pending, owners, edges, closed⟩ :=
    grant_eq_ok sound done
  obtain ⟨known, expanded, granting, _⟩ := checkGrant_eq_ok checked
  rw [permitted_settled sound.pending] at before
  rw [permitted_settled pending, context]
  refine allowed_iff.mpr ?_
  rcases allowed_iff.mp before with owned | ⟨plain, connect, database, opened⟩ |
    ⟨edge, counted, active, inherited, same, covering, optionHeld⟩
  · obtain ⟨owner, live, rest⟩ := owns_iff.mp owned
    exact .inl (owns_iff.mpr ⟨owner, mem_liveOwners.mpr ⟨owners ▸ live, (mem_liveOwners.mp live).2⟩, rest⟩)
  · refine .inr (.inl ⟨plain, connect, database, fun shut => opened ?_⟩)
    have stored := (List.mem_filter.mp shut).1
    rw [closed] at stored
    split at stored
    · exact List.mem_of_mem_filter stored
    · exact stored
  · refine .inr (.inr ?_)
    have roots : KeepsRoots (effective world.context world.acl)
        (newEdges recipient grantor target items option client.principal.isRoot) :=
      keepsRoots_of_not_replaces known expanded granting found keeps
    have sourced := (stable_effective world.context world.acl edge counted).record roots edges owners
    obtain ⟨sameRole, _, sameTarget, samePrivilege⟩ := @replacement_key (effective world.context world.acl)
      (newEdges recipient grantor target items option client.principal.isRoot) edge
    refine ⟨_, mem_effective.mpr sourced, ?_, ?_, ?_, ?_, ?_⟩
    · rw [← sameRole]
      exact active
    · rw [← sameRole]
      exact inherited
    · rw [← samePrivilege]
      exact same
    · rw [← sameTarget]
      exact covering
    · exact fun asked => replacement_option counted (optionHeld asked)

end Grants

/-! ### New objects -/

section Creation

variable {world next : World} {client : Client}

/-- An object exists by its number, whatever its record calls it. -/
theorem hasTarget_congr {env : Context} {target other : Target} (database : target.database = other.database)
    (kind : target.kind = other.kind) (table : target.table = other.table) :
    env.hasTarget target = env.hasTarget other := by
  simp only [Context.hasTarget, database, kind, table]

theorem object_of_ok {command : ObjectCommand} (done : step world client (.object command) = (.ok (), next)) :
    runObjectStatement world client.principal command = (.ok (), next) := by
  unfold step at done
  cases valid : validatePrincipal world client with
  | error message =>
      rw [valid] at done
      cases done
  | ok _ =>
      rw [valid] at done
      exact done

/-- After a claim, an object that no record was about is its owner's, but for scopes and the right to
connect by default. -/
theorem permitted_claimed {created : World} {object : ObjectName} {target : Target}
    (claimed : objectClaim created client.principal object = .ok next)
    (resolved : created.resolve object = .ok target) :
    ∃ creator, next.context.roleId client.principal.name = .ok creator ∧ next.resolve object = .ok target ∧
      ∀ identity privilege option, permitted next identity target privilege option = true →
        creator ∈ next.context.roles identity ∨
        (option = false ∧ privilege = "connect" ∧ target.kind = .database) ∨
        ∃ edge ∈ created.acl.edges, covers edge.target target = true ∧
          edge.role ∈ next.context.roles identity ∧ edge.privilege = privilege ∧
          (option = true → edge.option = true) := by
  obtain ⟨found, creator, same, looked, rfl⟩ := objectClaim_eq_ok claimed
  rw [resolved] at same
  cases same
  refine ⟨creator, looked, resolved, fun identity privilege option holds => ?_⟩
  rw [permitted_settled (load_pending created)] at holds
  rcases allowed_iff.mp holds with owned | ⟨plain, connect, database, _⟩ |
    ⟨edge, counted, _, inherited, same, covering, optionHeld⟩
  · obtain ⟨owner, live, inherits, about, _⟩ := owns_iff.mp owned
    rcases List.mem_cons.mp (mem_liveOwners.mp live).1 with rfl | old
    · exact .inl inherits
    · have apart := (List.mem_filter.mp old).2
      rw [decide_eq_true_eq] at apart
      exact absurd about apart
  · exact .inr (.inl ⟨plain, connect, database⟩)
  · have stored := (mem_candidates.mp (effective_edges_subset edge counted)).1
    exact .inr (.inr ⟨edge, load_edges created stored, covering, inherited, same, optionHeld⟩)

/-- A new table has a number of its own: it is open to its creator and to those with a right on
all tables of the database. -/
theorem created_table_fresh (sound : Sound world) {parent name : String} {refusal : Option String}
    (done : step world client (.object (.createTable parent name refusal)) = (.ok (), next)) :
    ∃ creator target, next.context.roleId client.principal.name = .ok creator ∧
      next.resolve (.table parent name) = .ok target ∧ world.context.hasTarget target = false ∧
      ∀ identity privilege option, permitted next identity target privilege option = true →
        creator ∈ next.context.roles identity ∨
        ∃ edge ∈ world.acl.edges, edge.target.kind = .tables ∧ edge.target.database = target.database ∧
          edge.role ∈ next.context.roles identity ∧ edge.privilege = privilege ∧
          (option = true → edge.option = true) := by
  have result := object_of_ok done
  rcases createTable_cases sound with ⟨message, same⟩ | ⟨message, acl, _, same⟩ | cases_
  · rw [same] at result
    cases result
  · rw [same] at result
    cases result
  obtain ⟨database, inside, acl, claimedNext, _, stored, resolved, claimed, same⟩ := cases_
  rw [same] at result
  cases result
  have absent := @absent_new_table world sound.bounded database inside name
  obtain ⟨creator, looked, again, only⟩ := permitted_claimed claimed resolved
  refine ⟨creator, _, looked, again, absent, fun identity privilege option holds => ?_⟩
  rcases only identity privilege option holds with owner | ⟨_, _, kind⟩ |
    ⟨edge, listed, covering, inherited, privilegeSame, optionHeld⟩
  · exact .inl owner
  · cases kind
  · have before := stored edge listed
    refine .inr ⟨edge, before, ?_, ?_, inherited, privilegeSame, optionHeld⟩
    · simp only [covers, decide_eq_true_eq] at covering
      obtain ⟨number, ⟨wide, _⟩ | ⟨kind, table⟩⟩ := covering
      · exact wide
      · have present := (mem_candidates.mp (sound.recorded.edge edge before)).2.2.2
        rw [hasTarget_congr number kind table, absent] at present
        cases present
    · simp only [covers, decide_eq_true_eq] at covering
      exact covering.1

/-- A new database has a number of its own: it is open to its creator, and to all to connect. -/
theorem created_database_fresh (sound : Sound world) {name : String} {refusal : Option String}
    (done : step world client (.object (.createDatabase name refusal)) = (.ok (), next)) :
    ∃ creator target, next.context.roleId client.principal.name = .ok creator ∧
      next.resolve (.database name) = .ok target ∧ world.context.hasTarget target = false ∧
      ∀ identity privilege option, permitted next identity target privilege option = true →
        creator ∈ next.context.roles identity ∨ (option = false ∧ privilege = "connect") := by
  have result := object_of_ok done
  rcases @createDatabase_cases world client.principal name refusal with ⟨message, highWater, _, same⟩ | cases_
  · rw [same] at result
    cases result
  obtain ⟨claimedNext, free, claimed, same⟩ := cases_
  rw [same] at result
  cases result
  obtain ⟨found, _, resolved, _, _⟩ := objectClaim_eq_ok claimed
  have number := resolve_addDatabase free resolved
  subst number
  have absent := @absent_new_database world sound.bounded name
  obtain ⟨creator, looked, again, only⟩ := permitted_claimed claimed resolved
  refine ⟨creator, _, looked, again, absent, fun identity privilege option holds => ?_⟩
  rcases only identity privilege option holds with owner | ⟨plain, connect, _⟩ | ⟨edge, listed, covering, _⟩
  · exact .inl owner
  · exact .inr ⟨plain, connect⟩
  · have present := (mem_candidates.mp (sound.recorded.edge edge listed)).2.2.2
    simp only [covers, decide_eq_true_eq] at covering
    obtain ⟨same, ⟨_, other | other⟩ | ⟨kind, table⟩⟩ := covering
    · cases other
    · cases other
    · rw [hasTarget_congr same kind table, absent] at present
      cases present

end Creation

/-! ### Every reachable state -/

/-- No grant lets anyone do what the grantor could not pass on, a grant that replaces no root
grant takes nothing away, and a new object inherits nothing from an older one of its name. -/
theorem grants_do_not_escalate (start world : World) (sound : Sound start)
    (reached : Reached (fun _ _ _ => True) start world) (client : Client) (next : World) :
    (∀ names object role option, client.principal.isRoot = false →
      step world client (.grant names object role option) = (.ok (), next) →
      ∃ recipient grantor target items, world.context.roleId role = .ok recipient ∧
        world.context.roleId client.principal.name = .ok grantor ∧ world.resolve object = .ok target ∧
        privileges target names = .ok items ∧
        ∀ identity other scope privilege option, world.resolve other = .ok scope →
          permitted world identity scope privilege option = false →
          permitted next identity scope privilege option = true →
          recipient ∈ world.context.roles identity ∧ privilege ∈ items ∧ covers target scope = true ∧
            permitted world grantor scope privilege true = true) ∧
    (∀ names object role option,
      ¬ReplacesRoot world client.principal (.grant names object role option) →
      step world client (.grant names object role option) = (.ok (), next) →
      ∀ identity scope privilege option, permitted world identity scope privilege option = true →
        permitted next identity scope privilege option = true) ∧
    (∀ parent name refusal, step world client (.object (.createTable parent name refusal)) = (.ok (), next) →
      ∃ creator target, next.context.roleId client.principal.name = .ok creator ∧
        next.resolve (.table parent name) = .ok target ∧ world.context.hasTarget target = false ∧
        ∀ identity privilege option, permitted next identity target privilege option = true →
          creator ∈ next.context.roles identity ∨
          ∃ edge ∈ world.acl.edges, edge.target.kind = .tables ∧ edge.target.database = target.database ∧
            edge.role ∈ next.context.roles identity ∧ edge.privilege = privilege ∧
            (option = true → edge.option = true)) ∧
    ∀ name refusal, step world client (.object (.createDatabase name refusal)) = (.ok (), next) →
      ∃ creator target, next.context.roleId client.principal.name = .ok creator ∧
        next.resolve (.database name) = .ok target ∧ world.context.hasTarget target = false ∧
        ∀ identity privilege option, permitted next identity target privilege option = true →
          creator ∈ next.context.roles identity ∨ (option = false ∧ privilege = "connect") := by
  have sound := reached_sound sound reached
  refine ⟨fun _ _ _ _ ordinary done => grant_adds sound ordinary done, ?_, ?_, ?_⟩
  · exact fun _ _ _ _ keeps done _ _ _ _ before => grant_keeps sound keeps done before
  · exact fun _ _ _ done => created_table_fresh sound done
  · exact fun _ _ done => created_database_fresh sound done

/-- An administrator and Bob, who may read all tables of the shop. -/
def market : World where
  identities := [⟨1, "admin", true, true, true, false, 1⟩, ⟨2, "bob", true, false, true, false, 1⟩]
  identityHighWater := 2
  members := []
  databases := [⟨1, "shop", [("items", 1)], 1⟩]
  objectHighWater := 1
  acl := ⟨[], [], [], []⟩

theorem market_sound : Sound market := by
  refine ⟨⟨by decide, by decide, ?_⟩, rfl, ⟨?_, ?_, ?_⟩⟩
  · intro database member
    rw [List.mem_singleton.mp member]
    exact ⟨by decide, by decide⟩
  · exact fun edge member => by cases member
  · exact fun owner member => by cases member
  · exact fun owner member => by cases member

def admin : Client := ⟨.root "admin", 1, 1⟩

/-- Bob may read all tables of the shop, and still may after he is given more. -/
theorem grants_do_not_escalate_market :
    permitted (run market [(admin, .grant ["select"] (.tables "shop") "bob" false),
        (admin, .grant ["insert"] (.tables "shop") "bob" false)])
      (.account 2) ⟨1, some 1, .table, "shop.items"⟩ "select" false = true := by
  refine (grants_do_not_escalate market (run market [(admin, .grant ["select"] (.tables "shop") "bob" false)])
    market_sound (.step admin (.grant ["select"] (.tables "shop") "bob" false) .start trivial) admin _).2.1
      ["insert"] (.tables "shop") "bob" false ?_ ?_ _ _ _ _ ?_
  · rintro ⟨ordinary, _⟩
    cases ordinary
  · decide +kernel
  · decide +kernel

/-- Bob may read all tables of the shop; the table is dropped and created again. -/
def replaced : List (Client × Command) :=
  [(admin, .grant ["select"] (.tables "shop") "bob" false), (admin, .object (.dropTable "shop" "items" none)),
    (admin, .object (.createTable "shop" "items" none))]

/-- What Bob held on the dropped table he holds on the new one. -/
theorem scope_reaches_new_table : Sound market ∧
    permitted (run market (replaced.take 1)) (.account 2) ⟨1, some 1, .table, "shop.items"⟩ "select" false = true ∧
    (run market (replaced.take 1)).resolve (.table "shop" "items") = .ok ⟨1, some 1, .table, "shop.items"⟩ ∧
    (run market replaced).resolve (.table "shop" "items") = .ok ⟨1, some 2, .table, "shop.items"⟩ ∧
    permitted (run market replaced) (.account 2) ⟨1, some 2, .table, "shop.items"⟩ "select" false = true := by
  refine ⟨market_sound, ?_⟩
  decide +kernel

end ChuSQL.Server.Acl
