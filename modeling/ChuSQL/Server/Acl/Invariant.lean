import ChuSQL.Server.Acl.Stability

/-! What successful look-ups say of the catalog, what loading the stored privileges
gives, and the invariant of the stored privileges between two statements. -/

set_option autoImplicit false

namespace ChuSQL.Server.Acl

/-! ### What succeeded look-ups say -/

section Lookups

variable {world : World} {env : Context}

theorem knownRole_of_roleId {name : String} {role : RoleId} (found : env.roleId name = .ok role) :
    env.knownRole role = true := by
  unfold Context.roleId at found
  split at found
  · next id matches_ =>
      cases found
      have member : id ∈ (env.identities.filter fun account => account.user = name).map (·.id) := by
        rw [matches_]
        exact List.mem_singleton_self id
      obtain ⟨account, inside, rfl⟩ := List.mem_map.mp member
      simp only [Context.knownRole, List.any_eq_true, decide_eq_true_eq]
      exact ⟨account, (List.mem_filter.mp inside).1, rfl⟩
  · split at found
    · cases found
      rfl
    · cases found
  · cases found

/-- The identity of a session that is still as it was at sign-in. -/
theorem validatePrincipal_eq_ok {client : Client} (valid : validatePrincipal world client = .ok ()) :
    ∃ account, (world.identities.filter fun account => account.user = client.principal.name) = [account] ∧
      account.enabled = true := by
  unfold validatePrincipal at valid
  split at valid
  · next account only =>
      split at valid
      · next holds => exact ⟨account, only, holds.2.1⟩
      · cases valid
  · cases valid
  · cases valid

theorem roleId_of_valid {client : Client} (valid : validatePrincipal world client = .ok ()) :
    ∃ role, world.context.roleId client.principal.name = .ok role ∧ world.context.active role = true := by
  obtain ⟨account, only, enabled⟩ := validatePrincipal_eq_ok valid
  have member : account ∈ world.identities := by
    have inside : account ∈ world.identities.filter fun account => account.user = client.principal.name := by
      rw [only]
      exact List.mem_singleton_self account
    exact (List.mem_filter.mp inside).1
  refine ⟨.account account.id, ?_, ?_⟩
  · simp only [Context.roleId, World.context, only, List.map_cons, List.map_nil]
  · simp only [Context.active, World.context, List.any_eq_true, decide_eq_true_eq]
    exact ⟨account, member, rfl, enabled⟩

theorem mem_targets {target : Target} : target ∈ world.targets ↔ ∃ database ∈ world.databases,
    target = database.target ∨ ∃ table ∈ database.tables, target = database.tableTarget table := by
  simp [World.targets, eq_comm]

/-- An object exists when a database or a table has its number. -/
theorem hasTarget_iff {target : Target} : world.context.hasTarget target = true ↔
    ∃ database ∈ world.databases, database.id = target.database ∧
      (target.kind = .tables ∨ target.kind = .database ∧ target.table = none ∨
        target.kind = .table ∧ ∃ table ∈ database.tables, some table.2 = target.table) := by
  simp only [Context.hasTarget, World.context, List.any_eq_true, decide_eq_true_eq]
  constructor
  · rintro ⟨current, member, number, scope⟩
    obtain ⟨database, inside, rfl | ⟨table, row, rfl⟩⟩ := mem_targets.mp member
    · refine ⟨database, inside, number, ?_⟩
      rcases scope with ⟨wide, _⟩ | ⟨kind, none⟩
      · exact .inl wide
      · exact .inr (.inl ⟨kind.symm, none.symm⟩)
    · refine ⟨database, inside, number, ?_⟩
      rcases scope with ⟨wide, _⟩ | ⟨kind, number⟩
      · exact .inl wide
      · exact .inr (.inr ⟨kind.symm, table, row, number⟩)
  · rintro ⟨database, inside, number, wide | ⟨kind, none⟩ | ⟨kind, table, row, same⟩⟩
    · exact ⟨database.target, mem_targets.mpr ⟨database, inside, .inl rfl⟩, number, .inl ⟨wide, rfl⟩⟩
    · exact ⟨database.target, mem_targets.mpr ⟨database, inside, .inl rfl⟩, number,
        .inr ⟨kind.symm, none.symm⟩⟩
    · exact ⟨database.tableTarget table, mem_targets.mpr ⟨database, inside, .inr ⟨table, row, rfl⟩⟩, number,
        .inr ⟨kind.symm, same⟩⟩

/-- Databases hold the objects that resolve. -/
theorem resolve_eq_ok {object : ObjectName} {target : Target} (found : world.resolve object = .ok target) :
    ∃ database ∈ world.databases, world.findDatabase object.databaseName = some database ∧
      (object = .database database.name ∧ target = database.target ∨
        object = .tables database.name ∧ target = database.scope ∨
        ∃ table ∈ database.tables, object = .table database.name table.1 ∧
          target = database.tableTarget table) := by
  unfold World.resolve at found
  split at found
  · cases found
  split at found
  · cases found
  cases looked : world.findDatabase object.databaseName with
  | none =>
      rw [looked] at found
      cases found
  | some database =>
      rw [looked] at found
      have inside := List.mem_of_find?_eq_some looked
      have named : database.name = object.databaseName := by simpa using List.find?_some looked
      refine ⟨database, inside, rfl, ?_⟩
      cases object with
      | database name =>
          cases found
          exact .inl ⟨congrArg ObjectName.database named.symm, rfl⟩
      | tables name =>
          cases found
          exact .inr (.inl ⟨congrArg ObjectName.tables named.symm, rfl⟩)
      | table parent name =>
          dsimp only at found
          cases row : database.tables.find? fun table => table.1 = name with
          | none =>
              rw [row] at found
              cases found
          | some table =>
              rw [row] at found
              cases found
              have same : table.1 = name := by simpa using List.find?_some row
              refine .inr (.inr ⟨table, List.mem_of_find?_eq_some row, ?_, rfl⟩)
              rw [same, named]
              rfl

theorem hasTarget_of_resolve {object : ObjectName} {target : Target}
    (found : world.resolve object = .ok target) : world.context.hasTarget target = true := by
  obtain ⟨database, inside, _, ⟨_, rfl⟩ | ⟨_, rfl⟩ | ⟨table, row, _, rfl⟩⟩ := resolve_eq_ok found
  · exact hasTarget_iff.mpr ⟨database, inside, rfl, .inr (.inl ⟨rfl, rfl⟩)⟩
  · exact hasTarget_iff.mpr ⟨database, inside, rfl, .inl rfl⟩
  · exact hasTarget_iff.mpr ⟨database, inside, rfl, .inr (.inr ⟨rfl, table, row, rfl⟩)⟩

end Lookups

/-! ### Loading the stored privileges -/

section Load

variable (world : World)

theorem load_cases : world.acl.pending = [] ∧ world.load = (world.context, effective world.context world.acl, world) ∨
    world.load = (world.context, effective world.context (effective world.context world.recover),
      { world with acl := effective world.context world.recover }) := by
  by_cases settled : world.acl.pending.isEmpty
  · exact .inl ⟨List.isEmpty_iff.mp settled, by simp only [World.load, settled, if_true]⟩
  · refine .inr ?_
    simp only [World.load, settled]
    rfl

theorem load_context : world.load.1 = world.context := by
  rcases load_cases world with ⟨_, loaded⟩ | loaded <;> rw [loaded]

theorem load_stable : Stable world.context world.load.2.1 := by
  rcases load_cases world with ⟨_, loaded⟩ | loaded <;> rw [loaded] <;> exact stable_effective _ _

theorem load_pending : world.load.2.1.pending = [] := by
  rcases load_cases world with ⟨settled, loaded⟩ | loaded <;> rw [loaded]
  · exact settled
  · rfl

theorem load_world : ∃ acl, world.load.2.2 = { world with acl } := by
  rcases load_cases world with ⟨_, loaded⟩ | loaded <;> rw [loaded]
  · exact ⟨world.acl, rfl⟩
  · exact ⟨_, rfl⟩

theorem load_edges {edge : Edge} (member : edge ∈ world.load.2.1.edges) : edge ∈ world.acl.edges := by
  rcases load_cases world with ⟨_, loaded⟩ | loaded <;> rw [loaded] at member
  · exact (mem_candidates.mp (effective_edges_subset edge member)).1
  · have first := (mem_candidates.mp (effective_edges_subset edge member)).1
    exact (mem_candidates.mp (effective_edges_subset edge first)).1

variable {world}

theorem load_settled (settled : world.acl.pending = []) :
    world.load = (world.context, effective world.context world.acl, world) := by
  simp [World.load, settled]

end Load

/-! ### The invariant -/

/-- Tables are numbered once, by numbers up to the largest one given out. -/
structure Database.Numbered (database : Database) : Prop where
  unique : (database.tables.map (·.2)).Nodup
  small : ∀ table ∈ database.tables, table.2 ≤ database.highWater

/-- So are databases. -/
structure Bounded (world : World) : Prop where
  unique : (world.databases.map (·.id)).Nodup
  small : ∀ database ∈ world.databases, database.id ≤ world.objectHighWater
  numbered : ∀ database ∈ world.databases, database.Numbered

/-- Only databases and tables are owned. -/
def Proper (acl : ACL) : Prop := ∀ owner ∈ acl.owners, owner.target.kind ≠ .tables

/-- What is stored is about roles and objects that exist. -/
structure Recorded (env : Context) (acl : ACL) : Prop where
  edge : ∀ edge ∈ acl.edges, edge ∈ candidates env acl
  owner : ∀ owner ∈ acl.owners, env.knownRole owner.role = true ∧ env.hasTarget owner.target = true
  proper : Proper acl

/-- Between two statements no creation is open. -/
structure Sound (world : World) : Prop where
  bounded : Bounded world
  pending : world.acl.pending = []
  recorded : Recorded world.context world.acl

/-- A statement keeps the stored privileges sound, and stable if they were. -/
structure Kept (world next : World) : Prop where
  sound : Sound next
  stable : Stable world.context world.acl → Stable next.context next.acl

section Recorded

variable {env other : Context} {acl : ACL} {world : World}

theorem recorded_effective (proper : Proper acl) : Recorded env (effective env acl) := by
  refine ⟨fun edge member => by rwa [candidates_effective], fun owner member => ?_, fun owner member => ?_⟩
  · exact (mem_liveOwners.mp member).2
  · exact proper owner (mem_liveOwners.mp member).1

theorem Recorded.grow (recorded : Recorded env acl) (grows : Grows env other) : Recorded other acl := by
  refine ⟨fun edge member => ?_, fun owner member => ?_, recorded.proper⟩
  · obtain ⟨_, role, grantor, target⟩ := mem_candidates.mp (recorded.edge edge member)
    exact mem_candidates.mpr ⟨member, grows.known _ role, grows.known _ grantor, grows.target _ target⟩
  · obtain ⟨role, target⟩ := recorded.owner owner member
    exact ⟨grows.known _ role, grows.target _ target⟩

/-- No grant is about an object that does not exist. -/
theorem Recorded.absent (recorded : Recorded env acl) {target : Target}
    (absent : env.hasTarget target = false) : ∀ edge ∈ acl.edges, edge.target ≠ target := by
  rintro edge member rfl
  have present := (mem_candidates.mp (recorded.edge edge member)).2.2.2
  rw [absent] at present
  cases present

theorem load_recorded (proper : Proper world.acl) : Recorded world.context world.load.2.1 := by
  rcases load_cases world with ⟨_, loaded⟩ | loaded <;> rw [loaded]
  · exact recorded_effective proper
  · refine recorded_effective fun owner member => ?_
    rcases List.mem_append.mp (mem_liveOwners.mp member).1 with fresh | old
    · obtain ⟨pending, _, inside⟩ := List.mem_flatMap.mp fresh
      obtain ⟨target, found, rfl⟩ := List.mem_map.mp inside
      have table : target.kind = .table := by
        have holds := (List.mem_filter.mp found).2
        rw [decide_eq_true_eq] at holds
        exact holds.1
      rw [table]
      decide
    · exact proper owner (List.mem_of_mem_filter old)

theorem Sound.refl (sound : Sound world) : Kept world world := ⟨sound, fun stable => stable⟩

theorem objectReconcile_eq (world : World) : objectReconcile world = { world with acl := world.load.2.1 } := by
  obtain ⟨acl, same⟩ := load_world world
  simp only [objectReconcile, same]

theorem Bounded.setAcl (bounded : Bounded world) (acl : ACL) : Bounded { world with acl } :=
  ⟨bounded.unique, bounded.small, bounded.numbered⟩

theorem reconcile_kept {changed : World} (bounded : Bounded changed) (proper : Proper changed.acl) :
    Kept world (objectReconcile changed) := by
  rw [objectReconcile_eq]
  exact ⟨⟨bounded.setAcl _, load_pending changed, load_recorded proper⟩, fun _ => load_stable changed⟩

/-- A statement that only makes the roles grow. -/
theorem Sound.grow (sound : Sound world) {next : World} (databases : next.databases = world.databases)
    (highWater : next.objectHighWater = world.objectHighWater) (acl : next.acl = world.acl)
    (grows : Grows world.context next.context) : Kept world next := by
  refine ⟨⟨⟨?_, ?_, ?_⟩, ?_, ?_⟩, ?_⟩
  · rw [databases]
    exact sound.bounded.unique
  · rw [databases, highWater]
    exact sound.bounded.small
  · rw [databases]
    exact sound.bounded.numbered
  · rw [acl]
    exact sound.pending
  · rw [acl]
    exact sound.recorded.grow grows
  · rw [acl]
    exact fun stable => stable.grow grows

end Recorded

end ChuSQL.Server.Acl
