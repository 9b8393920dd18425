import ChuSQL.Server.Acl.Effective
import ChuSQL.Server.Acl.Objects

/-! Stored grants that all have a source: what keeps them so when the roles, the
objects or the owners grow, and when a grant is recorded. -/

set_option autoImplicit false

namespace ChuSQL.Server.Acl

/-! ### Derivations carried along -/

section Transport

variable {env other : Context} {acl next : ACL}

theorem mem_candidates {edge : Edge} :
    edge ∈ candidates env acl ↔ edge ∈ acl.edges ∧ env.knownRole edge.role = true ∧
      env.knownRole edge.grantor = true ∧ env.hasTarget edge.target = true := by
  simp [candidates]

theorem Sourced.candidate {edge : Edge} (sourced : Sourced env acl edge) : edge ∈ candidates env acl := by
  cases sourced with
  | root candidate _ => exact candidate
  | owner candidate _ _ => exact candidate
  | grant candidate _ _ _ => exact candidate

/-- Two grants of one privilege on one object from one role to another. -/
def SameKey (one other : Edge) : Prop :=
  one.role = other.role ∧ one.grantor = other.grantor ∧ one.target = other.target ∧
    one.privilege = other.privilege

theorem sameKey_iff {one other : Edge} : sameKey one other = true ↔ SameKey one other := by
  simp [sameKey, SameKey]

/-- More roles count and inherit, and more objects exist. -/
structure Grows (env other : Context) : Prop where
  active : ∀ role, env.active role = true → other.active role = true
  known : ∀ role, env.knownRole role = true → other.knownRole role = true
  inherits : ∀ child parent, Inherits env child parent → Inherits other child parent
  target : ∀ target, env.hasTarget target = true → other.hasTarget target = true

theorem Grows.refl (env : Context) : Grows env env :=
  ⟨fun _ active => active, fun _ known => known, fun _ _ inherits => inherits, fun _ present => present⟩

/-- A derivation stays one when each grant is replaced by one of the same key that
keeps its grant option and its root flag. -/
theorem Sourced.map (replace : Edge → Edge) (grows : Grows env other)
    (stored : ∀ edge ∈ candidates env acl, replace edge ∈ next.edges)
    (key : ∀ edge, SameKey edge (replace edge))
    (option : ∀ edge ∈ candidates env acl, edge.option = true → (replace edge).option = true)
    (root : ∀ edge ∈ candidates env acl, edge.root = true → (replace edge).root = true)
    (owners : ∀ edge ∈ candidates env acl,
      owns env { acl with owners := liveOwners env acl } edge.grantor edge.target = true →
        owns other { next with owners := liveOwners other next } edge.grantor edge.target = true)
    {edge : Edge} (sourced : Sourced env acl edge) : Sourced other next (replace edge) := by
  have kept : ∀ edge ∈ candidates env acl, replace edge ∈ candidates other next := by
    intro edge candidate
    obtain ⟨role, grantor, target, _⟩ := key edge
    obtain ⟨_, knownRole, knownGrantor, present⟩ := mem_candidates.mp candidate
    rw [role] at knownRole
    rw [grantor] at knownGrantor
    rw [target] at present
    exact mem_candidates.mpr ⟨stored edge candidate, grows.known _ knownRole, grows.known _ knownGrantor,
      grows.target _ present⟩
  induction sourced with
  | root candidate isRoot => exact .root (kept _ candidate) (root _ candidate isRoot)
  | @owner edge candidate active owned =>
      obtain ⟨_, grantor, target, _⟩ := key edge
      have owned := owners edge candidate owned
      rw [grantor] at active owned
      rw [target] at owned
      exact .owner (kept edge candidate) (grows.active _ active) owned
  | @grant source edge candidate active supports sourced ih =>
      obtain ⟨sourceRole, _, sourceTarget, sourcePrivilege⟩ := key source
      obtain ⟨_, grantor, target, privilege⟩ := key edge
      obtain ⟨sourceActive, optionHeld, inherited, samePrivilege, covered⟩ := supports
      refine .grant (kept edge candidate) (grantor ▸ grows.active _ active) ?_ ih
      refine ⟨sourceRole ▸ grows.active _ sourceActive, option source sourced.candidate optionHeld, ?_, ?_, ?_⟩
      · rw [← sourceRole, ← grantor]
        exact roles_mono grows.inherits inherited
      · rw [← sourcePrivilege, ← privilege]
        exact samePrivilege
      · rw [← sourceTarget, ← target]
        exact covered

theorem owns_iff {identity : RoleId} {target : Target} :
    owns env acl identity target = true ↔ ∃ owner ∈ acl.owners, owner.role ∈ env.roles identity ∧
      owner.target = target ∧ env.active owner.role = true := by
  simp [owns]

theorem mem_liveOwners {owner : Owner} :
    owner ∈ liveOwners env acl ↔ owner ∈ acl.owners ∧ env.knownRole owner.role = true ∧
      env.hasTarget owner.target = true := by
  simp [liveOwners]

/-- Ownership stays where the roles and objects grow and the owners of an object are kept. -/
theorem owns_live_mono (grows : Grows env other) {identity : RoleId} {target : Target}
    (kept : ∀ owner ∈ acl.owners, owner.target = target → owner ∈ next.owners)
    (owned : owns env { acl with owners := liveOwners env acl } identity target = true) :
    owns other { next with owners := liveOwners other next } identity target = true := by
  obtain ⟨owner, live, inherited, same, active⟩ := owns_iff.mp owned
  obtain ⟨stored, known, present⟩ := mem_liveOwners.mp live
  refine owns_iff.mpr ⟨owner, ?_, roles_mono grows.inherits inherited, same, grows.active _ active⟩
  exact mem_liveOwners.mpr ⟨kept owner stored same, grows.known _ known, grows.target _ present⟩

end Transport

/-! ### Stored grants with a source -/

/-- Every stored grant has a source. -/
def Stable (env : Context) (acl : ACL) : Prop := ∀ edge ∈ acl.edges, Sourced env acl edge

section Stable

variable {env other : Context} {acl : ACL}

theorem stable_effective (env : Context) (acl : ACL) : Stable env (effective env acl) := by
  intro edge member
  rw [← effective_idempotent env acl] at member
  exact mem_effective.mp member

/-- Grants that all have a source are the grants that count. -/
theorem Stable.perm (stable : Stable env acl) : (effective env acl).edges.Perm acl.edges := by
  have all : candidates env acl = acl.edges :=
    List.filter_eq_self.mpr fun edge member => (List.mem_filter.mp (stable edge member).candidate).2
  refine List.perm_iff_count.mpr fun edge => ?_
  by_cases member : edge ∈ acl.edges
  · rw [count_effective (mem_effective.mpr (stable edge member)), all]
  · have absent : edge ∉ (effective env acl).edges := fun inside => by
      have candidate := effective_edges_subset edge inside
      exact member (mem_candidates.mp candidate).1
    rw [List.count_eq_zero_of_not_mem member, List.count_eq_zero_of_not_mem absent]

theorem Stable.grow (stable : Stable env acl) (grows : Grows env other) : Stable other acl := by
  intro edge member
  refine Sourced.map (fun edge => edge) grows ?_ ?_ ?_ ?_ ?_ (stable edge member)
  · exact fun edge candidate => (mem_candidates.mp candidate).1
  · exact fun edge => ⟨rfl, rfl, rfl, rfl⟩
  · exact fun _ _ option => option
  · exact fun _ _ root => root
  · exact fun edge _ owned => owns_live_mono grows (fun owner stored _ => stored) owned

/-- A new owner of an object that no grant is about. -/
theorem Stable.claim (stable : Stable env acl) {identity : RoleId} {target : Target}
    (unused : ∀ edge ∈ acl.edges, edge.target ≠ target) :
    Stable env { acl with
      owners := ⟨identity, target⟩ :: acl.owners.filter fun owner => owner.target ≠ target } := by
  intro edge member
  refine Sourced.map (fun edge => edge) (Grows.refl env) ?_ ?_ ?_ ?_ ?_ (stable edge member)
  · exact fun edge candidate => (mem_candidates.mp candidate).1
  · exact fun edge => ⟨rfl, rfl, rfl, rfl⟩
  · exact fun _ _ option => option
  · exact fun _ _ root => root
  · intro edge candidate owned
    have fresh := unused edge (mem_candidates.mp candidate).1
    refine owns_live_mono (Grows.refl env) (fun owner stored same => ?_) owned
    exact List.mem_cons_of_mem _ (List.mem_filter.mpr ⟨stored, by simpa [same] using fresh⟩)

end Stable

/-! ### Recording a grant -/

section Record

variable {env : Context} {acl : ACL} {edges : List Edge}

/-- The grant recorded for a new edge: it keeps the grant option of the grants it replaces. -/
def promoted (acl : ACL) (edge : Edge) : Edge :=
  { edge with option := edge.option || acl.edges.any fun old => sameKey old edge && old.option }

/-- The grant that stands for a stored one after some grants are recorded. -/
def replacement (acl : ACL) (edges : List Edge) (old : Edge) : Edge :=
  match edges.find? (sameKey old) with
  | some edge => promoted acl edge
  | none => old

theorem SameKey.symm {one other : Edge} (same : SameKey one other) : SameKey other one :=
  ⟨same.1.symm, same.2.1.symm, same.2.2.1.symm, same.2.2.2.symm⟩

theorem mem_recordGrants {edge : Edge} :
    edge ∈ recordGrants acl edges ↔ (edge ∈ acl.edges ∧ ∀ recorded ∈ edges, ¬SameKey edge recorded) ∨
      ∃ recorded ∈ edges, promoted acl recorded = edge := by
  simp [recordGrants, promoted, ← sameKey_iff]

theorem replacement_key (old : Edge) : SameKey old (replacement acl edges old) := by
  unfold replacement
  cases found : edges.find? (sameKey old) with
  | none => exact ⟨rfl, rfl, rfl, rfl⟩
  | some edge =>
      have same : SameKey old edge := sameKey_iff.mp (List.find?_some found)
      exact same

theorem replacement_stored {old : Edge} (stored : old ∈ acl.edges) :
    replacement acl edges old ∈ recordGrants acl edges := by
  unfold replacement
  cases found : edges.find? (sameKey old) with
  | none =>
      refine mem_recordGrants.mpr (.inl ⟨stored, fun recorded member same => ?_⟩)
      exact List.find?_eq_none.mp found recorded member (sameKey_iff.mpr same)
  | some edge => exact mem_recordGrants.mpr (.inr ⟨edge, List.mem_of_find?_eq_some found, rfl⟩)

theorem replacement_of_kept {old : Edge} (kept : ∀ recorded ∈ edges, ¬SameKey old recorded) :
    replacement acl edges old = old := by
  have none : edges.find? (sameKey old) = none :=
    List.find?_eq_none.mpr fun recorded member same => kept recorded member (sameKey_iff.mp same)
  simp only [replacement, none]

theorem replacement_option {old : Edge} (stored : old ∈ acl.edges) (option : old.option = true) :
    (replacement acl edges old).option = true := by
  unfold replacement
  cases found : edges.find? (sameKey old) with
  | none => exact option
  | some edge =>
      have same := List.find?_some found
      refine Bool.or_eq_true _ _ ▸ .inr (List.any_eq_true.mpr ⟨old, stored, ?_⟩)
      rw [Bool.and_eq_true]
      exact ⟨same, option⟩

/-- No root grant is replaced by a grant that is none. -/
def KeepsRoots (acl : ACL) (edges : List Edge) : Prop :=
  ∀ old ∈ acl.edges, ∀ edge ∈ edges, SameKey old edge → old.root = true → edge.root = true

theorem replacement_root (keeps : KeepsRoots acl edges) {old : Edge} (stored : old ∈ acl.edges)
    (root : old.root = true) : (replacement acl edges old).root = true := by
  unfold replacement
  cases found : edges.find? (sameKey old) with
  | none => exact root
  | some edge =>
      exact keeps old stored edge (List.mem_of_find?_eq_some found) (sameKey_iff.mp (List.find?_some found)) root

/-- A grant that counted still does after some grants are recorded, in its new form. -/
theorem Sourced.record (keeps : KeepsRoots acl edges) {next : ACL}
    (recorded : next.edges = recordGrants acl edges) (owners : next.owners = acl.owners) {old : Edge}
    (sourced : Sourced env acl old) : Sourced env next (replacement acl edges old) := by
  refine Sourced.map (replacement acl edges) (Grows.refl env) ?_ replacement_key ?_ ?_ ?_ sourced
  · intro old candidate
    rw [recorded]
    exact replacement_stored (mem_candidates.mp candidate).1
  · exact fun old candidate option => replacement_option (mem_candidates.mp candidate).1 option
  · exact fun old candidate root => replacement_root keeps (mem_candidates.mp candidate).1 root
  · intro old candidate owned
    exact owns_live_mono (Grows.refl env) (fun owner stored _ => owners ▸ stored) owned

theorem recordGrants_candidates (stored : ∀ edge ∈ acl.edges, edge ∈ candidates env acl)
    (valid : ∀ edge ∈ edges, env.knownRole edge.role = true ∧ env.knownRole edge.grantor = true ∧
      env.hasTarget edge.target = true) {next : ACL} (recorded : next.edges = recordGrants acl edges) :
    ∀ edge ∈ next.edges, edge ∈ candidates env next := by
  intro edge member
  refine mem_candidates.mpr ⟨member, ?_⟩
  rw [recorded] at member
  rcases mem_recordGrants.mp member with ⟨old, _⟩ | ⟨source, inside, rfl⟩
  · exact (mem_candidates.mp (stored edge old)).2
  · exact valid source inside

/-- Recording grants that have a source of their own, or are root grants. -/
theorem Stable.record (stable : Stable env acl) (keeps : KeepsRoots acl edges) {next : ACL}
    (recorded : next.edges = recordGrants acl edges) (owners : next.owners = acl.owners)
    (valid : ∀ edge ∈ edges, env.knownRole edge.role = true ∧ env.knownRole edge.grantor = true ∧
      env.hasTarget edge.target = true)
    (supported : ∀ edge ∈ edges, edge.root = true ∨
      SupportedBy env acl {source | source ∈ acl.edges} edge) : Stable env next := by
  intro edge member
  rw [recorded] at member
  rcases mem_recordGrants.mp member with ⟨stored, kept⟩ | ⟨source, inside, rfl⟩
  · have carried := (stable edge stored).record keeps recorded owners
    rwa [replacement_of_kept kept] at carried
  · have candidate : promoted acl source ∈ candidates env next := by
      rw [mem_candidates, recorded]
      exact ⟨member, valid source inside⟩
    rcases supported source inside with root | ⟨active, owned | ⟨grant, stored, supports⟩⟩
    · exact .root candidate root
    · refine .owner candidate active ?_
      exact owns_live_mono (Grows.refl env) (fun owner stored _ => owners ▸ stored) owned
    · obtain ⟨role, _, target, privilege⟩ := @replacement_key acl edges grant
      obtain ⟨sourceActive, option, inherited, samePrivilege, covered⟩ := supports
      refine .grant candidate active ?_ ((stable grant stored).record keeps recorded owners)
      refine ⟨role ▸ sourceActive, replacement_option stored option, role ▸ inherited, ?_, ?_⟩
      · exact privilege.symm.trans samePrivilege
      · exact target ▸ covered

end Record

end ChuSQL.Server.Acl
