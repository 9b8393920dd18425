import ChuSQL.Server.Acl.Basic

/-! The grants that count are the least set that holds the root grants and
whatever an owner or a counting grant option supports. -/

set_option autoImplicit false

namespace ChuSQL.Server.Acl

open Library.Growth

/-! ### Roles -/

section Roles

variable (env : Context)

theorem mem_join (known more : List RoleId) (role : RoleId) :
    role ∈ (known ++ more).eraseDups ↔ role ∈ known ∨ role ∈ more := by
  rw [List.mem_eraseDups, List.mem_append]

/-- One active role is a member of the other. -/
def Inherits (child parent : RoleId) : Prop := (parent, child) ∈ env.pairs

variable {env}

theorem mem_parents {known : List RoleId} {role : RoleId} :
    role ∈ env.parents known ↔ role ∉ known ∧ ∃ child ∈ known, Inherits env child role := by
  simp only [Context.parents, List.mem_map, List.mem_filter, decide_eq_true_eq]
  constructor
  · rintro ⟨pair, ⟨member, child, fresh⟩, rfl⟩
    exact ⟨fresh, pair.2, child, member⟩
  · rintro ⟨fresh, child, inside, inherits⟩
    exact ⟨(role, child), ⟨inherits, inside, fresh⟩, rfl⟩

/-- An identity has the role of everyone and the roles above it. -/
theorem mem_roles {value role : RoleId} :
    role ∈ env.roles value ↔ role = .everyone ∨ Relation.ReflTransGen (Inherits env) value role := by
  have member : role ∈ env.roles value ↔ role = .everyone ∨
      role ∈ grow env.parents (fun known more => (known ++ more).eraseDups) env.pairs.length [value] := by
    rw [Context.roles, List.mem_eraseDups, List.mem_cons]
  rw [member]
  refine or_congr_right ⟨?_, ?_⟩
  · refine grow_induction mem_join ?_ env.pairs.length ?_ role
    · intro known above parent missing
      obtain ⟨_, child, inside, inherits⟩ := mem_parents.mp missing
      exact (above child inside).tail inherits
    · intro item start
      rw [List.mem_singleton.mp start]
  · intro path
    have pool : ∀ known, ∀ parent ∈ env.parents known, parent ∈ env.pairs.map (·.1) ∧ parent ∉ known := by
      intro known parent missing
      obtain ⟨fresh, child, _, inherits⟩ := mem_parents.mp missing
      exact ⟨List.mem_map.mpr ⟨(parent, child), inherits, rfl⟩, fresh⟩
    have closed := grow_closed mem_join pool env.pairs.length [value]
      ((List.length_filter_le _ _).trans (by rw [List.length_map]))
    clear member
    induction path with
    | refl => exact subset_grow mem_join _ (List.mem_singleton_self value)
    | @tail child parent _ inherits ih =>
        by_contra fresh
        have missing := mem_parents.mpr ⟨fresh, child, ih, inherits⟩
        rw [closed] at missing
        cases missing

theorem self_mem_roles (value : RoleId) : value ∈ env.roles value := mem_roles.mpr (.inr .refl)

theorem everyone_mem_roles (value : RoleId) : .everyone ∈ env.roles value := mem_roles.mpr (.inl rfl)

theorem roles_mono {other : Context} (more : ∀ child parent, Inherits env child parent →
    Inherits other child parent) {value role : RoleId} (member : role ∈ env.roles value) :
    role ∈ other.roles value :=
  mem_roles.mpr ((mem_roles.mp member).imp_right fun path => Relation.ReflTransGen.mono more _ _ path)

end Roles

/-! ### Scopes -/

theorem covers_trans {source middle target : Target} (first : covers source middle = true)
    (second : covers middle target = true) : covers source target = true := by
  simp only [covers, decide_eq_true_eq] at first second ⊢
  obtain ⟨sameFirst, first⟩ := first
  obtain ⟨sameSecond, second⟩ := second
  refine ⟨sameFirst.trans sameSecond, ?_⟩
  rcases first with ⟨wide, inner⟩ | ⟨kind, table⟩
  · refine .inl ⟨wide, ?_⟩
    rcases second with ⟨_, below⟩ | ⟨kind, _⟩
    · exact below
    · rwa [kind] at inner
  · rcases second with ⟨wide, inner⟩ | ⟨kindSecond, tableSecond⟩
    · exact .inl ⟨kind.trans wide, inner⟩
    · exact .inr ⟨kind.trans kindSecond, table.trans tableSecond⟩

theorem covers_refl (target : Target) : covers target target = true := by
  simp [covers]

/-! ### The least closed set -/

section Sources

variable (env : Context) (acl : ACL)

/-- A grant option supports an edge of someone who inherits it. -/
def Supports (source edge : Edge) : Prop :=
  env.active source.role = true ∧ source.option = true ∧ source.role ∈ env.roles edge.grantor ∧
    source.privilege = edge.privilege ∧ covers source.target edge.target = true

/-- An active grantor owns the object, or holds a grant option from a set. -/
def SupportedBy (known : Set Edge) (edge : Edge) : Prop :=
  env.active edge.grantor = true ∧
    (owns env { acl with owners := liveOwners env acl } edge.grantor edge.target = true ∨
      ∃ source ∈ known, Supports env source edge)

/-- Sets with the root grants and every candidate they support. -/
def Closed (edges : Set Edge) : Prop :=
  (∀ edge ∈ candidates env acl, edge.root = true → edge ∈ edges) ∧
    ∀ edge ∈ candidates env acl, SupportedBy env acl edges edge → edge ∈ edges

variable {env acl}

theorem supported_iff {known : List Edge} {edge : Edge} :
    supported env acl known edge = true ↔ SupportedBy env acl {source | source ∈ known} edge := by
  simp [supported, SupportedBy, Supports]

theorem SupportedBy.mono {known more : Set Edge} (sub : known ⊆ more) {edge : Edge}
    (support : SupportedBy env acl known edge) : SupportedBy env acl more edge :=
  ⟨support.1, support.2.imp_right fun ⟨source, member, supports⟩ => ⟨source, sub member, supports⟩⟩

theorem mem_rootEdges {edge : Edge} :
    edge ∈ rootEdges env acl ↔ edge ∈ candidates env acl ∧ edge.root = true := by
  simp [rootEdges]

theorem effective_edges_subset : ∀ edge ∈ (effective env acl).edges, edge ∈ candidates env acl := by
  refine closure_induction (fun _ _ _ candidate _ => candidate) _ fun edge member => ?_
  exact (mem_rootEdges.mp member).1

/-- The closure is the least set with the root grants and what it supports. -/
theorem effective_least : IsLeast {edges | Closed env acl edges} {edge | edge ∈ (effective env acl).edges} := by
  refine ⟨⟨?_, ?_⟩, ?_⟩
  · intro edge candidate root
    exact subset_closure _ (mem_rootEdges.mpr ⟨candidate, root⟩)
  · intro edge candidate support
    exact mem_closure_of_supported le_rfl candidate (supported_iff.mpr support)
  · intro edges closed edge member
    refine @closure_induction _ _ _ _ (· ∈ edges) ?_ _ _ ?_ edge member
    · intro known inside edge candidate support
      exact closed.2 edge candidate ((supported_iff.mp support).mono inside)
    · intro edge start
      obtain ⟨candidate, root⟩ := mem_rootEdges.mp start
      exact closed.1 edge candidate root

/-- Grants with a finite derivation from root grants and owners. -/
inductive Sourced (env : Context) (acl : ACL) : Edge → Prop where
  | root {edge : Edge} : edge ∈ candidates env acl → edge.root = true → Sourced env acl edge
  | owner {edge : Edge} : edge ∈ candidates env acl → env.active edge.grantor = true →
      owns env { acl with owners := liveOwners env acl } edge.grantor edge.target = true →
      Sourced env acl edge
  | grant {source edge : Edge} : edge ∈ candidates env acl → env.active edge.grantor = true →
      Supports env source edge → Sourced env acl source → Sourced env acl edge

theorem mem_effective {edge : Edge} : edge ∈ (effective env acl).edges ↔ Sourced env acl edge := by
  constructor
  · have closed : Closed env acl {edge | Sourced env acl edge} := by
      refine ⟨fun edge candidate root => .root candidate root, ?_⟩
      rintro edge candidate ⟨active, owned | ⟨source, sourced, supports⟩⟩
      · exact .owner candidate active owned
      · exact .grant candidate active supports sourced
    intro member
    exact effective_least.2 closed member
  · intro sourced
    induction sourced with
    | root candidate root => exact effective_least.1.1 _ candidate root
    | owner candidate active owned => exact effective_least.1.2 _ candidate ⟨active, .inl owned⟩
    | grant candidate active supports _ ih =>
        exact effective_least.1.2 _ candidate ⟨active, .inr ⟨_, ih, supports⟩⟩

/-- The source of a grant: the administrator, an owner, or another grant. -/
def Rooted (env : Context) (acl : ACL) (edge : Edge) : Prop :=
  edge.root = true ∨ env.active edge.grantor = true ∧
    owns env { acl with owners := liveOwners env acl } edge.grantor edge.target = true

/-- Each counting grant has a finite chain of counting grants behind it, up to a
root grant or an owner. -/
theorem exists_chain {edge : Edge} (member : edge ∈ (effective env acl).edges) :
    ∃ last chain, (edge :: chain).getLast? = some last ∧ Rooted env acl last ∧
      (∀ link ∈ edge :: chain, link ∈ (effective env acl).edges) ∧
      (edge :: chain).IsChain fun granted source =>
        env.active granted.grantor = true ∧ Supports env source granted := by
  have sourced := mem_effective.mp member
  induction sourced with
  | @root edge candidate root =>
      refine ⟨edge, [], rfl, .inl root, ?_, .singleton edge⟩
      exact List.forall_mem_singleton.mpr member
  | @owner edge candidate active owned =>
      refine ⟨edge, [], rfl, .inr ⟨active, owned⟩, ?_, .singleton edge⟩
      exact List.forall_mem_singleton.mpr member
  | @grant source edge candidate active supports sourced ih =>
      obtain ⟨last, chain, ends, rooted, counted, linked⟩ := ih (mem_effective.mpr sourced)
      refine ⟨last, source :: chain, ?_, rooted, ?_, ?_⟩
      · rw [List.getLast?_cons_cons]
        exact ends
      · exact List.forall_mem_cons.mpr ⟨member, counted⟩
      · exact List.isChain_cons_cons.mpr ⟨⟨active, supports⟩, linked⟩

/-! ### Computing the closure again -/

theorem count_effective {edge : Edge} (member : edge ∈ (effective env acl).edges) :
    (effective env acl).edges.count edge = (candidates env acl).count edge := by
  refine count_closure _ (fun item start => ?_) edge member
  rw [rootEdges, List.count_filter (mem_rootEdges.mp start).2]

theorem liveOwners_effective : liveOwners env (effective env acl) = liveOwners env acl := by
  simp only [liveOwners, effective, List.filter_filter, Bool.and_self]

theorem supported_effective : supported env (effective env acl) = supported env acl := by
  funext known edge
  rw [Bool.eq_iff_iff, supported_iff, supported_iff]
  simp only [SupportedBy, owns, liveOwners_effective]

theorem candidates_effective : candidates env (effective env acl) = (effective env acl).edges :=
  List.filter_eq_self.mpr fun edge member => (List.mem_filter.mp (effective_edges_subset edge member)).2

theorem rootEdges_effective : rootEdges env (effective env acl) = rootEdges env acl := by
  obtain ⟨added, same, fresh⟩ := @closure_eq_append _ _ (supported env acl) (candidates env acl)
    (candidates env acl).length (rootEdges env acl)
  have grown : (effective env acl).edges = rootEdges env acl ++ added := same
  have kept : (rootEdges env acl).filter (·.root) = rootEdges env acl :=
    List.filter_eq_self.mpr fun edge member => (mem_rootEdges.mp member).2
  have none : added.filter (·.root) = [] := by
    refine List.filter_eq_nil_iff.mpr fun edge member root => ?_
    obtain ⟨candidate, absent⟩ := fresh edge member
    exact absent (mem_rootEdges.mpr ⟨candidate, root⟩)
  rw [rootEdges, candidates_effective, grown, List.filter_append, kept, none, List.append_nil]

/-- The closure of the closure is the closure. -/
theorem effective_idempotent (env : Context) (acl : ACL) :
    effective env (effective env acl) = effective env acl := by
  have edges : (effective env (effective env acl)).edges = (effective env acl).edges := by
    show closure (supported env (effective env acl)) (candidates env (effective env acl))
      (candidates env (effective env acl)).length (rootEdges env (effective env acl)) = _
    rw [supported_effective, candidates_effective, rootEdges_effective]
    exact closure_again (Nat.le_add_left _ _)
  have owners : (effective env (effective env acl)).owners = (effective env acl).owners :=
    liveOwners_effective
  have closed : (effective env (effective env acl)).closed = (effective env acl).closed := by
    simp only [effective, List.filter_filter, Bool.and_self]
  rw [effective, ACL.mk.injEq]
  exact ⟨edges, owners, closed, rfl⟩

/-- The order of the stored edges does not matter. -/
theorem effective_perm {other : ACL} (edges : acl.edges.Perm other.edges) (owners : acl.owners = other.owners) :
    (effective env acl).edges.Perm (effective env other).edges := by
  have same : (candidates env acl).Perm (candidates env other) := edges.filter _
  have live : liveOwners env acl = liveOwners env other := by rw [liveOwners, liveOwners, owners]
  have forth : ∀ {first second : ACL}, (candidates env first).Perm (candidates env second) →
      liveOwners env first = liveOwners env second → ∀ edge, Sourced env first edge → Sourced env second edge := by
    intro first second same live edge sourced
    induction sourced with
    | root candidate root => exact .root (same.mem_iff.mp candidate) root
    | owner candidate active owned =>
        refine .owner (same.mem_iff.mp candidate) active ?_
        rw [owns, ← live]
        exact owned
    | grant candidate active supports _ ih => exact .grant (same.mem_iff.mp candidate) active supports ih
  refine List.perm_iff_count.mpr fun edge => ?_
  by_cases member : edge ∈ (effective env acl).edges
  · have memberOther := mem_effective.mpr (forth same live edge (mem_effective.mp member))
    rw [count_effective member, count_effective memberOther, same.count_eq]
  · have absent : edge ∉ (effective env other).edges := fun inside =>
      member (mem_effective.mpr (forth same.symm live.symm edge (mem_effective.mp inside)))
    rw [List.count_eq_zero_of_not_mem member, List.count_eq_zero_of_not_mem absent]

end Sources

end ChuSQL.Server.Acl
