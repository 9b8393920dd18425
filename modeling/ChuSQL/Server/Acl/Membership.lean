import ChuSQL.Server.Acl.Reachable
import ChuSQL.Server.Acl.Notify
import ChuSQL.Library.Cycles

/-! Role membership has no cycles, whichever statements change it and wherever one of them
fails on the way. -/

set_option autoImplicit false

namespace ChuSQL.Server.Acl

open Library Library.Growth

/-! ### Statements as they are written -/

/-- A statement on identities and memberships, with names as they were typed. Each write of a
membership comes with the error it meets, if it meets one. -/
inductive Statement where
  | account (command : AccountCommand)
  | createRole (role : String)
  | dropRole (role : String)
  | grantRole (role : String) (members : List (String × Option String))
  | revokeRole (role : String) (members : List (String × Option String))

/-- Run actions in turn up to the first that fails; what was done before it stays. -/
def eachAction {Item : Type} (action : World → Item → Except String World) :
    World → List Item → Except String Unit × World
  | world, [] => (.ok (), world)
  | world, item :: rest =>
      match action world item with
      | .error message => (.error message, world)
      | .ok next => eachAction action next rest

local instance pairs_lawful : LawfulBEq (String × String) := inferInstance

def addMember (world : World) (role user : String) : World := { world with members := world.members ++ [(role, user)] }

def removeMember (world : World) (role user : String) : World :=
  { world with members := world.members.filter fun row => row ≠ (role, user) }

/-- All members are checked before the first is written; those there already are left out. -/
def grantRole (world : World) (role : String) (members : List (String × Option String)) :
    Except String Unit × World :=
  match validateMembers (readRoleNames world) world.members role (members.map (·.1)) with
  | .error message => (.error message, world)
  | .ok () =>
      let pairs := world.members
      eachAction (fun world member =>
        if (role, member.1) ∈ pairs then .ok world else refuse member.2 (addMember world role member.1)) world members

def revokeRole (world : World) (role : String) (members : List (String × Option String)) :
    Except String Unit × World :=
  match eachAction (fun world member => refuse member.2 (removeMember world role member.1)) world members with
  | (.error message, world) => (.error message, world)
  | (.ok (), world) => (.ok (), objectReconcile world)

def adminRequired : String := "administrator required"

/-- One statement of a session. `fold` is how names are brought to lower case and trimmed. -/
def runStatement (fold : String → String) (world : World) (client : Client) :
    Statement → Except String Unit × World
  | .account command => step world client (.account command)
  | .createRole role => step world client (.role (.create (fold role)))
  | .dropRole role => step world client (.role (.drop (fold role)))
  | .grantRole role members =>
      match validatePrincipal world client with
      | .error message => (.error message, world)
      | .ok () =>
          if !client.principal.isRoot then (.error adminRequired, world)
          else grantRole world (fold role) (members.map fun member => (fold member.1, member.2))
  | .revokeRole role members =>
      match validatePrincipal world client with
      | .error message => (.error message, world)
      | .ok () =>
          if !client.principal.isRoot then (.error adminRequired, world)
          else revokeRole world (fold role) (members.map fun member => (fold member.1, member.2))

def runStatements (fold : String → String) (world : World) (statements : List (Client × Statement)) : World :=
  statements.foldl (fun world statement => (runStatement fold world statement.1 statement.2).2) world

/-! ### The check before a grant -/

theorem mem_joinNames (known more : List String) (name : String) :
    name ∈ (known ++ more).eraseDups ↔ name ∈ known ∨ name ∈ more := by
  rw [List.mem_eraseDups, List.mem_append]

/-- The closure holds exactly what is above what it started from. -/
theorem mem_closureUp {edges : List (String × String)} {start name : String} :
    name ∈ closureUp edges [start] ↔ Relation.ReflTransGen (Above edges) start name := by
  have missing : ∀ (known : List String) (parent : String), parent ∈ ((edges.filter fun edge => decide (edge.2 ∈ known ∧ edge.1 ∉ known)).map (·.1)) ↔
      parent ∉ known ∧ ∃ child ∈ known, Above edges child parent := by
    intro known parent
    rw [List.mem_map]
    constructor
    · intro found
      obtain ⟨edge, kept, same⟩ := found
      obtain ⟨member, both⟩ := List.mem_filter.mp kept
      have both := of_decide_eq_true both
      subst same
      exact And.intro both.2 (Exists.intro edge.2 (And.intro both.1 member))
    · intro found
      obtain ⟨fresh, child, inside, above⟩ := found
      exact Exists.intro (parent, child)
        (And.intro (List.mem_filter.mpr (And.intro above (decide_eq_true (And.intro inside fresh)))) rfl)
  rw [closureUp]
  constructor
  · refine grow_induction mem_joinNames ?_ edges.length ?_ name
    · intro known above parent found
      obtain ⟨_, child, inside, edge⟩ := (missing known parent).mp found
      exact (above child inside).tail edge
    · intro item first
      rw [List.mem_singleton.mp first]
  · intro path
    have pool : ∀ (known : List String), ∀ parent ∈ ((edges.filter fun edge => decide (edge.2 ∈ known ∧ edge.1 ∉ known)).map (·.1)),
        parent ∈ edges.map (·.1) ∧ parent ∉ known := by
      intro known parent found
      obtain ⟨fresh, child, _, above⟩ := (missing known parent).mp found
      exact And.intro (List.mem_map.mpr (Exists.intro (parent, child) (And.intro above rfl))) fresh
    have closed := grow_closed mem_joinNames pool edges.length [start]
      ((List.length_filter_le _ _).trans (by rw [List.length_map]))
    induction path with
    | refl => exact subset_grow mem_joinNames _ (List.mem_singleton_self start)
    | @tail child parent _ above ih =>
        by_contra fresh
        have left := (missing _ parent).mpr (And.intro fresh (Exists.intro child (And.intro ih above)))
        rw [closed] at left
        cases left

theorem foldMembers_ok {role : String} {members before : List String} {pairs : List (String × String)} :
    validateMembers.foldMembers role (before.map (fun member => (role, member)) ++ pairs) members = .ok () ↔
      ∀ member ∈ members, ¬Relation.ReflTransGen (Above pairs) role member := by
  induction members generalizing before with
  | nil => exact iff_of_true rfl (List.forall_mem_nil _)
  | cons member rest ih =>
      have above : member ∈ closureUp (before.map (fun member => (role, member)) ++ pairs) [role] ↔
          Relation.ReflTransGen (Above pairs) role member := by
        rw [mem_closureUp]
        exact Iff.intro above_parent (above_mono (List.subset_append_right _ _))
      rw [validateMembers.foldMembers, List.forall_mem_cons]
      by_cases found : member ∈ closureUp (before.map (fun member => (role, member)) ++ pairs) [role]
      · rw [if_pos found]
        exact iff_of_false (fun same => by cases same) fun all => all.1 (above.mp found)
      · rw [if_neg found]
        have later := @ih (member :: before)
        rw [List.map_cons, List.cons_append] at later
        rw [later]
        exact (and_iff_right fun path => found (above.mpr path)).symm

theorem validateMembers_ok {names members : List String} {pairs : List (String × String)} {role : String} :
    validateMembers names pairs role members = .ok () ↔
      role ∈ names ∧ ∀ member ∈ members, member ∈ names ∧ ¬Relation.ReflTransGen (Above pairs) role member := by
  have unfolded := @foldMembers_ok role members [] pairs
  rw [List.map_nil, List.nil_append] at unfolded
  rw [validateMembers]
  split
  · rename_i unknown
    exact iff_of_false (fun same => by cases same) fun all => unknown all.1
  · rename_i known
    split
    · rename_i unknown
      obtain ⟨member, inside, missing⟩ := List.any_eq_true.mp unknown
      exact iff_of_false (fun same => by cases same) fun all => of_decide_eq_true missing (all.2 member inside).1
    · rename_i named
      rw [unfolded]
      constructor
      · intro apart
        refine And.intro (not_not.mp known) fun member inside => And.intro ?_ (apart member inside)
        by_contra missing
        exact named (List.any_eq_true.mpr (Exists.intro member (And.intro inside (decide_eq_true missing))))
      · exact fun all member inside => (all.2 member inside).2

/-! ### What a statement leaves of the memberships -/

theorem eachAction_holds {Item : Type} {action : World → Item → Except String World} {holds : World → Prop}
    {items : List Item} {world : World} (start : holds world)
    (each : ∀ world item next, item ∈ items → holds world → action world item = .ok next → holds next) :
    holds (eachAction action world items).2 := by
  induction items generalizing world with
  | nil => exact start
  | cons item rest ih =>
      rw [eachAction]
      cases done : action world item with
      | error message => exact start
      | ok next =>
          exact ih (each world item next List.mem_cons_self start done) fun world other next member =>
            each world other next (List.mem_cons_of_mem _ member)

/-- A grant that fails on the way has written some of the members it checked. -/
theorem grantRole_acyclic {world : World} (acyclic : Acyclic world.members) (role : String)
    (members : List (String × Option String)) : Acyclic (grantRole world role members).2.members := by
  rw [grantRole]
  cases checked : validateMembers (readRoleNames world) world.members role (members.map (·.1)) with
  | error message => exact acyclic
  | ok _ =>
      have apart := (validateMembers_ok.mp checked).2
      have whole := acyclic_children acyclic fun child member => (apart child member).2
      refine whole.subset ?_
      refine @eachAction_holds _ _ (fun world' => world'.members ⊆
        (members.map (·.1)).map (fun member => (role, member)) ++ world.members) members world
        (List.subset_append_right _ _) fun world' member next listed within done => ?_
      split at done
      · cases done
        exact within
      · rw [refuse_eq_ok done]
        refine List.append_subset.mpr (And.intro within (List.cons_subset.mpr (And.intro ?_ (List.nil_subset _))))
        exact List.mem_append_left _ (List.mem_map_of_mem (List.mem_map_of_mem listed))

theorem reconcile_members (world : World) : (objectReconcile world).members = world.members := by
  rw [objectReconcile_eq]

theorem revokeRole_subset (world : World) (role : String) (members : List (String × Option String)) :
    (revokeRole world role members).2.members ⊆ world.members := by
  have removed := @eachAction_holds _ (fun world member => refuse member.2 (removeMember world role member.1))
    (fun world' => world'.members ⊆ world.members) members world (List.Subset.refl _)
    fun world' member next _ within done => by
      rw [refuse_eq_ok done]
      exact List.Subset.trans List.filter_sublist.subset within
  rw [revokeRole]
  split
  · rename_i message world' result
    rw [result] at removed
    exact removed
  · rename_i world' result
    rw [result] at removed
    rw [reconcile_members]
    exact removed

theorem accountRequest_members {world next : World} {request : Request} (done : accountRequest world request = .ok next) :
    next.members ⊆ world.members := by
  obtain ⟨_, _, same⟩ := accountRequest_eq_ok done
  rw [same]
  exact List.filter_sublist.subset

theorem step_account_members (world : World) (client : Client) (command : AccountCommand) :
    (step world client (.account command)).2.members ⊆ world.members := by
  rw [step]
  cases validatePrincipal world client with
  | error message => exact List.Subset.refl _
  | ok _ =>
      dsimp only [perform]
      cases done : runAccountCommand world client.principal command with
      | error message => exact List.Subset.refl _
      | ok changed =>
          obtain ⟨_, done⟩ := runAccountCommand_eq_ok done
          dsimp only
          rw [reconcile_members]
          exact accountRequest_members done

theorem step_create_members (world : World) (client : Client) (role : String) :
    (step world client (.role (.create role))).2.members ⊆ world.members := by
  rw [step]
  cases validatePrincipal world client with
  | error message => exact List.Subset.refl _
  | ok _ =>
      dsimp only [perform]
      cases done : runRoleCommand world client.principal (.create role) with
      | error message => exact List.Subset.refl _
      | ok changed =>
          rw [runRoleCommand] at done
          split at done
          · cases done
          · split at done
            · cases done
            · exact accountRequest_members done

theorem step_drop_members (world : World) (client : Client) (role : String) :
    (step world client (.role (.drop role))).2.members ⊆ world.members := by
  rw [step]
  cases validatePrincipal world client with
  | error message => exact List.Subset.refl _
  | ok _ =>
      dsimp only [perform]
      cases done : runRoleCommand world client.principal (.drop role) with
      | error message => exact List.Subset.refl _
      | ok changed =>
          rw [runRoleCommand] at done
          split at done
          · cases done
          · cases dropped : accountRequest world (.drop role) with
            | error message =>
                rw [dropped] at done
                cases done
            | ok other =>
                rw [dropped] at done
                cases done
                dsimp only
                rw [reconcile_members]
                exact accountRequest_members dropped

theorem runStatement_acyclic {world : World} (acyclic : Acyclic world.members) (fold : String → String)
    (client : Client) (statement : Statement) : Acyclic (runStatement fold world client statement).2.members := by
  cases statement with
  | account command => exact acyclic.subset (step_account_members world client command)
  | createRole role => exact acyclic.subset (step_create_members world client (fold role))
  | dropRole role => exact acyclic.subset (step_drop_members world client (fold role))
  | grantRole role members =>
      rw [runStatement]
      cases validatePrincipal world client with
      | error message => exact acyclic
      | ok _ =>
          dsimp only
          split
          · exact acyclic
          · exact grantRole_acyclic acyclic _ _
  | revokeRole role members =>
      rw [runStatement]
      cases validatePrincipal world client with
      | error message => exact acyclic
      | ok _ =>
          dsimp only
          split
          · exact acyclic
          · exact acyclic.subset (revokeRole_subset world _ _)

theorem runStatements_acyclic {world : World} (acyclic : Acyclic world.members) (fold : String → String)
    (statements : List (Client × Statement)) : Acyclic (runStatements fold world statements).members := by
  induction statements generalizing world with
  | nil => exact acyclic
  | cons statement rest ih => exact ih (runStatement_acyclic acyclic fold statement.1 statement.2)

/-! ### Statements that meet no error -/

theorem refuse_none (world : World) : refuse none world = .ok world := rfl

theorem grant_each {role : String} {pairs : List (String × String)} (members : List String) (world : World) :
    eachAction (fun world member =>
        if (role, member.1) ∈ pairs then .ok world else refuse member.2 (addMember world role member.1)) world
      (members.map fun member => (member, none)) =
      (.ok (), { world with
        members := world.members ++ (members.filter fun member => (role, member) ∉ pairs).map fun member => (role, member) }) := by
  induction members generalizing world with
  | nil => rw [List.filter_nil, List.map_nil, List.map_nil, List.append_nil]; rfl
  | cons member rest ih =>
      rw [List.map_cons, eachAction]
      by_cases there : (role, member) ∈ pairs
      · rw [if_pos there]
        dsimp only
        rw [ih, List.filter_cons_of_neg (by simpa using there)]
      · rw [if_neg there]
        rw [refuse_none]
        dsimp only
        rw [ih, List.filter_cons_of_pos (by simpa using there), List.map_cons, addMember, List.append_assoc]
        rfl

theorem revoke_each {role : String} (members : List String) (world : World) :
    eachAction (fun world member => refuse member.2 (removeMember world role member.1)) world
      (members.map fun member => (member, none)) =
      (.ok (), { world with members := world.members.filter fun row => ¬(row.1 = role ∧ row.2 ∈ members) }) := by
  induction members generalizing world with
  | nil =>
      have all : world.members.filter (fun row => decide ¬(row.1 = role ∧ row.2 ∈ ([] : List String))) = world.members :=
        List.filter_eq_self.mpr fun row _ => by simp
      rw [all]
      rfl
  | cons member rest ih =>
      rw [List.map_cons, eachAction]
      rw [refuse_none]
      dsimp only
      rw [ih, removeMember]
      dsimp only
      rw [List.filter_filter]
      refine congrArg (fun members => (Except.ok (), { world with members })) (List.filter_congr fun row _ => ?_)
      rw [← Bool.decide_and]
      refine decide_eq_decide.mpr ?_
      rw [List.mem_cons, ne_eq, Prod.ext_iff]
      tauto

/-- A statement whose writes meet no error does what it does as a whole. -/
theorem grantRole_done (fold : String → String) (world : World) (client : Client) (role : String) (members : List String) :
    runStatement fold world client (.grantRole role (members.map fun member => (member, none))) =
      step world client (.role (.grant (fold role) (members.map fold))) := by
  rw [runStatement, step]
  cases validatePrincipal world client with
  | error message => rfl
  | ok _ =>
      have typed : ((members.map fun member => (member, (none : Option String))).map fun member => (fold member.1, member.2)) =
          (members.map fold).map fun member => (member, none) := by
        rw [List.map_map, List.map_map]
        rfl
      dsimp only [perform]
      rw [typed, runRoleCommand]
      split
      · rfl
      · have names : ((members.map fold).map fun member => (member, (none : Option String))).map (·.1) = members.map fold := by
          rw [List.map_map]
          exact List.map_id _
        rw [grantRole, names]
        cases validateMembers (readRoleNames world) world.members (fold role) (members.map fold) with
        | error message => rfl
        | ok _ => exact grant_each _ world

theorem revokeRole_done (fold : String → String) (world : World) (client : Client) (role : String) (members : List String) :
    runStatement fold world client (.revokeRole role (members.map fun member => (member, none))) =
      step world client (.role (.revoke (fold role) (members.map fold))) := by
  rw [runStatement, step]
  cases validatePrincipal world client with
  | error message => rfl
  | ok _ =>
      have typed : ((members.map fun member => (member, (none : Option String))).map fun member => (fold member.1, member.2)) =
          (members.map fold).map fun member => (member, none) := by
        rw [List.map_map, List.map_map]
        rfl
      dsimp only [perform]
      rw [typed, runRoleCommand]
      split
      · rfl
      · rw [revokeRole, revoke_each]

/-! ### Inherited roles -/

theorem active_of_inherits {env : Context} {child parent : RoleId} (inherits : Inherits env child parent) :
    env.active parent = true := by
  obtain ⟨_, _, _, _, active, _⟩ := inherits_iff.mp inherits
  exact active

def disabledContext : Context := ⟨[⟨1, "a", true, false, false, false, 1⟩], [], []⟩

def nestedWorld : World := ⟨[], 0, [("a", "b"), ("b", "c")], [], 0, ⟨[], [], [], []⟩⟩

theorem nested_acyclic : Acyclic nestedWorld.members := by
  have single : Acyclic [("b", "c")] := (acyclic_cons_iff fun node path => by
    obtain ⟨_, _, edge⟩ := Relation.TransGen.tail'_iff.mp path
    cases edge).mpr fun path => by
      cases path.cases_tail with
      | inl same => exact absurd same (by decide)
      | inr later =>
          obtain ⟨_, _, edge⟩ := later
          cases edge
  refine (acyclic_cons_iff single).mpr fun path => ?_
  cases path.cases_head with
  | inl same => exact absurd same (by decide)
  | inr later =>
      obtain ⟨_, edge, _⟩ := later
      have same : "a" = "c" := congrArg Prod.snd (List.mem_singleton.mp edge)
      exact absurd same (by decide)

end ChuSQL.Server.Acl
