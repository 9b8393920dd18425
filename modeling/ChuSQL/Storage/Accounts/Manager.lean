import ChuSQL.Storage.Accounts.Protection

/-! Commands wrapped for a catalog manager. The guard compares the lowered name
of the command with the names as stored, before the names of records from before
identities are lowered. -/

set_option autoImplicit false

namespace ChuSQL.Storage.Accounts

open Library

/-- What a catalog manager must not touch of a privileged identity. -/
structure Privilege where
  id : Int
  user : String
  passwordHash : String
  revision : Nat
  canLogin : Bool
  isSuperuser : Bool
  systemCatalogManager : Bool
  enabled : Bool
deriving DecidableEq

def Account.privilege (account : Account) : Privilege :=
  ⟨account.id, account.user, account.passwordHash, account.revision, account.canLogin,
    account.isSuperuser, account.systemCatalogManager, account.enabled⟩

def privileges (accounts : List Account) : List Privilege :=
  (accounts.filter Account.privileged).map Account.privilege

/-- Privileged records from before identities are stored in lower case. -/
def PrivilegedLower (accounts : List Account) : Prop :=
  ∀ account ∈ accounts, account.privileged = true → account.identityVersion = 0 →
    lower account.user = account.user

instance (accounts : List Account) : Decidable (PrivilegedLower accounts) :=
  inferInstanceAs (Decidable (∀ account ∈ accounts, account.privileged = true →
    account.identityVersion = 0 → lower account.user = account.user))

def wrapped (request : String × Command) : String × Command :=
  (request.1, .catalogManage request.2)

/-! ### One command -/

@[simp] theorem seenAs_privileged (stamp : String) (account : Account) :
    (seenAs stamp account).privileged = account.privileged := by
  unfold seenAs checked
  split <;> rfl

theorem seenAs_version (stamp : String) (account : Account) :
    (seenAs stamp account).identityVersion = account.identityVersion := by
  unfold seenAs checked
  split <;> rfl

theorem name_eq {account : Account}
    (lowered : account.identityVersion = 0 → lower account.user = account.user) :
    account.name = account.user := by
  unfold Account.name checked
  split
  · next version => exact lowered version
  · rfl

theorem seenAs_privilege {stamp : String} {account : Account}
    (lowered : account.identityVersion = 0 → lower account.user = account.user) :
    (seenAs stamp account).privilege = account.privilege := by
  have named : (seenAs stamp account).user = account.user := name_eq lowered
  unfold Account.privilege
  rw [named]
  unfold seenAs checked
  split <;> rfl

theorem privileges_cons (account : Account) (accounts : List Account) :
    privileges (account :: accounts) =
      if account.privileged then account.privilege :: privileges accounts
      else privileges accounts := by
  unfold privileges
  rw [List.filter_cons]
  split <;> rfl

theorem privileges_append (first second : List Account) :
    privileges (first ++ second) = privileges first ++ privileges second := by
  simp [privileges]

/-- Loading and checking leave privileged records in lower case alone. -/
theorem privileges_seen (stamp : Account → String) {stored : List Account}
    (lowered : PrivilegedLower stored) :
    privileges (stored.map fun account => seenAs (stamp account) account) = privileges stored := by
  induction stored with
  | nil => rfl
  | cons account rest ih =>
      have others := ih fun other member => lowered other (List.mem_cons_of_mem _ member)
      rw [List.map_cons, privileges_cons, privileges_cons, others, seenAs_privileged]
      cases privileged : account.privileged with
      | false => rfl
      | true =>
          rw [if_pos rfl, if_pos rfl, seenAs_privilege (lowered account List.mem_cons_self privileged)]

/-- Records from before identities carry lower-case names. -/
def VersionLower (accounts : List Account) : Prop :=
  ∀ account ∈ accounts, account.identityVersion = 0 → lower account.user = account.user

theorem Loaded.lowered {stored accounts : List Account} (loaded : Loaded stored accounts) :
    VersionLower accounts := by
  obtain ⟨stamp, rfl⟩ := loaded.stamped
  intro account member version
  obtain ⟨old, _, rfl⟩ := List.mem_map.mp member
  rw [seenAs_version] at version
  rw [seenAs_user, Account.name, checked, if_pos version]
  exact lower_lower _

/-- No privileged identity has a name. -/
def Plain (accounts : List Account) (name : String) : Prop :=
  ∀ account ∈ accounts, account.user = name → account.privileged = false

/-- The commands that pass the guard: none is about a privileged identity. -/
inductive Managed (accounts : List Account) : Command → Prop
  | list : Managed accounts .accountsList
  | create (user hash : String) : Managed accounts (.accountCreate user hash)
  | reset (user hash : String)
      (plain : Plain accounts (lower user)) :
      Managed accounts (.accountReset user hash)
  | drop (user : String)
      (plain : Plain accounts (lower user)) :
      Managed accounts (.accountDrop user)
  | alter (user : String) (canLogin enabled : Option Bool)
      (plain : Plain accounts (lower user)) :
      Managed accounts (.identityAlter user canLogin none enabled none)

theorem managedTarget_ok {command : Command} {target : Option String}
    (ok : managedTarget command = .ok target) :
    command = .accountsList ∨ ∃ user, target = some (lower user) ∧
      ((∃ hash, command = .accountCreate user hash) ∨ (∃ hash, command = .accountReset user hash) ∨
        command = .accountDrop user ∨
        ∃ canLogin enabled, command = .identityAlter user canLogin none enabled none) := by
  unfold managedTarget at ok
  split at ok
  case h_1 user hash =>
    obtain ⟨name, named, built⟩ := bind_eq_ok.mp ok
    cases built
    exact .inr ⟨user, congrArg some (accountName_ok named), .inl ⟨hash, rfl⟩⟩
  case h_2 user hash =>
    obtain ⟨name, named, built⟩ := bind_eq_ok.mp ok
    cases built
    exact .inr ⟨user, congrArg some (accountName_ok named), .inr (.inl ⟨hash, rfl⟩)⟩
  case h_3 user =>
    obtain ⟨name, named, built⟩ := bind_eq_ok.mp ok
    cases built
    exact .inr ⟨user, congrArg some (accountName_ok named), .inr (.inr (.inl rfl))⟩
  case h_4 user canLogin enabled =>
    obtain ⟨name, named, built⟩ := bind_eq_ok.mp ok
    cases built
    exact .inr ⟨user, congrArg some (accountName_ok named),
      .inr (.inr (.inr ⟨canLogin, enabled, rfl⟩))⟩
  case h_5 => exact .inl rfl
  case h_6 => cases ok

theorem unwrap_managed {stored accounts : List Account} {command inner : Command}
    (ok : unwrap stored (.catalogManage command) = .ok inner)
    (seen : ∀ name, Plain stored name → Plain accounts name) : Managed accounts inner := by
  obtain ⟨target, aimed, ok⟩ := bind_eq_ok.mp ok
  split at ok
  · cases ok
  · next clear =>
      cases ok
      cases managedTarget_ok aimed with
      | inl listing =>
          subst listing
          exact .list
      | inr about =>
          obtain ⟨user, rfl, shape⟩ := about
          have plain : Plain accounts (lower user) := by
            refine seen _ fun account member named => ?_
            cases privileged : account.privileged with
            | false => rfl
            | true =>
                refine absurd (List.any_eq_true.mpr ⟨account, member, ?_⟩) clear
                simp [named, privileged]
          rcases shape with ⟨hash, rfl⟩ | ⟨hash, rfl⟩ | rfl | ⟨canLogin, enabled, rfl⟩
          · exact .create user hash
          · exact .reset user hash plain
          · exact .drop user plain
          · exact .alter user canLogin enabled plain

theorem privileges_replaced {before after : List Account} {account changed : Account}
    (plain : account.privileged = false) (stays : changed.privileged = false) :
    privileges (before ++ changed :: after) = privileges (before ++ account :: after) := by
  simp [privileges_append, privileges_cons, plain, stays]

theorem privileges_filtered {name : String} {accounts : List Account}
    (plain : Plain accounts name) :
    privileges (accounts.filter fun account => account.user ≠ name) = privileges accounts := by
  unfold privileges
  rw [List.filter_filter]
  congr 1
  refine List.filter_congr fun account member => ?_
  by_cases named : account.user = name
  · simp [plain account member named]
  · simp [named]

theorem versionLower_replaced {before after : List Account} {account changed : Account}
    (lowered : VersionLower (before ++ account :: after)) (sameUser : changed.user = account.user)
    (sameVersion : changed.identityVersion = account.identityVersion) :
    VersionLower (before ++ changed :: after) := by
  intro other member version
  cases List.mem_append.mp member with
  | inl earlier => exact lowered other (List.mem_append_left _ earlier) version
  | inr rest =>
      cases List.mem_cons.mp rest with
      | inl same =>
          subst same
          rw [sameUser]
          exact lowered account (by simp) (sameVersion ▸ version)
      | inr later => exact lowered other (List.mem_append_right _ (List.mem_cons_of_mem _ later)) version

/-- A command the guard lets through leaves privileged identities alone, once
the names are lowered. -/
theorem managed_privileges {now : String} {directory : Directory} {accounts result : List Account}
    {command : Command} {writes : Bool} (managed : Managed accounts command)
    (lowered : VersionLower accounts)
    (ok : perform now directory accounts command = .ok (writes, result)) :
    privileges result = privileges accounts ∧ VersionLower result := by
  cases managed with
  | list =>
      cases ok
      exact ⟨rfl, lowered⟩
  | create user hash =>
      obtain ⟨account, created, built⟩ := bind_eq_ok.mp ok
      cases built
      obtain ⟨named, plain, unmanaged, _⟩ := createAccount_ok created
      constructor
      · simp [privileges, Account.privileged, plain, unmanaged]
      · intro other member version
        cases List.mem_append.mp member with
        | inl old => exact lowered other old version
        | inr new => rw [List.mem_singleton.mp new, named, lower_lower]
  | reset user hash plain =>
      obtain ⟨name, named, ok⟩ := bind_eq_ok.mp ok
      obtain ⟨_, _, ok⟩ := bind_eq_ok.mp ok
      obtain ⟨changed, updated, built⟩ := bind_eq_ok.mp ok
      cases built
      have known := accountName_ok named
      subst known
      obtain ⟨before, account, after, reset, rfl, target, done, rfl⟩ := updateUser_ok updated
      have unprivileged := plain account (by simp) target
      obtain ⟨_, _, built⟩ := bind_eq_ok.mp done
      cases built
      exact ⟨privileges_replaced unprivileged unprivileged, versionLower_replaced lowered rfl rfl⟩
  | drop user plain =>
      obtain ⟨name, named, ok⟩ := bind_eq_ok.mp ok
      have known := accountName_ok named
      subst known
      dsimp only at ok
      split at ok
      · cases ok
      · obtain ⟨_, _, built⟩ := bind_eq_ok.mp ok
        cases built
        exact ⟨privileges_filtered plain, fun account member =>
          lowered account (List.mem_filter.mp member).1⟩
  | alter user canLogin enabled plain =>
      obtain ⟨name, named, ok⟩ := bind_eq_ok.mp ok
      obtain ⟨changed, updated, ok⟩ := bind_eq_ok.mp ok
      obtain ⟨_, _, built⟩ := bind_eq_ok.mp ok
      cases built
      have known := accountName_ok named
      subst known
      obtain ⟨before, account, after, altered, rfl, target, done, rfl⟩ := updateUser_ok updated
      have unprivileged := plain account (by simp) target
      obtain ⟨_, _, built⟩ := bind_eq_ok.mp done
      cases built
      exact ⟨privileges_replaced unprivileged unprivileged, versionLower_replaced lowered rfl rfl⟩

/-- Among privileged records in lower case the guard sees the names that the
command goes by. -/
theorem plain_seen {now : String} {directory : Directory} {accounts : List Account}
    (loaded : Loaded directory.accounts accounts) (lowered : PrivilegedLower directory.accounts)
    (name : String) (plain : Plain (loadAccounts now directory) name) : Plain accounts name := by
  obtain ⟨stamp, rfl⟩ := loaded.stamped
  obtain ⟨loadStamp, loads⟩ := loadAccounts_stamps now directory
  rw [loads] at plain
  intro account member named
  obtain ⟨old, held, rfl⟩ := List.mem_map.mp member
  rw [seenAs_privileged]
  cases privileged : old.privileged with
  | false => rfl
  | true =>
      rw [seenAs_user, name_eq (lowered old held privileged)] at named
      have clear := plain _ (List.mem_map_of_mem held) named
      rw [← privileged]
      exact clear

theorem request_privileges {codec : RowCodec} {now : String} {directory next : Directory}
    {command : Command} {listed : List Account} (lowered : PrivilegedLower directory.accounts)
    (ok : accountsRequest codec now directory (.catalogManage command) = .ok (listed, next)) :
    privileges next.accounts = privileges directory.accounts ∧ PrivilegedLower next.accounts := by
  obtain ⟨inner, accounts, writes, unwrapped, loaded, performed, rfl⟩ := accountsRequest_ok ok
  cases writes with
  | false => exact ⟨rfl, lowered⟩
  | true =>
      have managed := unwrap_managed unwrapped (plain_seen loaded lowered)
      obtain ⟨same, still⟩ := managed_privileges managed loaded.lowered performed
      refine ⟨same.trans ?_, fun account member _ => still account member⟩
      obtain ⟨stamp, rfl⟩ := loaded.stamped
      exact privileges_seen stamp lowered

/-! ### Runs -/

/-- Where privileged records from before identities are in lower case, no run of
wrapped commands touches a privileged identity. -/
theorem manager_keeps_privileges {codec : RowCodec} {requests : List (String × Command)}
    {start final : Directory} (lowered : PrivilegedLower start.accounts)
    (ran : run (attempt codec) start (requests.map wrapped) = .ok final) :
    privileges final.accounts = privileges start.accounts := by
  induction requests generalizing start with
  | nil =>
      cases ran
      rfl
  | cons request rest ih =>
      obtain ⟨next, attempted, later⟩ := bind_eq_ok.mp ran
      have kept : privileges next.accounts = privileges start.accounts ∧
          PrivilegedLower next.accounts := by
        cases attempt_ok attempted with
        | inl same =>
            subst same
            exact ⟨rfl, lowered⟩
        | inr accepted =>
            obtain ⟨listed, accepted⟩ := accepted
            exact request_privileges lowered accepted
      exact (ih kept.2 later).trans kept.1

theorem manager_keeps_privileges_reset :
    PrivilegedLower oldDirectory.accounts ∧
      ∃ final, run (attempt wideRows) oldDirectory
          ([("noon", .accountReset "ROOT" "hash"), ("noon", .accountReset "Bob" "hash")].map wrapped) =
            .ok final ∧
        privileges final.accounts = privileges oldDirectory.accounts :=
  ⟨by decide +kernel, _, rfl, @manager_keeps_privileges wideRows
    [("noon", .accountReset "ROOT" "hash"), ("noon", .accountReset "Bob" "hash")] oldDirectory _
    (by decide +kernel) rfl⟩

/-- A superuser from before identities, stored with a capital letter, passes the
guard under its lowered name. -/
def capitalDirectory : Directory where
  accounts := [sampleAccount 1 "Root" true 0]
  identitySchema := none
  legacyRoles := none
  identityHighWater := 1

theorem manager_resets_superuser :
    ∃ final, run (attempt wideRows) capitalDirectory
        ([("noon", .accountReset "root" "stolen")].map wrapped) = .ok final ∧
      privileges final.accounts ≠ privileges capitalDirectory.accounts ∧
      final.accounts.map (·.passwordHash) = ["stolen"] := by
  refine ⟨_, rfl, ?_⟩
  decide +kernel

end ChuSQL.Storage.Accounts
