import ChuSQL.Library.Run
import ChuSQL.Storage.Accounts.Basic

/-! What a request can do to the identities: at most one record changes or goes,
new ones get fresh numbers. From this, runs of requests keep an administrator,
and keep names and numbers apart as long as no request meets one of two gaps. -/

set_option autoImplicit false

namespace ChuSQL.Storage.Accounts

open Library

/-! ### Names and numbers -/

theorem lower_lower (user : String) : lower (lower user) = lower user := by
  simp [lower, Function.comp_def]

theorem accountName_ok {user name : String} (ok : accountName user = .ok name) :
    name = lower user := by
  unfold accountName at ok
  split at ok
  · cases ok
  · exact (Except.ok.inj ok).symm

def ids (accounts : List Account) : List Int := accounts.map (·.id)

def loweredNames (accounts : List Account) : List String := accounts.map fun account => lower account.user

theorem ids_push (accounts : List Account) (account : Account) :
    ids (accounts ++ [account]) = ids accounts ++ [account.id] := by
  simp [ids]

theorem le_topId {accounts : List Account} {id : Int} (member : id ∈ ids accounts) :
    id ≤ topId accounts := by
  unfold topId
  cases top : (accounts.map (·.id)).max? with
  | none =>
      rw [List.max?_eq_none_iff] at top
      rw [ids, top] at member
      cases member
  | some greatest => exact (List.max?_eq_some_iff.mp top).2 id member

theorem topId_le {accounts : List Account} {bound : Int}
    (below : ∀ id ∈ ids accounts, id ≤ bound) (nonneg : 0 ≤ bound) : topId accounts ≤ bound := by
  unfold topId
  cases top : (accounts.map (·.id)).max? with
  | none => exact nonneg
  | some greatest => exact below greatest (List.max?_eq_some_iff.mp top).1

theorem topId_nonneg {accounts : List Account} (positive : ∀ id ∈ ids accounts, 1 ≤ id) :
    0 ≤ topId accounts := by
  unfold topId
  cases top : (accounts.map (·.id)).max? with
  | none => exact Int.le_refl 0
  | some greatest =>
      have := positive greatest (List.max?_eq_some_iff.mp top).1
      simp only [Option.getD_some]
      omega

theorem nextId_ok {accounts : List Account} {highWater id : Int}
    (ok : nextId accounts highWater = .ok id) : id = max (topId accounts) highWater + 1 := by
  unfold nextId at ok
  split at ok
  · exact (Except.ok.inj ok).symm
  · cases ok

/-! ### Loading and checking -/

/-- A record as the commands see it. -/
def checked (account : Account) : Account :=
  if account.identityVersion = 0 then { account with user := lower account.user } else account

/-- The name the commands know a stored record by. -/
def Account.name (account : Account) : String := (checked account).user

/-- A stored record as it comes out of loading and checking. -/
def seenAs (stamp : String) (account : Account) : Account :=
  { checked account with registeredAt := stamp }

theorem lower_checked (account : Account) : lower (checked account).user = lower account.user := by
  unfold checked
  split
  · exact lower_lower _
  · rfl

@[simp] theorem checked_id (account : Account) : (checked account).id = account.id := by
  unfold checked
  split <;> rfl

@[simp] theorem checked_administers (account : Account) :
    (checked account).administers = account.administers := by
  unfold checked
  split <;> rfl

@[simp] theorem seenAs_id (stamp : String) (account : Account) :
    (seenAs stamp account).id = account.id := checked_id account

@[simp] theorem seenAs_user (stamp : String) (account : Account) :
    (seenAs stamp account).user = account.name := rfl

@[simp] theorem seenAs_administers (stamp : String) (account : Account) :
    (seenAs stamp account).administers = account.administers := checked_administers account

theorem checkRecords_ok {names : List String} {seen : List Int} {accounts result : List Account}
    (ok : checkRecords names seen accounts = .ok result) :
    result = accounts.map checked ∧
      (loweredNames accounts).Nodup ∧ (∀ name ∈ loweredNames accounts, name ∉ names) ∧
      (ids accounts).Nodup ∧ (∀ id ∈ ids accounts, 1 ≤ id ∧ id ∉ seen) := by
  induction accounts generalizing names seen result with
  | nil =>
      cases ok
      simp [loweredNames, ids]
  | cons account rest ih =>
      obtain ⟨name, named, ok⟩ := bind_eq_ok.mp ok
      have known := accountName_ok named
      subst known
      split at ok
      · cases ok
      · next fresh =>
          obtain ⟨others, checkedRest, built⟩ := bind_eq_ok.mp ok
          cases built
          obtain ⟨rfl, uniqueNames, apartNames, uniqueIds, apartIds⟩ := ih checkedRest
          simp only [not_or, Int.not_lt] at fresh
          refine ⟨rfl, ?_, ?_, ?_, ?_⟩
          · refine List.nodup_cons.mpr ⟨fun member => ?_, uniqueNames⟩
            exact apartNames _ member List.mem_cons_self
          · refine List.forall_mem_cons.mpr ⟨fresh.1, fun name member inside => ?_⟩
            exact apartNames name member (List.mem_cons_of_mem _ inside)
          · refine List.nodup_cons.mpr ⟨fun member => ?_, uniqueIds⟩
            exact (apartIds _ member).2 List.mem_cons_self
          · refine List.forall_mem_cons.mpr ⟨⟨fresh.2.1, fresh.2.2⟩, fun id member => ?_⟩
            exact ⟨(apartIds id member).1,
              fun inside => (apartIds id member).2 (List.mem_cons_of_mem _ inside)⟩

theorem normalizeAccount_fields (now : String) (account : Account) :
    ∃ stamp, normalizeAccount now account = { account with registeredAt := stamp } := by
  unfold normalizeAccount
  split
  · exact ⟨now, rfl⟩
  · exact ⟨account.registeredAt, rfl⟩

/-- Loading touches registration times only. -/
theorem loadAccounts_stamps (now : String) (directory : Directory) :
    ∃ stamp : Account → String, loadAccounts now directory =
      directory.accounts.map fun account => { account with registeredAt := stamp account } := by
  unfold loadAccounts
  split
  · exact ⟨(·.registeredAt), by simp⟩
  · refine ⟨fun account => (normalizeAccount now account).registeredAt, List.map_congr_left ?_⟩
    intro account _
    obtain ⟨stamp, stamped⟩ := normalizeAccount_fields now account
    simp [stamped]

/-- The records a command works on are the stored ones, but for the registration
times and the letter case of names from before identities. -/
structure Loaded (stored accounts : List Account) : Prop where
  stamped : ∃ stamp : Account → String, accounts =
    stored.map fun account => seenAs (stamp account) account
  uniqueNames : (loweredNames stored).Nodup
  uniqueIds : (ids stored).Nodup
  positive : ∀ id ∈ ids stored, 1 ≤ id

theorem checkRecords_loaded {now : String} {directory : Directory} {accounts : List Account}
    (ok : checkRecords [] [] (loadAccounts now directory) = .ok accounts) :
    Loaded directory.accounts accounts := by
  obtain ⟨stamp, loaded⟩ := loadAccounts_stamps now directory
  obtain ⟨rfl, uniqueNames, _, uniqueIds, positive⟩ := checkRecords_ok ok
  rw [loaded] at uniqueNames uniqueIds positive ⊢
  have names : loweredNames (directory.accounts.map fun account =>
      { account with registeredAt := stamp account }) = loweredNames directory.accounts := by
    simp [loweredNames, Function.comp_def]
  have numbers : ids (directory.accounts.map fun account =>
      { account with registeredAt := stamp account }) = ids directory.accounts := by
    simp [ids, Function.comp_def]
  rw [names] at uniqueNames
  rw [numbers] at uniqueIds positive
  refine ⟨⟨stamp, ?_⟩, uniqueNames, uniqueIds, fun id member => (positive id member).1⟩
  rw [List.map_map]
  refine List.map_congr_left fun account _ => ?_
  unfold seenAs checked
  simp only [Function.comp_apply]
  split <;> rfl

namespace Loaded

variable {stored accounts : List Account}

theorem ids_eq (loaded : Loaded stored accounts) : ids accounts = ids stored := by
  obtain ⟨stamp, rfl⟩ := loaded.stamped
  simp [ids, Function.comp_def]

theorem loweredNames_eq (loaded : Loaded stored accounts) :
    loweredNames accounts = loweredNames stored := by
  obtain ⟨stamp, rfl⟩ := loaded.stamped
  simp [loweredNames, Function.comp_def, Account.name, lower_checked]

theorem administers (loaded : Loaded stored accounts) :
    accounts.any Account.administers = stored.any Account.administers := by
  obtain ⟨stamp, rfl⟩ := loaded.stamped
  simp [List.any_map, Function.comp_def]

end Loaded

/-! ### Changes -/

/-- Identities added one after another, each under a name nobody has and above
every number in use and the high-water mark. -/
inductive Adds (highWater : Int) : List Account → List Account → Prop
  | done (accounts : List Account) : Adds highWater accounts accounts
  | add {accounts result : List Account} (account : Account)
      (named : lower account.user = account.user)
      (fresh : ∀ other ∈ accounts, other.user ≠ account.user)
      (number : account.id = max (topId accounts) highWater + 1)
      (rest : Adds highWater (accounts ++ [account]) result) : Adds highWater accounts result

theorem adds_subset {highWater : Int} {accounts result : List Account}
    (added : Adds highWater accounts result) {account : Account} (member : account ∈ accounts) :
    account ∈ result := by
  induction added with
  | done => exact member
  | add _ _ _ _ _ ih => exact ih (List.mem_append_left _ member)

/-- Names that a command may add. -/
def newNames (directory : Directory) : Command → List String
  | .accountCreate user _ | .roleCreate user => [lower user]
  | .identityInitialize _ =>
      (directory.legacyRoles.getD []).filterMap fun row =>
        ((row.get "name").bind Json.asString).map lower
  | .catalogManage command => newNames directory command
  | _ => []

/-- What a command does to the records. -/
inductive Change (directory : Directory) (accounts : List Account) : Command → List Account → Prop
  | adds {command : Command} {relabel : Account → Account} {result : List Account}
      (sameId : ∀ account, (relabel account).id = account.id)
      (sameUser : ∀ account, (relabel account).user = account.user)
      (added : Adds directory.identityHighWater (accounts.map relabel) result)
      (names : ∀ account ∈ result, (∃ old ∈ accounts, old.user = account.user) ∨
        account.user ∈ newNames directory command) :
      Change directory accounts command result
  | replaces {command : Command} {before after : List Account} {account changed : Account}
      (found : accounts = before ++ account :: after)
      (sameId : changed.id = account.id) (sameUser : changed.user = account.user) :
      Change directory accounts command (before ++ changed :: after)
  | drops (user : String) :
      Change directory accounts (.accountDrop user)
        (accounts.filter fun account => account.user ≠ lower user)

theorem updateUser_ok {name : String} {change : Account → Except IoError Account}
    {accounts changed : List Account} (ok : updateUser name change accounts = .ok changed) :
    ∃ before account after result, accounts = before ++ account :: after ∧ account.user = name ∧
      change account = .ok result ∧ changed = before ++ result :: after := by
  induction accounts generalizing changed with
  | nil => cases ok
  | cons account rest ih =>
      unfold updateUser at ok
      split at ok
      · next named =>
          obtain ⟨result, done, built⟩ := bind_eq_ok.mp ok
          cases built
          exact ⟨[], account, rest, result, rfl, named, done, rfl⟩
      · obtain ⟨others, done, built⟩ := bind_eq_ok.mp ok
        cases built
        obtain ⟨before, found, after, result, rfl, named, applied, rfl⟩ := ih done
        exact ⟨account :: before, found, after, result, rfl, named, applied, rfl⟩

theorem newAccount_ok {now : String} {id : Int} {user passwordHash : String} {account : Account}
    (ok : newAccount now id user passwordHash = .ok account) :
    account.id = id ∧ account.user = lower user ∧ account.isSuperuser = false ∧
      account.systemCatalogManager = false := by
  obtain ⟨_, _, ok⟩ := bind_eq_ok.mp ok
  obtain ⟨name, named, built⟩ := bind_eq_ok.mp ok
  cases built
  exact ⟨rfl, accountName_ok named, rfl, rfl⟩

theorem createAccount_ok {now : String} {directory : Directory} {accounts : List Account}
    {user passwordHash taken : String} {account : Account}
    (ok : createAccount now directory accounts user passwordHash taken = .ok account) :
    account.user = lower user ∧ account.isSuperuser = false ∧
      account.systemCatalogManager = false ∧ (∀ other ∈ accounts, other.user ≠ lower user) ∧
      account.id = max (topId accounts) directory.identityHighWater + 1 := by
  obtain ⟨name, named, ok⟩ := bind_eq_ok.mp ok
  have known := accountName_ok named
  subst known
  split at ok
  · cases ok
  split at ok
  · cases ok
  · next absent =>
      obtain ⟨id, number, built⟩ := bind_eq_ok.mp ok
      obtain ⟨sameId, sameUser, plain, unmanaged⟩ := newAccount_ok built
      rw [lower_lower] at sameUser
      refine ⟨sameUser, plain, unmanaged, fun other member same => ?_,
        sameId.trans (nextId_ok number)⟩
      exact absent (List.any_eq_true.mpr ⟨other, member, by simpa using same⟩)

theorem importRoles_adds {now : String} {highWater : Int} {rows : List Row}
    {accounts result : List Account} (ok : importRoles now highWater rows accounts = .ok result) :
    Adds highWater accounts result ∧ ∀ account ∈ result, account ∈ accounts ∨
      account.user ∈ rows.filterMap fun row => ((row.get "name").bind Json.asString).map lower := by
  induction rows generalizing accounts with
  | nil =>
      cases ok
      exact ⟨.done _, fun account member => .inl member⟩
  | cons row rows ih =>
      obtain ⟨name, named, ok⟩ := bind_eq_ok.mp ok
      unfold legacyName at named
      split at named
      · cases named
      next raw found =>
        have known := accountName_ok named
        subst known
        split at ok
        · cases ok
        next absent =>
          obtain ⟨id, number, ok⟩ := bind_eq_ok.mp ok
          obtain ⟨role, built, later⟩ := bind_eq_ok.mp ok
          obtain ⟨sameId, sameUser, _, _⟩ := newAccount_ok built
          rw [lower_lower] at sameUser
          obtain ⟨added, names⟩ := ih later
          constructor
          · refine .add { role with canLogin := false } ?_ ?_ ?_ added
            · simp only [sameUser, lower_lower]
            · intro other member same
              refine absent (List.any_eq_true.mpr ⟨other, member, ?_⟩)
              simpa [sameUser] using same
            · simp only [sameId, nextId_ok number]
          · intro account member
            rw [List.filterMap_cons, found, Option.map_some]
            cases names account member with
            | inl inside =>
                cases List.mem_append.mp inside with
                | inl old => exact .inl old
                | inr new =>
                    rw [List.mem_singleton.mp new]
                    exact .inr (List.mem_cons.mpr (.inl sameUser))
            | inr inside => exact .inr (List.mem_cons_of_mem _ inside)

theorem alterIdentity_same {canLogin isSuperuser enabled manager : Option Bool}
    {account changed : Account}
    (ok : alterIdentity canLogin isSuperuser enabled manager account = .ok changed) :
    changed.id = account.id ∧ changed.user = account.user := by
  obtain ⟨_, _, built⟩ := bind_eq_ok.mp ok
  cases built
  exact ⟨rfl, rfl⟩

theorem resetAccount_same {hash : String} {account changed : Account}
    (ok : resetAccount hash account = .ok changed) :
    changed.id = account.id ∧ changed.user = account.user ∧
      changed.administers = account.administers := by
  obtain ⟨_, _, built⟩ := bind_eq_ok.mp ok
  cases built
  exact ⟨rfl, rfl, rfl⟩

theorem loginAccount_same {stamp : String} {account changed : Account}
    (ok : loginAccount stamp account = .ok changed) :
    changed.id = account.id ∧ changed.user = account.user ∧
      changed.administers = account.administers := by
  unfold loginAccount at ok
  split at ok
  · cases ok
  · cases ok
    exact ⟨rfl, rfl, rfl⟩

theorem initialized_same (administrator : String) (account : Account) :
    (initialized administrator account).id = account.id ∧
      (initialized administrator account).user = account.user := by
  unfold initialized
  split <;> exact ⟨rfl, rfl⟩

/-- One more identity. -/
theorem createAccount_change {now : String} {directory : Directory} {accounts : List Account}
    {user passwordHash taken : String} {account stored : Account} {command : Command}
    (ok : createAccount now directory accounts user passwordHash taken = .ok account)
    (sameId : stored.id = account.id) (sameUser : stored.user = account.user)
    (names : newNames directory command = [lower user]) :
    Change directory accounts command (accounts ++ [stored]) := by
  obtain ⟨named, _, _, fresh, number⟩ := createAccount_ok ok
  rw [named] at sameUser
  rw [number] at sameId
  have added : Adds directory.identityHighWater (accounts.map id) (accounts ++ [stored]) := by
    rw [List.map_id]
    exact .add stored (by rw [sameUser, lower_lower]) (by rwa [sameUser]) sameId (.done _)
  refine .adds (fun _ => rfl) (fun _ => rfl) added fun other member => ?_
  cases List.mem_append.mp member with
  | inl old => exact .inl ⟨other, old, rfl⟩
  | inr new =>
      rw [List.mem_singleton.mp new, sameUser, names]
      exact .inr List.mem_cons_self

theorem perform_change {now : String} {directory : Directory} {accounts result : List Account}
    {command : Command} {writes : Bool}
    (ok : perform now directory accounts command = .ok (writes, result)) :
    Change directory accounts command result := by
  cases command with
  | accountsList =>
      cases ok
      have added : Adds directory.identityHighWater (accounts.map id) accounts := by
        rw [List.map_id]
        exact .done accounts
      exact .adds (fun _ => rfl) (fun _ => rfl) added fun account member =>
        .inl ⟨account, member, rfl⟩
  | identityInitialize administrator =>
      obtain ⟨changed, imported, ok⟩ := bind_eq_ok.mp ok
      obtain ⟨_, _, built⟩ := bind_eq_ok.mp ok
      cases built
      obtain ⟨added, names⟩ := importRoles_adds imported
      refine .adds (fun account => (initialized_same administrator account).1)
        (fun account => (initialized_same administrator account).2) added fun account member => ?_
      cases names account member with
      | inl inside =>
          obtain ⟨old, present, rfl⟩ := List.mem_map.mp inside
          exact .inl ⟨old, present, (initialized_same administrator old).2.symm⟩
      | inr new => exact .inr new
  | accountCreate user hash =>
      obtain ⟨account, created, built⟩ := bind_eq_ok.mp ok
      cases built
      exact createAccount_change created rfl rfl rfl
  | roleCreate user =>
      obtain ⟨role, created, built⟩ := bind_eq_ok.mp ok
      cases built
      exact createAccount_change created rfl rfl rfl
  | identityAlter user canLogin isSuperuser enabled manager =>
      obtain ⟨name, _, ok⟩ := bind_eq_ok.mp ok
      obtain ⟨changed, updated, ok⟩ := bind_eq_ok.mp ok
      obtain ⟨_, _, built⟩ := bind_eq_ok.mp ok
      cases built
      obtain ⟨before, account, after, altered, rfl, _, done, rfl⟩ := updateUser_ok updated
      exact .replaces rfl (alterIdentity_same done).1 (alterIdentity_same done).2
  | accountReset user hash =>
      obtain ⟨name, _, ok⟩ := bind_eq_ok.mp ok
      obtain ⟨_, _, ok⟩ := bind_eq_ok.mp ok
      obtain ⟨changed, updated, built⟩ := bind_eq_ok.mp ok
      cases built
      obtain ⟨before, account, after, reset, rfl, _, done, rfl⟩ := updateUser_ok updated
      exact .replaces rfl (resetAccount_same done).1 (resetAccount_same done).2.1
  | accountLogin user at_ =>
      obtain ⟨name, _, ok⟩ := bind_eq_ok.mp ok
      obtain ⟨changed, updated, built⟩ := bind_eq_ok.mp ok
      cases built
      obtain ⟨before, account, after, stamped, rfl, _, done, rfl⟩ := updateUser_ok updated
      exact .replaces rfl (loginAccount_same done).1 (loginAccount_same done).2.1
  | accountDrop user =>
      obtain ⟨name, named, ok⟩ := bind_eq_ok.mp ok
      have known := accountName_ok named
      subst known
      dsimp only at ok
      split at ok
      · cases ok
      · obtain ⟨_, _, built⟩ := bind_eq_ok.mp ok
        cases built
        exact .drops user
  | catalogManage command => cases ok
  | other => cases ok

/-! ### Administrators -/

theorem requireSuperuser_ok {accounts : List Account} (ok : requireSuperuser accounts = .ok ()) :
    accounts.any Account.administers = true := by
  unfold requireSuperuser at ok
  split at ok
  · assumption
  · cases ok

theorem keepSuperuser_ok {before after : List Account} (ok : keepSuperuser before after = .ok ())
    (administered : before.any Account.administers = true) :
    after.any Account.administers = true := by
  unfold keepSuperuser at ok
  rw [if_pos administered] at ok
  exact requireSuperuser_ok ok

theorem any_replaced {before after : List Account} {account changed : Account}
    (same : changed.administers = account.administers) :
    (before ++ changed :: after).any Account.administers =
      (before ++ account :: after).any Account.administers := by
  simp [same]

/-- No command takes the last administrator away. -/
theorem perform_administers {now : String} {directory : Directory} {accounts result : List Account}
    {command : Command} {writes : Bool}
    (ok : perform now directory accounts command = .ok (writes, result))
    (administered : accounts.any Account.administers = true) :
    result.any Account.administers = true := by
  cases command with
  | accountsList =>
      cases ok
      exact administered
  | identityInitialize administrator =>
      obtain ⟨changed, imported, ok⟩ := bind_eq_ok.mp ok
      obtain ⟨_, guarded, built⟩ := bind_eq_ok.mp ok
      cases built
      split at guarded
      · next empty =>
          obtain ⟨account, member, _⟩ := List.any_eq_true.mp administered
          have kept := adds_subset (importRoles_adds imported).1
            (List.mem_map_of_mem (f := initialized administrator) member)
          rw [List.isEmpty_iff.mp empty] at kept
          cases kept
      · exact requireSuperuser_ok guarded
  | accountCreate user hash =>
      obtain ⟨account, created, built⟩ := bind_eq_ok.mp ok
      cases built
      rw [List.any_append, administered, Bool.true_or]
  | roleCreate user =>
      obtain ⟨role, created, built⟩ := bind_eq_ok.mp ok
      cases built
      rw [List.any_append, administered, Bool.true_or]
  | identityAlter user canLogin isSuperuser enabled manager =>
      obtain ⟨name, _, ok⟩ := bind_eq_ok.mp ok
      obtain ⟨changed, updated, ok⟩ := bind_eq_ok.mp ok
      obtain ⟨_, kept, built⟩ := bind_eq_ok.mp ok
      cases built
      exact keepSuperuser_ok kept administered
  | accountReset user hash =>
      obtain ⟨name, _, ok⟩ := bind_eq_ok.mp ok
      obtain ⟨_, _, ok⟩ := bind_eq_ok.mp ok
      obtain ⟨changed, updated, built⟩ := bind_eq_ok.mp ok
      cases built
      obtain ⟨before, account, after, reset, rfl, _, done, rfl⟩ := updateUser_ok updated
      rwa [any_replaced (resetAccount_same done).2.2]
  | accountLogin user at_ =>
      obtain ⟨name, _, ok⟩ := bind_eq_ok.mp ok
      obtain ⟨changed, updated, built⟩ := bind_eq_ok.mp ok
      cases built
      obtain ⟨before, account, after, stamped, rfl, _, done, rfl⟩ := updateUser_ok updated
      rwa [any_replaced (loginAccount_same done).2.2]
  | accountDrop user =>
      obtain ⟨name, _, ok⟩ := bind_eq_ok.mp ok
      dsimp only at ok
      split at ok
      · cases ok
      · obtain ⟨_, kept, built⟩ := bind_eq_ok.mp ok
        cases built
        exact keepSuperuser_ok kept administered
  | catalogManage command => cases ok
  | other => cases ok

/-! ### Fresh numbers and names -/

/-- The greatest number in use or ever recorded as used. -/
def bound (highWater : Int) (accounts : List Account) : Int := max (topId accounts) highWater

theorem bound_congr {highWater : Int} {accounts others : List Account}
    (same : ids accounts = ids others) : bound highWater accounts = bound highWater others := by
  unfold bound topId
  rw [ids, ids] at same
  rw [same]

/-- No record kept in other letters claims a name: the check for a taken name
compares the letters. -/
def Unshadowed (accounts : List Account) (name : String) : Prop :=
  ∀ account ∈ accounts, lower account.user = name → account.user = name

theorem Adds.positive {highWater : Int} {accounts result : List Account}
    (added : Adds highWater accounts result) (positive : ∀ id ∈ ids accounts, 1 ≤ id) :
    ∀ id ∈ ids result, 1 ≤ id := by
  induction added with
  | done => exact positive
  | add account _ _ number _ ih =>
      refine ih fun id member => ?_
      rw [ids_push] at member
      cases List.mem_append.mp member with
      | inl old => exact positive id old
      | inr new =>
          have top := topId_nonneg positive
          rw [List.mem_singleton.mp new, number]
          omega

/-- Added numbers are above everything used before, and differ. -/
theorem Adds.numbers {highWater : Int} {accounts result : List Account}
    (added : Adds highWater accounts result) (unique : (ids accounts).Nodup) :
    (ids result).Nodup ∧ (∀ id ∈ ids accounts, id ∈ ids result) ∧
      ∀ id ∈ ids result, id ∈ ids accounts ∨ bound highWater accounts < id := by
  induction added with
  | done => exact ⟨unique, fun _ member => member, fun _ member => .inl member⟩
  | @add accounts result account _ _ number _ ih =>
      have above : ∀ id ∈ ids accounts, id < account.id := by
        intro id member
        have := le_topId member
        omega
      have larger : bound highWater accounts ≤ bound highWater (accounts ++ [account]) := by
        have : account.id ≤ topId (accounts ++ [account]) := le_topId (by simp [ids])
        unfold bound
        omega
      obtain ⟨distinct, kept, fresh⟩ := ih (by
        rw [ids_push]
        exact List.nodup_append.mpr ⟨unique, List.nodup_singleton _, fun id member other new => by
          rw [List.mem_singleton.mp new]
          exact Int.ne_of_lt (above id member)⟩)
      refine ⟨distinct, fun id member => kept id ?_, fun id member => ?_⟩
      · rw [ids_push]
        exact List.mem_append_left _ member
      · cases fresh id member with
        | inl inside =>
            rw [ids_push] at inside
            cases List.mem_append.mp inside with
            | inl old => exact .inl old
            | inr new =>
                rw [List.mem_singleton.mp new]
                exact .inr (by unfold bound; omega)
        | inr above => exact .inr (Int.lt_of_le_of_lt larger above)

/-- Added names differ in every letter case if no record shadows one of them. -/
theorem Adds.names {highWater : Int} {accounts result : List Account}
    (added : Adds highWater accounts result) (unique : (loweredNames accounts).Nodup)
    (unshadowed : ∀ account ∈ result, account.user ∉ accounts.map (·.user) →
      Unshadowed accounts account.user) :
    (loweredNames result).Nodup := by
  induction added with
  | done => exact unique
  | @add accounts result account named fresh _ rest ih =>
      have inside : account ∈ result := adds_subset rest (by simp)
      have absent : account.user ∉ accounts.map (·.user) := by
        intro member
        obtain ⟨other, present, same⟩ := List.mem_map.mp member
        exact fresh other present same
      have clear := unshadowed account inside absent
      refine ih ?_ fun other member new => ?_
      · have split : loweredNames (accounts ++ [account]) = loweredNames accounts ++ [account.user] := by
          simp [loweredNames, named]
        rw [split]
        refine List.nodup_append.mpr ⟨unique, List.nodup_singleton _, fun name present other same => ?_⟩
        rw [List.mem_singleton.mp same]
        rintro rfl
        obtain ⟨holder, held, holds⟩ := List.mem_map.mp present
        exact fresh holder held (clear holder held holds)
      · rw [List.map_append, List.mem_append, not_or] at new
        intro holder held holds
        cases List.mem_append.mp held with
        | inl old => exact unshadowed other member new.1 holder old holds
        | inr last =>
            rw [List.mem_singleton.mp last] at holds ⊢
            exact named.symm.trans holds

theorem ids_relabeled {relabel : Account → Account}
    (sameId : ∀ account, (relabel account).id = account.id) (accounts : List Account) :
    ids (accounts.map relabel) = ids accounts := by
  simp [ids, Function.comp_def, sameId]

theorem ids_replaced {before after : List Account} {account changed : Account}
    (same : changed.id = account.id) :
    ids (before ++ changed :: after) = ids (before ++ account :: after) := by
  simp [ids, same]

/-- The dropped identities have numbers that stay recorded: below another number
in use, or below the high-water mark. -/
def Recorded (highWater : Int) (accounts : List Account) (name : String) : Prop :=
  ∀ account ∈ accounts, account.name = name →
    account.id ≤ bound highWater (accounts.filter fun other => other.name ≠ name)

/-- What the two gaps leave: no added name is shadowed, and the number of a
dropped identity stays recorded. -/
def Careful (directory : Directory) : Command → Prop
  | .catalogManage command => Careful directory command
  | .accountDrop user => Recorded directory.identityHighWater directory.accounts (lower user)
  | command => ∀ name ∈ newNames directory command,
      ∀ account ∈ directory.accounts, account.identityVersion ≠ 0 →
        lower account.user = name → account.user = name

instance (highWater : Int) (accounts : List Account) (name : String) :
    Decidable (Recorded highWater accounts name) :=
  inferInstanceAs (Decidable (∀ account ∈ accounts, account.name = name →
    account.id ≤ bound highWater (accounts.filter fun other => other.name ≠ name)))

instance Careful.decidable (directory : Directory) : (command : Command) →
    Decidable (Careful directory command)
  | .catalogManage command => Careful.decidable directory command
  | .accountDrop user =>
      inferInstanceAs
        (Decidable (Recorded directory.identityHighWater directory.accounts (lower user)))
  | .accountsList | .identityInitialize _ | .accountCreate _ _ | .roleCreate _
  | .identityAlter _ _ _ _ _ | .accountReset _ _ | .accountLogin _ _ | .other =>
      inferInstanceAs (Decidable (∀ name ∈ newNames directory _, _))

theorem Loaded.recorded {stored accounts : List Account} (loaded : Loaded stored accounts)
    {name : String} {highWater : Int} (recorded : Recorded highWater stored name) :
    ∀ account ∈ accounts, account.user = name →
      account.id ≤ bound highWater (accounts.filter fun other => other.user ≠ name) := by
  obtain ⟨stamp, rfl⟩ := loaded.stamped
  have kept : ids ((stored.map fun account => seenAs (stamp account) account).filter
      fun other => other.user ≠ name) = ids (stored.filter fun other => other.name ≠ name) := by
    rw [List.filter_map]
    simp only [ids, List.map_map, Function.comp_def, seenAs_id, seenAs_user]
    exact congrArg _ (List.filter_congr fun account _ => decide_eq_decide.mpr Iff.rfl)
  intro account member named
  obtain ⟨old, held, rfl⟩ := List.mem_map.mp member
  rw [bound_congr kept, seenAs_id]
  exact recorded old held named

theorem Loaded.unshadowed {stored accounts : List Account} (loaded : Loaded stored accounts)
    {name : String} (clear : ∀ account ∈ stored, account.identityVersion ≠ 0 →
      lower account.user = name → account.user = name) : Unshadowed accounts name := by
  obtain ⟨stamp, rfl⟩ := loaded.stamped
  intro account member lowered
  obtain ⟨old, held, rfl⟩ := List.mem_map.mp member
  rw [seenAs_user, Account.name, lower_checked] at lowered
  rw [seenAs_user, Account.name]
  unfold checked
  split
  · exact lowered
  · next version => exact clear old held version lowered

theorem careful_names {directory : Directory} {command : Command} (careful : Careful directory command)
    {name : String} (new : name ∈ newNames directory command) :
    ∀ account ∈ directory.accounts, account.identityVersion ≠ 0 →
      lower account.user = name → account.user = name := by
  induction command with
  | catalogManage command ih => exact ih careful new
  | accountDrop user => cases new
  | accountsList => cases new
  | identityInitialize administrator => exact careful name new
  | accountCreate user hash => exact careful name new
  | roleCreate user => exact careful name new
  | identityAlter => cases new
  | accountReset => cases new
  | accountLogin => cases new
  | other => cases new

/-- A careful change keeps numbers and names apart, and takes new numbers from
above everything recorded. -/
theorem Change.keeps {directory : Directory} {accounts result : List Account} {command : Command}
    (change : Change directory accounts command result)
    (loaded : Loaded directory.accounts accounts) (careful : Careful directory command) :
    (loweredNames result).Nodup ∧ (ids result).Nodup ∧ (∀ id ∈ ids result, 1 ≤ id) ∧
      (∀ id ∈ ids result,
        id ∈ ids directory.accounts ∨ bound directory.identityHighWater directory.accounts < id) ∧
      ∀ id ∈ ids directory.accounts, id ≤ bound directory.identityHighWater result := by
  have numbers := loaded.ids_eq
  have names := loaded.loweredNames_eq
  have uniqueIds := loaded.uniqueIds
  have uniqueNames := loaded.uniqueNames
  have positive := loaded.positive
  rw [← numbers] at uniqueIds positive
  rw [← names] at uniqueNames
  rw [← numbers, bound_congr numbers.symm]
  cases change with
  | @adds _ relabel _ sameId sameUser added source =>
      have relabeled := ids_relabeled sameId accounts
      have users : (accounts.map relabel).map (·.user) = accounts.map (·.user) := by
        simp [Function.comp_def, sameUser]
      have lowered : loweredNames (accounts.map relabel) = loweredNames accounts := by
        simp [loweredNames, Function.comp_def, sameUser]
      obtain ⟨distinct, kept, fresh⟩ := added.numbers (relabeled ▸ uniqueIds)
      rw [relabeled] at kept fresh
      rw [bound_congr relabeled] at fresh
      refine ⟨added.names (lowered ▸ uniqueNames) ?_, distinct, added.positive (relabeled ▸ positive),
        fresh, fun id member => Int.le_trans (le_topId (kept id member)) (Int.le_max_left _ _)⟩
      intro account member absent holder held holds
      rw [users] at absent
      obtain ⟨old, present, rfl⟩ := List.mem_map.mp held
      rw [sameUser] at holds ⊢
      cases source account member with
      | inl known =>
          obtain ⟨other, inside, same⟩ := known
          exact absurd (List.mem_map.mpr ⟨other, inside, same⟩) absent
      | inr new =>
          refine loaded.unshadowed (fun other inside version low => ?_) old present holds
          exact careful_names careful new other inside version low
  | @replaces _ before after account changed found sameId sameUser =>
      subst found
      have same := @ids_replaced before after _ _ sameId
      have lowered : loweredNames (before ++ changed :: after) =
          loweredNames (before ++ account :: after) := by
        simp [loweredNames, sameUser]
      refine ⟨lowered ▸ uniqueNames, same ▸ uniqueIds, same ▸ positive,
        fun id member => .inl (same ▸ member), fun id member => ?_⟩
      rw [← same] at member
      exact Int.le_trans (le_topId member) (Int.le_max_left _ _)
  | drops user =>
      have fewer : (accounts.filter fun account => account.user ≠ lower user).Sublist accounts :=
        List.filter_sublist
      refine ⟨uniqueNames.sublist (fewer.map _), uniqueIds.sublist (fewer.map _),
        fun id member => positive id ((fewer.map _).subset member),
        fun id member => .inl ((fewer.map _).subset member), fun id member => ?_⟩
      obtain ⟨account, held, rfl⟩ := List.mem_map.mp member
      by_cases named : account.user = lower user
      · exact loaded.recorded careful account held named
      · have kept : account.id ∈ ids (accounts.filter fun account => account.user ≠ lower user) :=
          List.mem_map_of_mem (List.mem_filter.mpr ⟨held, by simpa using named⟩)
        exact Int.le_trans (le_topId kept) (Int.le_max_left _ _)

/-! ### Requests and runs -/

theorem unwrap_ok {accounts : List Account} {command inner : Command}
    (ok : unwrap accounts command = .ok inner) : inner = command ∨ command = .catalogManage inner := by
  cases command with
  | catalogManage command =>
      obtain ⟨target, _, ok⟩ := bind_eq_ok.mp ok
      split at ok
      · cases ok
      · cases ok
        exact .inr rfl
  | _ =>
      cases ok
      exact .inl rfl

theorem accountsRequest_ok {codec : RowCodec} {now : String} {directory next : Directory}
    {command : Command} {listed : List Account}
    (ok : accountsRequest codec now directory command = .ok (listed, next)) :
    ∃ inner accounts writes, unwrap (loadAccounts now directory) command = .ok inner ∧
      Loaded directory.accounts accounts ∧
      perform now directory accounts inner = .ok (writes, listed) ∧
      next = if writes then applyAccounts directory listed inner.migrates else directory := by
  obtain ⟨inner, unwrapped, ok⟩ := bind_eq_ok.mp ok
  obtain ⟨accounts, checked, ok⟩ := bind_eq_ok.mp ok
  obtain ⟨_, _, ok⟩ := bind_eq_ok.mp ok
  obtain ⟨⟨writes, changed⟩, performed, ok⟩ := bind_eq_ok.mp ok
  refine ⟨inner, accounts, writes, unwrapped, checkRecords_loaded checked, ?_⟩
  cases writes with
  | false =>
      cases ok
      exact ⟨performed, rfl⟩
  | true =>
      obtain ⟨_, _, ok⟩ := bind_eq_ok.mp ok
      obtain ⟨_, _, ok⟩ := bind_eq_ok.mp ok
      cases ok
      exact ⟨performed, rfl⟩

theorem request_administers {codec : RowCodec} {now : String} {directory next : Directory}
    {command : Command} {listed : List Account}
    (ok : accountsRequest codec now directory command = .ok (listed, next))
    (administered : directory.accounts.any Account.administers = true) :
    next.accounts.any Account.administers = true := by
  obtain ⟨inner, accounts, writes, _, loaded, performed, rfl⟩ := accountsRequest_ok ok
  cases writes with
  | false => exact administered
  | true => exact perform_administers performed (loaded.administers.trans administered)

/-- The greatest number a directory keeps from being given again. -/
def Directory.recorded (directory : Directory) : Int :=
  bound directory.identityHighWater directory.accounts

theorem request_keeps {codec : RowCodec} {now : String} {directory next : Directory}
    {command : Command} {listed : List Account} (careful : Careful directory command)
    (ok : accountsRequest codec now directory command = .ok (listed, next)) :
    (loweredNames next.accounts).Nodup ∧ (ids next.accounts).Nodup ∧
      (∀ id ∈ ids next.accounts, id ∈ ids directory.accounts ∨ directory.recorded < id) ∧
      directory.recorded ≤ next.recorded := by
  obtain ⟨inner, accounts, writes, unwrapped, loaded, performed, rfl⟩ := accountsRequest_ok ok
  cases writes with
  | false =>
      exact ⟨loaded.uniqueNames, loaded.uniqueIds, fun _ member => .inl member, Int.le_refl _⟩
  | true =>
      have carefulInner : Careful directory inner := by
        cases unwrap_ok unwrapped with
        | inl same => exact same ▸ careful
        | inr wrapped =>
            subst wrapped
            exact careful
      obtain ⟨names, numbers, positive, fresh, recorded⟩ :=
        (perform_change performed).keeps loaded carefulInner
      refine ⟨names, numbers, fresh, ?_⟩
      have top := topId_nonneg positive
      have kept : topId directory.accounts ≤ bound directory.identityHighWater listed :=
        topId_le recorded (Int.le_trans top (Int.le_max_left _ _))
      unfold Directory.recorded
      unfold bound at kept ⊢
      simp only [applyAccounts, if_true]
      omega

/-- A request of a run: what fails changes nothing. -/
def attempt (codec : RowCodec) (directory : Directory) (request : String × Command) :
    Except IoError Directory :=
  match accountsRequest codec request.1 directory request.2 with
  | .ok (_, next) => .ok next
  | .error _ => .ok directory

theorem attempt_ok {codec : RowCodec} {directory next : Directory} {request : String × Command}
    (ok : attempt codec directory request = .ok next) :
    next = directory ∨
      ∃ listed, accountsRequest codec request.1 directory request.2 = .ok (listed, next) := by
  unfold attempt at ok
  split at ok
  · next listed reached accepted =>
      cases ok
      exact .inr ⟨listed, accepted⟩
  · cases ok
    exact .inl rfl

theorem run_administers {codec : RowCodec} {requests : List (String × Command)}
    {start final : Directory} (ran : run (attempt codec) start requests = .ok final)
    (administered : start.accounts.any Account.administers = true) :
    final.accounts.any Account.administers = true := by
  induction requests generalizing start with
  | nil =>
      cases ran
      exact administered
  | cons request rest ih =>
      obtain ⟨next, attempted, later⟩ := bind_eq_ok.mp ran
      refine ih later ?_
      cases attempt_ok attempted with
      | inl same => exact same ▸ administered
      | inr accepted =>
          obtain ⟨listed, accepted⟩ := accepted
          exact request_administers accepted administered

theorem run_recorded {codec : RowCodec} {requests : List (String × Command)}
    {start final : Directory} (ran : run (attempt codec) start requests = .ok final)
    (careful : Meets (attempt codec) (fun directory request => Careful directory request.2)
      start requests) :
    start.recorded ≤ final.recorded := by
  induction requests generalizing start with
  | nil =>
      cases ran
      exact Int.le_refl _
  | cons request rest ih =>
      obtain ⟨next, attempted, later⟩ := bind_eq_ok.mp ran
      obtain ⟨first, others⟩ := careful
      rw [attempted] at others
      refine Int.le_trans ?_ (ih later others)
      cases attempt_ok attempted with
      | inl same => exact same ▸ Int.le_refl _
      | inr accepted =>
          obtain ⟨listed, accepted⟩ := accepted
          exact (request_keeps first accepted).2.2.2

/-- Once there is an administrator there is one after every request, and in a
careful run names stay apart in every letter case and no new identity gets a
number that anybody had at any earlier point. -/
theorem identities_protected {codec : RowCodec} {start earlier before : Directory}
    {first later : List (String × Command)}
    (ranFirst : run (attempt codec) start first = .ok earlier)
    (ranLater : run (attempt codec) earlier later = .ok before) {now : String} {command : Command}
    {listed : List Account} {next : Directory}
    (accepted : accountsRequest codec now before command = .ok (listed, next)) :
    (earlier.accounts.any Account.administers = true →
        next.accounts.any Account.administers = true) ∧
      (Meets (attempt codec) (fun directory request => Careful directory request.2) start
          (first ++ later ++ [(now, command)]) →
        (loweredNames next.accounts).Nodup ∧ (ids next.accounts).Nodup ∧
          ∀ id ∈ ids next.accounts, id ∉ ids before.accounts → id ∉ ids earlier.accounts) := by
  constructor
  · intro administered
    exact request_administers accepted (run_administers ranLater administered)
  · intro careful
    have carefulLater := meets_after ranFirst (List.append_assoc .. ▸ careful)
    have carefulLast := (meets_after ranLater carefulLater).1
    have recorded := run_recorded ranLater (meets_before carefulLater)
    obtain ⟨names, numbers, fresh, _⟩ := request_keeps carefulLast accepted
    refine ⟨names, numbers, fun id member new old => ?_⟩
    cases fresh id member with
    | inl known => exact new known
    | inr above =>
        have low : id ≤ earlier.recorded := Int.le_trans (le_topId old) (Int.le_max_left _ _)
        omega

/-! ### Two runs -/

def wideRows : RowCodec := ⟨fun _ => .ok (), fun _ => .ok ()⟩

def sampleAccount (id : Int) (user : String) (isSuperuser : Bool) (identityVersion : Nat) : Account :=
  ⟨id, user, "", 1, "2024-01-01 00:00:00", none, true, isSuperuser, false, true, identityVersion⟩

/-- A catalog from before the high-water mark. -/
def oldDirectory : Directory where
  accounts := [sampleAccount 1 "root" true 1, sampleAccount 2 "bob" false 1]
  identitySchema := some identityColumns
  legacyRoles := none
  identityHighWater := 0

/-- A login records the numbers in use before the drop. -/
theorem identities_protected_recorded :
    ∃ before listed next,
      run (attempt wideRows) oldDirectory [("noon", .accountLogin "Bob" none),
        ("noon", .accountDrop "BOB")] = .ok before ∧
      accountsRequest wideRows "noon" before (.roleCreate "Eve") = .ok (listed, next) ∧
      (loweredNames next.accounts).Nodup ∧
      ∀ id ∈ ids next.accounts, id ∉ ids before.accounts → id ∉ ids oldDirectory.accounts := by
  refine ⟨_, _, _, rfl, rfl, ?_⟩
  have holds := (@identities_protected wideRows oldDirectory oldDirectory _ []
    [("noon", .accountLogin "Bob" none), ("noon", .accountDrop "BOB")] rfl rfl "noon"
    (.roleCreate "Eve") _ _ rfl).2 (by decide +kernel)
  exact ⟨holds.1, holds.2.2⟩

/-- Dropping the identity with the greatest number in a catalog without a
high-water mark gives its number to the next identity. -/
theorem identity_number_returns :
    ∃ before listed next,
      run (attempt wideRows) oldDirectory [("noon", .accountDrop "bob")] = .ok before ∧
      accountsRequest wideRows "noon" before (.accountCreate "eve" "") = .ok (listed, next) ∧
      2 ∈ ids next.accounts ∧ 2 ∉ ids before.accounts ∧ 2 ∈ ids oldDirectory.accounts := by
  refine ⟨_, _, _, rfl, rfl, ?_⟩
  decide +kernel

end ChuSQL.Storage.Accounts
