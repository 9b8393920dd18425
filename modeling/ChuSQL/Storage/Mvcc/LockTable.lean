import ChuSQL.Storage.Mvcc.Locks

/-! Safety of the lock table under every interleaving: no conflicting owners, no
cycle of waiting transactions, nothing left of aborted and finished ones. -/

set_option autoImplicit false

namespace ChuSQL.Storage.Mvcc

open Library

/-! ### What the operations do to the transactions -/

theorem transaction_ok {state : State} {token : Token} {tx : Transaction} :
    state.transaction token = .ok tx ↔ state.transactions.get token = some tx := by
  rw [State.transaction]
  cases state.transactions.get token <;> simp

theorem get_setTransaction (state : State) (token : Token) (tx : Transaction) (other : Token) :
    (state.setTransaction token tx).transactions.get other =
      if other = token then some tx else state.transactions.get other :=
  SortedMap.get_insert state.transactions token tx other

theorem get_forget (state : State) (token other : Token) :
    (state.forget token).transactions.get other =
      (state.transactions.get other).map (·.forget token) :=
  SortedMap.get_mapValues state.transactions _ other

theorem get_abort_self (state : State) (token : Token) (error : String) :
    (abort state token error).transactions.get token =
      (state.transactions.get token).map fun tx => (tx.release error).forget token := by
  rw [abort]
  cases found : state.transactions.get token with
  | none => rw [get_forget, found]; rfl
  | some tx => rw [get_forget, get_setTransaction, if_pos rfl]; rfl

theorem get_abort_other (state : State) {token other : Token} (error : String)
    (different : other ≠ token) :
    (abort state token error).transactions.get other =
      (state.transactions.get other).map (·.forget token) := by
  rw [abort]
  cases state.transactions.get token with
  | none => exact get_forget ..
  | some tx => rw [get_forget, get_setTransaction, if_neg different]

theorem get_finish (state : State) (token other : Token) :
    (finish state token).transactions.get other =
      if other = token then none else (state.transactions.get other).map (·.forget token) := by
  have erased := SortedMap.get_erase state.transactions token other
  rw [finish, get_forget, prune, erased]
  split <;> rfl

theorem mem_forget {tx : Transaction} {token owner : Token} :
    owner ∈ (tx.forget token).waiting ↔ owner ∈ tx.waiting ∧ owner ≠ token := by
  simp [Transaction.forget]

/-! ### The invariant -/

/-- No two live transactions hold a key unless both hold it shared. -/
def Exclusive (state : State) : Prop :=
  ∀ first second firstTx secondTx key firstHeld secondHeld, first ≠ second →
    state.transactions.get first = some firstTx → state.transactions.get second = some secondTx →
    firstTx.aborted = none → secondTx.aborted = none →
    firstTx.held.get key = some firstHeld → secondTx.held.get key = some secondHeld →
    firstHeld = false ∧ secondHeld = false

/-- No transaction waits, through others, for itself. -/
def Acyclic (state : State) : Prop :=
  ∀ token, ¬ Relation.TransGen (Edge (waitsOn state)) token token

/-- A transaction that is still there and not aborted. -/
def State.Live (state : State) (token : Token) : Prop :=
  ∃ tx, state.transactions.get token = some tx ∧ tx.aborted = none

structure LockSafe (state : State) : Prop where
  exclusive : Exclusive state
  acyclic : Acyclic state
  released : ∀ token tx, state.transactions.get token = some tx → tx.aborted ≠ none →
    tx.held = .empty ∧ tx.waiting = []
  owners : ∀ token tx owner, state.transactions.get token = some tx → owner ∈ tx.waiting →
    state.Live owner
  counted : ∀ token tx, state.transactions.get token = some tx → token ≤ state.nextTransaction

theorem mem_waitsOn {state : State} {token owner : Token} :
    owner ∈ waitsOn state token ↔
      ∃ tx, state.transactions.get token = some tx ∧ owner ∈ tx.waiting := by
  rw [waitsOn]
  cases state.transactions.get token <;> simp

/-- Every transaction comes from one that held and awaited at least as much. -/
def Loosened (before after : State) : Prop :=
  ∀ token tx', after.transactions.get token = some tx' →
    ∃ tx, before.transactions.get token = some tx ∧
      (tx'.aborted = none → tx.aborted = none) ∧
      (∀ key held, tx'.held.get key = some held → tx.held.get key = some held) ∧
      tx'.waiting ⊆ tx.waiting

theorem Exclusive.loosened {before after : State} (safe : Exclusive before)
    (loosened : Loosened before after) : Exclusive after := by
  intro first second firstTx secondTx key firstHeld secondHeld different firstFound secondFound
    firstLive secondLive firstHolds secondHolds
  obtain ⟨firstOld, firstBefore, firstSame, firstKept, _⟩ := loosened first firstTx firstFound
  obtain ⟨secondOld, secondBefore, secondSame, secondKept, _⟩ := loosened second secondTx secondFound
  exact safe first second firstOld secondOld key firstHeld secondHeld different firstBefore
    secondBefore (firstSame firstLive) (secondSame secondLive) (firstKept key _ firstHolds)
    (secondKept key _ secondHolds)

theorem Loosened.waitsOn {before after : State} (loosened : Loosened before after) (token : Token) :
    waitsOn after token ⊆ waitsOn before token := by
  intro owner waits
  obtain ⟨tx', found, member⟩ := mem_waitsOn.mp waits
  obtain ⟨tx, before, _, _, fewer⟩ := loosened token tx' found
  exact mem_waitsOn.mpr ⟨tx, before, fewer member⟩

theorem Acyclic.loosened {before after : State} (safe : Acyclic before)
    (loosened : Loosened before after) : Acyclic after :=
  acyclic_of_fewer_edges loosened.waitsOn safe

/-! ### One operation at a time -/

section Operations

variable {state : State} {token : Token}

private theorem abort_loosened (state : State) (token : Token) (error : String) :
    Loosened state (abort state token error) := by
  intro other tx' found
  by_cases same : other = token
  · subst same
    rw [get_abort_self, Option.map_eq_some_iff] at found
    obtain ⟨tx, before, rfl⟩ := found
    refine ⟨tx, before, fun live => ?_, fun key held holds => ?_, fun owner member => ?_⟩
    · cases live
    · cases holds
    · cases member
  · rw [get_abort_other state error same, Option.map_eq_some_iff] at found
    obtain ⟨tx, before, rfl⟩ := found
    exact ⟨tx, before, id, fun _ _ holds => holds, fun _ member => (mem_forget.mp member).1⟩

theorem abort_live {other : Token} {error : String} (live : state.Live other)
    (different : other ≠ token) : (abort state token error).Live other := by
  obtain ⟨tx, found, running⟩ := live
  exact ⟨tx.forget token, by rw [get_abort_other state error different, found]; rfl, running⟩

theorem abort_nextTransaction (state : State) (token : Token) (error : String) :
    (abort state token error).nextTransaction = state.nextTransaction := by
  rw [abort]
  split <;> rfl

theorem LockSafe.abort (safe : LockSafe state) (error : String) :
    LockSafe (abort state token error) where
  exclusive := safe.exclusive.loosened (abort_loosened state token error)
  acyclic := safe.acyclic.loosened (abort_loosened state token error)
  released other tx' found aborted := by
    by_cases same : other = token
    · subst same
      rw [get_abort_self, Option.map_eq_some_iff] at found
      obtain ⟨tx, _, rfl⟩ := found
      exact ⟨rfl, rfl⟩
    · rw [get_abort_other state error same, Option.map_eq_some_iff] at found
      obtain ⟨tx, before, rfl⟩ := found
      obtain ⟨held, waiting⟩ := safe.released other tx before aborted
      exact ⟨held, by simp [Transaction.forget, waiting]⟩
  owners other tx' owner found member := by
    by_cases same : other = token
    · subst same
      rw [get_abort_self, Option.map_eq_some_iff] at found
      obtain ⟨tx, _, rfl⟩ := found
      cases member
    · rw [get_abort_other state error same, Option.map_eq_some_iff] at found
      obtain ⟨tx, before, rfl⟩ := found
      obtain ⟨waits, different⟩ := mem_forget.mp member
      exact abort_live (safe.owners other tx owner before waits) different
  counted other tx' found := by
    obtain ⟨tx, before, _⟩ := abort_loosened state token error other tx' found
    rw [abort_nextTransaction]
    exact safe.counted other tx before

/-- Setting fields that are not about locks. -/
theorem LockSafe.set_same (safe : LockSafe state) {tx tx' : Transaction}
    (found : state.transactions.get token = some tx) (aborted : tx'.aborted = tx.aborted)
    (held : tx'.held = tx.held) (waiting : tx'.waiting = tx.waiting) :
    LockSafe (state.setTransaction token tx') := by
  have origin : ∀ other new, (state.setTransaction token tx').transactions.get other = some new →
      ∃ old, state.transactions.get other = some old ∧ new.aborted = old.aborted ∧
        new.held = old.held ∧ new.waiting = old.waiting := by
    intro other new after
    rw [get_setTransaction] at after
    split at after
    · rename_i same
      cases after
      exact ⟨tx, same ▸ found, aborted, held, waiting⟩
    · exact ⟨new, after, rfl, rfl, rfl⟩
  have loosened : Loosened state (state.setTransaction token tx') := by
    intro other new after
    obtain ⟨old, before, aborted, held, waiting⟩ := origin other new after
    refine ⟨old, before, fun live => aborted ▸ live, fun key _ holds => ?_, ?_⟩
    · rw [← held]
      exact holds
    · rw [waiting]
      exact List.Subset.refl _
  refine ⟨safe.exclusive.loosened loosened, safe.acyclic.loosened loosened, ?_, ?_, ?_⟩
  · intro other new after gone
    obtain ⟨old, before, aborted, held, waiting⟩ := origin other new after
    rw [held, waiting]
    exact safe.released other old before (aborted ▸ gone)
  · intro other new owner after member
    obtain ⟨old, before, _, _, waiting⟩ := origin other new after
    obtain ⟨tx, live, running⟩ := safe.owners other old owner before (waiting ▸ member)
    by_cases same : owner = token
    · subst same
      rw [found] at live
      cases live
      exact ⟨tx', by rw [get_setTransaction, if_pos rfl], aborted.trans running⟩
    · exact ⟨tx, by rw [get_setTransaction, if_neg same]; exact live, running⟩
  · intro other new after
    obtain ⟨old, before, _⟩ := origin other new after
    exact safe.counted other old before

theorem blockers_eq_nil {key : Key} {exclusive : Bool} (free : blockers state token key exclusive = [])
    {other : Token} {tx : Transaction} {held : Bool} (different : other ≠ token)
    (found : state.transactions.get other = some tx) (live : tx.aborted = none)
    (holds : tx.held.get key = some held) : held = false ∧ exclusive = false := by
  rw [blockers, List.map_eq_nil_iff, List.filter_eq_nil_iff] at free
  have clear := free (other, tx) (SortedMap.get_eq_some.mp found)
  simp only [decide_eq_true_eq, not_and, holds, Option.any_some, Bool.or_eq_true, not_or,
    Bool.not_eq_true] at clear
  exact clear different live

theorem live_of_mem_blockers {key : Key} {exclusive : Bool} {owner : Token}
    (member : owner ∈ blockers state token key exclusive) : owner ≠ token ∧ state.Live owner := by
  rw [blockers, List.mem_map] at member
  obtain ⟨⟨other, tx⟩, kept, rfl⟩ := member
  obtain ⟨entry, conditions⟩ := List.mem_filter.mp kept
  simp only [decide_eq_true_eq] at conditions
  exact ⟨conditions.1, tx, SortedMap.get_eq_some.mpr entry, conditions.2.1⟩

theorem get_acquire (tx : Transaction) (key : Key) (exclusive : Bool) (other : Key) :
    (tx.acquire key exclusive).held.get other =
      if other = key then some ((tx.held.get key).getD false || exclusive) else tx.held.get other :=
  SortedMap.get_insert tx.held key _ other

/-- A taken lock conflicts with no other: those held exclusively stood in the way, and
an exclusive request is stopped by those held shared. -/
private theorem Exclusive.acquire (safe : Exclusive state) {tx : Transaction} {key : Key}
    {exclusive : Bool} (found : state.transactions.get token = some tx) (live : tx.aborted = none)
    (free : blockers state token key exclusive = []) :
    Exclusive (state.setTransaction token (tx.acquire key exclusive)) := by
  -- the new lock against one held by any other transaction
  have against : ∀ other otherTx wanted held mine, other ≠ token →
      state.transactions.get other = some otherTx → otherTx.aborted = none →
      (tx.acquire key exclusive).held.get wanted = some mine →
      otherTx.held.get wanted = some held → mine = false ∧ held = false := by
    intro other otherTx wanted held mine different otherFound otherLive mineHolds otherHolds
    rw [get_acquire] at mineHolds
    split at mineHolds
    · rename_i same
      subst same
      cases mineHolds
      obtain ⟨heldShared, askedShared⟩ :=
        blockers_eq_nil free different otherFound otherLive otherHolds
      refine ⟨?_, heldShared⟩
      cases before : tx.held.get wanted with
      | none => simpa using askedShared
      | some mine =>
          obtain ⟨shared, _⟩ := safe token other tx otherTx wanted mine held (Ne.symm different) found
            otherFound live otherLive before otherHolds
          simp [shared, askedShared]
    · exact safe token other tx otherTx wanted mine held (Ne.symm different) found otherFound live
        otherLive mineHolds otherHolds
  intro first second firstTx secondTx wanted firstHeld secondHeld different firstFound secondFound
    firstLive secondLive firstHolds secondHolds
  rw [get_setTransaction] at firstFound secondFound
  by_cases isFirst : first = token
  · have isSecond : second ≠ token := fun same => different (isFirst.trans same.symm)
    rw [if_pos isFirst] at firstFound
    rw [if_neg isSecond] at secondFound
    cases firstFound
    exact against second secondTx wanted secondHeld firstHeld isSecond secondFound secondLive
      firstHolds secondHolds
  · rw [if_neg isFirst] at firstFound
    by_cases isSecond : second = token
    · rw [if_pos isSecond] at secondFound
      cases secondFound
      exact (against first firstTx wanted firstHeld secondHeld isFirst firstFound firstLive
        secondHolds firstHolds).symm
    · rw [if_neg isSecond] at secondFound
      exact safe first second firstTx secondTx wanted firstHeld secondHeld different firstFound
        secondFound firstLive secondLive firstHolds secondHolds

/-- A transaction of the state after one was replaced is the new one or an old one. -/
theorem set_cases {tx : Transaction} {other : Token} {new : Transaction}
    (after : (state.setTransaction token tx).transactions.get other = some new) :
    other = token ∧ new = tx ∨ other ≠ token ∧ state.transactions.get other = some new := by
  rw [get_setTransaction] at after
  split at after
  · rename_i same
    exact .inl ⟨same, (Option.some.inj after).symm⟩
  · rename_i different
    exact .inr ⟨different, after⟩

theorem set_live {tx : Transaction} (running : tx.aborted = none) {owner : Token}
    (live : state.Live owner) : (state.setTransaction token tx).Live owner := by
  by_cases same : owner = token
  · exact ⟨tx, by rw [get_setTransaction, if_pos same], running⟩
  · obtain ⟨old, found, running⟩ := live
    exact ⟨old, by rw [get_setTransaction, if_neg same]; exact found, running⟩

theorem waitsOn_set_self (state : State) (token : Token) (tx : Transaction) :
    waitsOn (state.setTransaction token tx) token = tx.waiting := by
  rw [waitsOn, get_setTransaction, if_pos rfl]

theorem waitsOn_set_other {tx : Transaction} {other : Token} (different : other ≠ token) :
    waitsOn (state.setTransaction token tx) other = waitsOn state other := by
  rw [waitsOn, get_setTransaction, if_neg different, waitsOn]

theorem LockSafe.acquire (safe : LockSafe state) {tx : Transaction} {key : Key} {exclusive : Bool}
    (found : state.transactions.get token = some tx) (live : tx.aborted = none)
    (free : blockers state token key exclusive = []) :
    LockSafe (state.setTransaction token (tx.acquire key exclusive)) where
  exclusive := safe.exclusive.acquire found live free
  acyclic := by
    refine acyclic_of_fewer_edges (fun other => ?_) safe.acyclic
    by_cases same : other = token
    · subst same
      rw [waitsOn_set_self]
      exact List.nil_subset _
    · rw [waitsOn_set_other same]
      exact List.Subset.refl _
  released other new after gone := by
    cases set_cases after with
    | inl own =>
        obtain ⟨_, rfl⟩ := own
        exact absurd live gone
    | inr old => exact safe.released other new old.2 gone
  owners other new owner after member := by
    have running : (tx.acquire key exclusive).aborted = none := live
    cases set_cases after with
    | inl own =>
        obtain ⟨_, rfl⟩ := own
        cases member
    | inr old => exact set_live running (safe.owners other new owner old.2 member)
  counted other new after := by
    cases set_cases after with
    | inl own => exact own.1 ▸ safe.counted token tx found
    | inr old => exact safe.counted other new old.2

/-- The search over the waiting sets finds exactly the cycles through a transaction. -/
theorem cycle_iff (state : State) (token : Token) :
    cycle state token = true ↔ Relation.TransGen (Edge (waitsOn state)) token token := by
  refine search_iff (fun other owner waits => ?_) (List.mem_cons_self : token ∈ waitNodes state token)
    (Nat.lt_succ_self _)
  obtain ⟨tx, found, member⟩ := mem_waitsOn.mp waits
  exact List.mem_cons_of_mem _
    (List.mem_flatMap.mpr ⟨tx, SortedMap.mem_values.mpr ⟨other, found⟩, member⟩)

/-- Waiting for live owners keeps the invariant if no path leads back. -/
theorem LockSafe.wait (safe : LockSafe state) {tx : Transaction} {owners : List Token}
    (found : state.transactions.get token = some tx) (live : tx.aborted = none)
    (running : ∀ owner ∈ owners, state.Live owner)
    (open_ : cycle (state.setTransaction token { tx with waiting := owners }) token = false) :
    LockSafe (state.setTransaction token { tx with waiting := owners }) where
  exclusive := by
    intro first second firstTx secondTx key firstHeld secondHeld different firstFound secondFound
      firstLive secondLive firstHolds secondHolds
    -- the locks are those of before
    have origin : ∀ other new, (state.setTransaction token
        { tx with waiting := owners }).transactions.get other = some new →
        ∃ old, state.transactions.get other = some old ∧ new.aborted = old.aborted ∧
          new.held = old.held := by
      intro other new after
      cases set_cases after with
      | inl own => exact ⟨tx, own.1 ▸ found, own.2 ▸ rfl, own.2 ▸ rfl⟩
      | inr old => exact ⟨new, old.2, rfl, rfl⟩
    obtain ⟨firstOld, firstBefore, firstAborted, firstKept⟩ := origin first firstTx firstFound
    obtain ⟨secondOld, secondBefore, secondAborted, secondKept⟩ := origin second secondTx secondFound
    exact safe.exclusive first second firstOld secondOld key firstHeld secondHeld different firstBefore
      secondBefore (firstAborted ▸ firstLive) (secondAborted ▸ secondLive) (firstKept ▸ firstHolds)
      (secondKept ▸ secondHolds)
  acyclic := by
    refine acyclic_of_new_edges (fun other (different : other ≠ token) => ?_) safe.acyclic
      (fun back => ?_)
    · rw [waitsOn_set_other different]
      exact List.Subset.refl _
    · rw [(cycle_iff _ token).mpr back] at open_
      cases open_
  released other new after gone := by
    cases set_cases after with
    | inl own =>
        obtain ⟨_, rfl⟩ := own
        exact absurd live gone
    | inr old => exact safe.released other new old.2 gone
  owners other new owner after member := by
    have unaborted : ({ tx with waiting := owners } : Transaction).aborted = none := live
    cases set_cases after with
    | inl own =>
        obtain ⟨_, rfl⟩ := own
        exact set_live unaborted (running owner member)
    | inr old => exact set_live unaborted (safe.owners other new owner old.2 member)
  counted other new after := by
    cases set_cases after with
    | inl own => exact own.1 ▸ safe.counted token tx found
    | inr old => exact safe.counted other new old.2

/-- An abort undoes the waiting that would have closed a cycle. -/
theorem LockSafe.abort_waiting (safe : LockSafe state) {tx : Transaction} {owners : List Token}
    (found : state.transactions.get token = some tx) (error : String) :
    LockSafe (Mvcc.abort (state.setTransaction token { tx with waiting := owners }) token error) := by
  have same : Mvcc.abort (state.setTransaction token { tx with waiting := owners }) token error =
      Mvcc.abort state token error := by
    have equal : (Mvcc.abort (state.setTransaction token { tx with waiting := owners }) token
        error).transactions = (Mvcc.abort state token error).transactions := by
      apply SortedMap.ext
      intro other
      by_cases here : other = token
      · subst here
        rw [get_abort_self, get_abort_self, get_setTransaction, if_pos rfl, found]
        rfl
      · rw [get_abort_other _ error here, get_abort_other _ error here, get_setTransaction,
          if_neg here]
    rw [Mvcc.abort, Mvcc.abort, found, get_setTransaction, if_pos rfl] at equal ⊢
    simp only [State.forget, State.setTransaction] at equal ⊢
    rw [equal]
  rw [same]
  exact safe.abort error

end Operations

/-! ### Whole calls and runs -/

theorem validate_live {state : State} {token : Token} {writes : Bool} {result : Unit}
    (valid : validate state token writes = .ok result) : state.Live token := by
  cases found : state.transactions.get token with
  | none => simp [validate, State.transaction, found, bind, Except.bind] at valid
  | some tx =>
      refine ⟨tx, found, ?_⟩
      cases aborted : tx.aborted with
      | none => rfl
      | some error => simp [validate, State.transaction, found, bind, Except.bind, aborted] at valid

theorem validate_running {state : State} {token : Token} {writes : Bool} {result : Unit}
    {tx : Transaction} (valid : validate state token writes = .ok result)
    (found : state.transactions.get token = some tx) : tx.aborted = none := by
  obtain ⟨other, same, running⟩ := validate_live valid
  rw [found] at same
  cases same
  exact running

theorem lockKeys_safe {expired : Bool} {token : Token} {ops : List StorageOp}
    (keys : List (Key × Bool)) {state : State} (safe : LockSafe state) :
    LockSafe (lockKeys expired token ops state keys).1 := by
  induction keys generalizing state with
  | nil =>
      rw [lockKeys]
      cases validate state token false with
      | error error => exact safe
      | ok _ =>
          cases found : state.transactions.get token with
          | none => exact safe
          | some tx => exact safe.set_same found rfl rfl rfl
  | cons entry rest ih =>
      obtain ⟨key, exclusive⟩ := entry
      rw [lockKeys]
      cases valid : validate state token false with
      | error error => exact safe
      | ok _ =>
          cases found : state.transactions.get token with
          | none => exact safe
          | some tx =>
              have running := validate_running valid found
              cases blocked : blockers state token key exclusive with
              | nil => exact ih (safe.acquire found running blocked)
              | cons owner owners =>
                  have live : ∀ other ∈ owner :: owners, state.Live other := fun other member =>
                    (live_of_mem_blockers (blocked ▸ member)).2
                  dsimp only
                  cases closes : cycle _ token with
                  | true => exact safe.abort_waiting found deadlockDetected
                  | false =>
                      cases expired with
                      | true => exact safe.abort_waiting found lockTimeout
                      | false => exact safe.wait found running live closes

/-- A request that would close a cycle of waiting transactions aborts its own instead. -/
theorem closing_wait_aborts {state : State} {expired : Bool} {token : Token} {ops : List StorageOp}
    {key : Key} {exclusive : Bool} {rest : List (Key × Bool)} {tx : Transaction}
    (valid : validate state token false = .ok ())
    (found : state.transactions.get token = some tx)
    (taken : blockers state token key exclusive ≠ [])
    (closes : Relation.TransGen (Edge (waitsOn (state.setTransaction token
      { tx with waiting := blockers state token key exclusive }))) token token) :
    lockKeys expired token ops state ((key, exclusive) :: rest) =
      (abort (state.setTransaction token { tx with waiting := blockers state token key exclusive })
        token deadlockDetected, .failed deadlockDetected) := by
  rw [lockKeys, valid, found]
  cases blocked : blockers state token key exclusive with
  | nil => exact absurd blocked taken
  | cons owner owners =>
      rw [blocked] at closes
      have found := (cycle_iff _ token).mpr closes
      simp only [found, ↓reduceIte]

theorem startLock_ok {state next : State} {token : Token} {ops : List StorageOp}
    {reads : List String} {keys : List (Key × Bool)}
    (started : startLock state token ops reads = .ok (next, keys)) :
    ∃ tx touched changes wanted, state.transactions.get token = some tx ∧ tx.aborted = none ∧
      plans state token ops = .ok changes ∧ changes.mapM (wantedKeys state tx) = .ok wanted ∧
      next = state.setTransaction token { tx with reads := touched } ∧
      keys = (SortedMap.empty.insertAll wanted.flatten).entries := by
  simp only [startLock, bind_eq_ok, pure_eq_ok, transaction_ok, Prod.mk.injEq] at started
  obtain ⟨_, valid, tx, found, touched, _, changes, planned, wanted, mapped, rfl, rfl⟩ := started
  exact ⟨tx, touched, changes, wanted, found, validate_running valid found, planned, mapped, rfl, rfl⟩

theorem startLock_safe {state next : State} {token : Token} {ops : List StorageOp}
    {reads : List String} {keys : List (Key × Bool)} (safe : LockSafe state)
    (started : startLock state token ops reads = .ok (next, keys)) : LockSafe next := by
  obtain ⟨tx, touched, _, _, found, _, _, _, rfl, _⟩ := startLock_ok started
  exact safe.set_same found rfl rfl rfl

/-- A new transaction holds nothing, and nobody waits for it yet. -/
theorem LockSafe.add {state : State} {token : Token} {tx : Transaction} (safe : LockSafe state)
    (fresh : state.transactions.get token = none) (counted : token ≤ state.nextTransaction)
    (held : tx.held = .empty) (waiting : tx.waiting = []) (running : tx.aborted = none) :
    LockSafe (state.setTransaction token tx) where
  exclusive := by
    intro first second firstTx secondTx key firstHeld secondHeld different firstFound secondFound
      firstLive secondLive firstHolds secondHolds
    cases set_cases firstFound with
    | inl own =>
        rw [own.2, held] at firstHolds
        cases firstHolds
    | inr firstOld =>
        cases set_cases secondFound with
        | inl own =>
            rw [own.2, held] at secondHolds
            cases secondHolds
        | inr secondOld =>
            exact safe.exclusive first second firstTx secondTx key firstHeld secondHeld different
              firstOld.2 secondOld.2 firstLive secondLive firstHolds secondHolds
  acyclic := by
    refine acyclic_of_fewer_edges (fun other => ?_) safe.acyclic
    by_cases same : other = token
    · subst same
      rw [waitsOn_set_self, waiting]
      exact List.nil_subset _
    · rw [waitsOn_set_other same]
      exact List.Subset.refl _
  released other new after gone := by
    cases set_cases after with
    | inl own => exact own.2 ▸ ⟨held, waiting⟩
    | inr old => exact safe.released other new old.2 gone
  owners other new owner after member := by
    cases set_cases after with
    | inl own =>
        rw [own.2, waiting] at member
        cases member
    | inr old => exact set_live running (safe.owners other new owner old.2 member)
  counted other new after := by
    cases set_cases after with
    | inl own => exact own.1 ▸ counted
    | inr old => exact safe.counted other new old.2

/-- Only the locks, the waiting sets and the token counter matter. -/
theorem LockSafe.congr {state other : State} (safe : LockSafe state)
    (same : other.transactions = state.transactions)
    (counted : state.nextTransaction ≤ other.nextTransaction) : LockSafe other := by
  have waits : waitsOn other = waitsOn state := by
    funext token
    rw [waitsOn, waitsOn, same]
  refine ⟨?_, ?_, ?_, ?_, ?_⟩
  · intro first second firstTx secondTx key firstHeld secondHeld different
    rw [same]
    exact safe.exclusive first second firstTx secondTx key firstHeld secondHeld different
  · intro token
    rw [waits]
    exact safe.acyclic token
  · rw [same]
    exact safe.released
  · intro token tx owner
    rw [State.Live, same]
    exact safe.owners token tx owner
  · intro token tx found
    exact (safe.counted token tx (same ▸ found)).trans counted

theorem LockSafe.fresh {state : State} (safe : LockSafe state) :
    state.transactions.get (state.nextTransaction + 1) = none := by
  cases found : state.transactions.get (state.nextTransaction + 1) with
  | none => rfl
  | some tx => exact absurd (safe.counted _ tx found) (Nat.not_succ_le_self _)

theorem beginSelected_safe {state : State} (safe : LockSafe state) (schemas : List TableSchemaWire)
    (serializable : Bool) (selected : Option (List String)) :
    LockSafe (beginSelected state schemas serializable selected).1 := by
  rw [beginSelected]
  split
  · exact safe
  · have counted : LockSafe { state with nextTransaction := state.nextTransaction + 1 } :=
      safe.congr rfl (Nat.le_succ _)
    dsimp only
    cases schemas.mapM (readOut state.durable selected) with
    | error error => exact counted
    | ok rows => exact counted.add safe.fresh le_rfl rfl rfl rfl

theorem finish_safe {state : State} (safe : LockSafe state) (token : Token) :
    LockSafe (finish state token) := by
  -- what is left comes from before, without the edges to the finished transaction
  have origin : ∀ other new, (finish state token).transactions.get other = some new →
      other ≠ token ∧ ∃ old, state.transactions.get other = some old ∧ new = old.forget token := by
    intro other new after
    rw [get_finish] at after
    split at after
    · cases after
    · rename_i different
      obtain ⟨old, before, same⟩ := Option.map_eq_some_iff.mp after
      exact ⟨different, old, before, same.symm⟩
  have loosened : Loosened state (finish state token) := by
    intro other new after
    obtain ⟨_, old, before, rfl⟩ := origin other new after
    exact ⟨old, before, id, fun _ _ holds => holds, fun _ member => (mem_forget.mp member).1⟩
  refine ⟨safe.exclusive.loosened loosened, safe.acyclic.loosened loosened, ?_, ?_, ?_⟩
  · intro other new after gone
    obtain ⟨_, old, before, rfl⟩ := origin other new after
    obtain ⟨held, waiting⟩ := safe.released other old before gone
    exact ⟨held, by simp [Transaction.forget, waiting]⟩
  · intro other new owner after member
    obtain ⟨_, old, before, rfl⟩ := origin other new after
    obtain ⟨waits, different⟩ := mem_forget.mp member
    obtain ⟨tx, found, running⟩ := safe.owners other old owner before waits
    exact ⟨tx.forget token, by rw [get_finish, if_neg different, found]; rfl, running⟩
  · intro other new after
    obtain ⟨_, old, before, _⟩ := origin other new after
    exact safe.counted other old before

theorem failAll_safe {state : State} (safe : LockSafe state) : LockSafe (failAll state) := by
  rw [failAll]
  generalize state.transactions.keys = tokens
  induction tokens generalizing state with
  | nil => exact safe
  | cons token rest ih => exact ih (safe.abort "storage recovery required")

theorem publishChanged_ok {state next : State} {csn : Nat} {schemas : List TableSchemaWire}
    {tables : List (TableSchemaWire × List Row)}
    (published : publishChanged state csn schemas tables = .ok next) :
    state.durable.csn ≤ csn ∧ ∃ durable, publishDurable state.durable
      ((oldestSnapshot state).getD csn) csn schemas tables = .ok durable ∧
      next = { state with durable } := by
  rw [publishChanged] at published
  split at published
  · cases published
  · rename_i forward
    simp only [bind_eq_ok, pure_eq_ok] at published
    obtain ⟨durable, built, rfl⟩ := published
    exact ⟨not_lt.mp forward, durable, built, rfl⟩

theorem step_safe {world : World} (safe : LockSafe world.state) (action : Action) :
    LockSafe (step world action).state := by
  cases action with
  | begin schemas serializable selected => exact beginSelected_safe safe schemas serializable selected
  | lock expired token ops reads =>
      rw [step, World.lock]
      cases started : startLock world.state token ops reads with
      | error error => exact safe
      | ok start => exact lockKeys_safe start.2 (startLock_safe safe started)
  | resume expired index =>
      rw [step, World.resume]
      cases world.calls[index]? with
      | none => exact safe
      | some call =>
          obtain ⟨token, ops, phase⟩ := call
          cases phase with
          | failing error => exact safe.abort error
          | waiting keys => exact lockKeys_safe keys safe
  | publish csn schemas tables =>
      rw [step]
      cases published : publishChanged world.state csn schemas tables with
      | error error => exact safe
      | ok next =>
          obtain ⟨_, durable, _, rfl⟩ := publishChanged_ok published
          exact safe.congr rfl le_rfl
  | finish token => exact finish_safe safe token
  | failAll => exact failAll_safe safe

theorem opened_safe (durable : Durable) : LockSafe (World.opened durable).state where
  exclusive := by
    intro first second firstTx secondTx key firstHeld secondHeld _ found
    cases found
  acyclic token path := by
    obtain ⟨_, edge, _⟩ := Relation.TransGen.head'_iff.mp path
    cases edge
  released _ _ found := by cases found
  owners _ _ _ found := by cases found
  counted _ _ found := by cases found

theorem steps_safe (durable : Durable) (actions : List Action) :
    LockSafe (steps (.opened durable) actions).state := by
  have each : ∀ world : World, LockSafe world.state → LockSafe (steps world actions).state := by
    induction actions with
    | nil => exact fun _ safe => safe
    | cons action rest ih => exact fun world safe => ih (step world action) (step_safe safe action)
  exact each _ (opened_safe durable)

/-- After any interleaving of steps, locks never conflict, no waiting transaction waits
for itself, a request that would close a cycle aborts its own transaction, and an
aborted or finished transaction holds nothing and is waited for by none. -/
theorem lock_table_safe (durable : Durable) (actions : List Action) :
    let state := (steps (.opened durable) actions).state
    Exclusive state ∧ Acyclic state ∧
      (∀ token, ¬ state.Live token →
        (∀ tx, state.transactions.get token = some tx → tx.held = .empty) ∧
        ∀ other tx, state.transactions.get other = some tx → token ∉ tx.waiting) ∧
      ∀ (before : State) (expired : Bool) (token : Token) (ops : List StorageOp) (key : Key)
        (exclusive : Bool) (rest : List (Key × Bool)) (tx : Transaction),
        validate before token false = .ok () → before.transactions.get token = some tx →
        blockers before token key exclusive ≠ [] →
        let waiting := before.setTransaction token
          { tx with waiting := blockers before token key exclusive }
        Relation.TransGen (Edge (waitsOn waiting)) token token →
        lockKeys expired token ops before ((key, exclusive) :: rest) =
          (abort waiting token deadlockDetected, .failed deadlockDetected) := by
  have safe := steps_safe durable actions
  refine ⟨safe.exclusive, safe.acyclic, fun token gone => ⟨fun tx found => ?_, ?_⟩, ?_⟩
  · refine (safe.released token tx found fun running => ?_).1
    exact gone ⟨tx, found, running⟩
  · intro other tx found waits
    exact gone (safe.owners other tx token found waits)
  · intro before expired token ops key exclusive rest tx valid found taken waiting closes
    exact closing_wait_aborts valid found taken closes

end ChuSQL.Storage.Mvcc
