import ChuSQL.Storage.Mvcc.Snapshot
import ChuSQL.Storage.Mvcc.Merge

/-! Runs of the version store: what a step can do to the transactions and to the
tables, and from it the invariant of every run. -/

set_option autoImplicit false

namespace ChuSQL.Storage.Mvcc

open Library

/-- Every transaction was there before, with the same snapshot, schemas and level; an
aborted one is not revived. -/
structure Continues (before after : State) : Prop where
  counted : before.nextTransaction ≤ after.nextTransaction
  kept : ∀ token tx', after.transactions.get token = some tx' →
    ∃ tx, before.transactions.get token = some tx ∧ tx'.snapshot = tx.snapshot ∧
      tx'.schemas = tx.schemas ∧ tx'.serializable = tx.serializable ∧
      (tx'.aborted = none → tx.aborted = none)

theorem Continues.refl (state : State) : Continues state state :=
  ⟨le_rfl, fun _ tx found => ⟨tx, found, rfl, rfl, rfl, id⟩⟩

theorem Continues.trans {first second third : State} (earlier : Continues first second)
    (later : Continues second third) : Continues first third where
  counted := earlier.counted.trans later.counted
  kept token tx found := by
    obtain ⟨middle, foundMiddle, snapshot, schemas, level, live⟩ := later.kept token tx found
    obtain ⟨old, foundOld, snapshotOld, schemasOld, levelOld, liveOld⟩ :=
      earlier.kept token middle foundMiddle
    exact ⟨old, foundOld, snapshot.trans snapshotOld, schemas.trans schemasOld, level.trans levelOld,
      fun running => liveOld (live running)⟩

theorem setTransaction_continues {state : State} {token : Token} {tx tx' : Transaction}
    (found : state.transactions.get token = some tx) (snapshot : tx'.snapshot = tx.snapshot)
    (schemas : tx'.schemas = tx.schemas) (level : tx'.serializable = tx.serializable)
    (live : tx'.aborted = none → tx.aborted = none) :
    Continues state (state.setTransaction token tx') where
  counted := le_rfl
  kept other new after := by
    cases set_cases after with
    | inl own =>
        obtain ⟨rfl, rfl⟩ := own
        exact ⟨tx, found, snapshot, schemas, level, live⟩
    | inr old => exact ⟨new, old.2, rfl, rfl, rfl, id⟩

theorem abort_continues (state : State) (token : Token) (error : String) :
    Continues state (abort state token error) where
  counted := (abort_nextTransaction state token error).ge
  kept other new after := by
    by_cases same : other = token
    · subst same
      rw [get_abort_self, Option.map_eq_some_iff] at after
      obtain ⟨tx, found, rfl⟩ := after
      exact ⟨tx, found, rfl, rfl, rfl, fun live => by cases live⟩
    · rw [get_abort_other state error same, Option.map_eq_some_iff] at after
      obtain ⟨tx, found, rfl⟩ := after
      exact ⟨tx, found, rfl, rfl, rfl, id⟩

theorem abort_durable (state : State) (token : Token) (error : String) :
    (abort state token error).durable = state.durable := by
  rw [abort]
  split <;> rfl

theorem failAll_keeps (state : State) :
    (failAll state).durable = state.durable ∧ Continues state (failAll state) := by
  rw [failAll]
  generalize state.transactions.keys = tokens
  induction tokens generalizing state with
  | nil => exact ⟨rfl, .refl state⟩
  | cons token rest ih =>
      obtain ⟨durable, continues⟩ := ih (abort state token "storage recovery required")
      exact ⟨durable.trans (abort_durable ..), (abort_continues _ _ _).trans continues⟩

theorem lockKeys_keeps {expired : Bool} {token : Token} {ops : List StorageOp}
    (keys : List (Key × Bool)) (state : State) :
    (lockKeys expired token ops state keys).1.durable = state.durable ∧
      Continues state (lockKeys expired token ops state keys).1 := by
  induction keys generalizing state with
  | nil =>
      rw [lockKeys]
      cases validate state token false with
      | error error => exact ⟨rfl, .refl state⟩
      | ok _ =>
          cases found : state.transactions.get token with
          | none => exact ⟨rfl, .refl state⟩
          | some tx => exact ⟨rfl, setTransaction_continues found rfl rfl rfl id⟩
  | cons entry rest ih =>
      obtain ⟨key, exclusive⟩ := entry
      rw [lockKeys]
      cases validate state token false with
      | error error => exact ⟨rfl, .refl state⟩
      | ok _ =>
          cases found : state.transactions.get token with
          | none => exact ⟨rfl, .refl state⟩
          | some tx =>
              cases blockers state token key exclusive with
              | nil =>
                  obtain ⟨durable, continues⟩ :=
                    ih (state.setTransaction token (tx.acquire key exclusive))
                  have acquired : Continues state
                      (state.setTransaction token (tx.acquire key exclusive)) :=
                    setTransaction_continues found rfl rfl rfl id
                  exact ⟨durable, acquired.trans continues⟩
              | cons owner owners =>
                  have waits : Continues state
                      (state.setTransaction token { tx with waiting := owner :: owners }) :=
                    setTransaction_continues found rfl rfl rfl id
                  dsimp only
                  split
                  · exact ⟨abort_durable .., waits.trans (abort_continues _ _ _)⟩
                  · split
                    · exact ⟨abort_durable .., waits.trans (abort_continues _ _ _)⟩
                    · exact ⟨rfl, waits⟩

theorem lock_keeps (world : World) (expired : Bool) (token : Token) (ops : List StorageOp)
    (reads : List String) :
    (world.lock expired token ops reads).state.durable = world.state.durable ∧
      Continues world.state (world.lock expired token ops reads).state := by
  rw [World.lock]
  cases started : startLock world.state token ops reads with
  | error error => exact ⟨rfl, .refl _⟩
  | ok start =>
      obtain ⟨state, keys⟩ := start
      obtain ⟨tx, touched, _, _, found, _, _, _, rfl, _⟩ := startLock_ok started
      obtain ⟨durable, continues⟩ := lockKeys_keeps keys
        (world.state.setTransaction token { tx with reads := touched })
      have recorded : Continues world.state
          (world.state.setTransaction token { tx with reads := touched }) :=
        setTransaction_continues found rfl rfl rfl id
      exact ⟨durable, recorded.trans continues⟩

theorem resume_keeps (world : World) (expired : Bool) (index : Nat) :
    (world.resume expired index).state.durable = world.state.durable ∧
      Continues world.state (world.resume expired index).state := by
  rw [World.resume]
  cases world.calls[index]? with
  | none => exact ⟨rfl, .refl _⟩
  | some call =>
      obtain ⟨token, ops, phase⟩ := call
      cases phase with
      | failing error => exact ⟨abort_durable .., abort_continues _ _ _⟩
      | waiting keys => exact lockKeys_keeps keys world.state

theorem finish_continues (state : State) (token : Token) : Continues state (finish state token) where
  counted := le_rfl
  kept other new after := by
    rw [get_finish] at after
    split at after
    · cases after
    · obtain ⟨tx, found, rfl⟩ := Option.map_eq_some_iff.mp after
      exact ⟨tx, found, rfl, rfl, rfl, id⟩

theorem finish_durable (state : State) (token : Token) :
    (finish state token).durable = pruneDurable
      ((oldestSnapshot { state with transactions := state.transactions.erase token }).getD
        state.durable.csn) state.durable := rfl

/-- What a step does to the tables and to the transactions. -/
inductive StepEffect (state : State) : Action → State → Prop where
  | quiet {action next} : next.durable = state.durable → Continues state next →
      StepEffect state action next
  | begin {schemas serializable selected next} :
      next.durable = state.durable →
      (∀ schema ∈ schemas, ∃ history, state.durable.tables.get schema.objectId = some history) →
      next = { state with nextTransaction := state.nextTransaction + 1 }.setTransaction
        (state.nextTransaction + 1)
        ⟨state.durable.csn, schemas, serializable, [], .empty, [], none, []⟩ →
      StepEffect state (.begin schemas serializable selected) next
  | publish {csn schemas tables durable} : state.durable.csn ≤ csn →
      publishDurable state.durable ((oldestSnapshot state).getD csn) csn schemas tables = .ok durable →
      StepEffect state (.publish csn schemas tables) { state with durable }
  | finish {token} : StepEffect state (.finish token) (Mvcc.finish state token)

theorem begin_effect (state : State) (schemas : List TableSchemaWire) (serializable : Bool)
    (selected : Option (List String)) :
    StepEffect state (.begin schemas serializable selected)
      (beginSelected state schemas serializable selected).1 := by
  rw [beginSelected]
  split
  · exact .quiet rfl (.refl state)
  · dsimp only
    cases readOuts : schemas.mapM (readOut state.durable selected) with
    | error error => exact .quiet rfl ⟨Nat.le_succ _, (Continues.refl state).kept⟩
    | ok rows =>
        refine .begin rfl (fun schema member => ?_) rfl
        obtain ⟨_, _, out⟩ := exists_of_mem_left (mapM_eq_ok.mp readOuts) member
        rw [readOut] at out
        cases found : state.durable.tables.get schema.objectId with
        | none => simp [found] at out
        | some history => exact ⟨history, rfl⟩

theorem step_effect (world : World) (action : Action) :
    StepEffect world.state action (step world action).state := by
  cases action with
  | begin schemas serializable selected => exact begin_effect world.state schemas serializable selected
  | lock expired token ops reads =>
      obtain ⟨durable, continues⟩ := lock_keeps world expired token ops reads
      exact .quiet durable continues
  | resume expired index =>
      obtain ⟨durable, continues⟩ := resume_keeps world expired index
      exact .quiet durable continues
  | publish csn schemas tables =>
      rw [step]
      cases published : publishChanged world.state csn schemas tables with
      | error error => exact .quiet rfl (.refl _)
      | ok next =>
          obtain ⟨forward, durable, built, rfl⟩ := publishChanged_ok published
          exact .publish forward built
  | finish token => exact .finish
  | failAll =>
      obtain ⟨durable, continues⟩ := failAll_keeps world.state
      exact .quiet durable continues

/-! ### The invariant of every run -/

structure SnapshotSound (state : State) : Prop where
  locks : LockSafe state
  tables : TablesSound state.durable.csn state.durable.nextRow state.durable.tables
  bounded : ∀ token tx, state.transactions.get token = some tx → tx.snapshot ≤ state.durable.csn
  settled : ∀ token tx, state.transactions.get token = some tx → tx.aborted = none →
    Settled state.durable.tables tx.snapshot

/-- No live snapshot is older than the oldest one. -/
theorem oldestSnapshot_le {state : State} {token : Token} {tx : Transaction} {other : Nat}
    (found : state.transactions.get token = some tx) (live : tx.aborted = none) :
    (oldestSnapshot state).getD other ≤ tx.snapshot := by
  have member : tx.snapshot ∈
      (state.transactions.values.filter fun tx => tx.aborted = none).map (·.snapshot) :=
    List.mem_map_of_mem (List.mem_filter.mpr ⟨SortedMap.mem_values.mpr ⟨token, found⟩, by simpa using live⟩)
  rw [oldestSnapshot]
  cases oldest : (((state.transactions.values.filter fun tx =>
      decide (tx.aborted = none)).map (·.snapshot)).min?) with
  | none => exact absurd (List.min?_eq_none_iff.mp oldest ▸ member) List.not_mem_nil
  | some least => exact (List.min?_eq_some_iff.mp oldest).2 _ member

theorem pruneDurable_pruned (oldest : Nat) (durable : Durable) :
    Pruned oldest durable.tables (pruneDurable oldest durable).tables :=
  pruned_retain oldest durable.tables (fun _ history => history.needed) fun table history dropped => by
    simp only [History.needed, Bool.or_eq_false_iff, decide_eq_false_iff_not, not_not] at dropped
    exact dropped.2

/-- A live transaction after a step is new, or was live before with the same snapshot. -/
theorem StepEffect.origin {state next : State} {action : Action} (effect : StepEffect state action next)
    {token : Token} {tx : Transaction}
    (found : next.transactions.get token = some tx) :
    (token = state.nextTransaction + 1 ∧ tx.snapshot = state.durable.csn ∧
        next.durable = state.durable) ∨
      ∃ old, state.transactions.get token = some old ∧ tx.snapshot = old.snapshot ∧
        tx.schemas = old.schemas ∧ tx.serializable = old.serializable ∧
        (tx.aborted = none → old.aborted = none) := by
  cases effect with
  | quiet durable continues => exact .inr (continues.kept token tx found)
  | begin durable present same =>
      subst same
      cases set_cases found with
      | inl own =>
          obtain ⟨rfl, rfl⟩ := own
          exact .inl ⟨rfl, rfl, rfl⟩
      | inr old => exact .inr ⟨tx, old.2, rfl, rfl, rfl, id⟩
  | publish forward built => exact .inr ⟨tx, found, rfl, rfl, rfl, id⟩
  | finish => exact .inr ((finish_continues state _).kept token tx found)

theorem StepEffect.counted {state next : State} {action : Action}
    (effect : StepEffect state action next) : state.nextTransaction ≤ next.nextTransaction := by
  cases effect with
  | quiet durable continues => exact continues.counted
  | begin durable present same =>
      rw [same]
      exact Nat.le_succ _
  | publish forward built => exact le_rfl
  | finish => exact le_rfl

/-- What a live transaction saw before a step it sees after it, unless rows are published
at its own commit point. -/
theorem StepEffect.keeps {state next : State} {action : Action} (effect : StepEffect state action next)
    (sound : SnapshotSound state) {token : Token} {tx new : Transaction}
    (found : state.transactions.get token = some tx) (after : next.transactions.get token = some new)
    (liveBefore : tx.aborted = none)
    (above : ∀ csn schemas tables, action = .publish csn schemas tables → tx.snapshot < csn) :
    (∀ table id, next.durable.shown table id tx.snapshot = state.durable.shown table id tx.snapshot) ∧
      Settled next.durable.tables tx.snapshot := by
  have settled := sound.settled token tx found liveBefore
  cases effect with
  | quiet durable continues =>
      rw [durable]
      exact ⟨fun _ _ => rfl, settled⟩
  | begin durable present equal =>
      rw [durable]
      exact ⟨fun _ _ => rfl, settled⟩
  | publish forward built =>
      rename_i csn schemas tables published
      obtain ⟨_, _, _, shown, settledAfter⟩ := publishDurable_publishes forward sound.tables built
      have before := above csn schemas tables rfl
      have old : (oldestSnapshot state).getD csn ≤ tx.snapshot := oldestSnapshot_le found liveBefore
      have within := sound.bounded token tx found
      exact ⟨fun table id => shown table id tx.snapshot old within before,
        settledAfter tx.snapshot old within before settled⟩
  | finish =>
      rename_i ended
      rw [finish_durable]
      have kept : ({ state with transactions := state.transactions.erase ended } : State).transactions.get
          token = some tx := by
        rw [get_finish] at after
        split at after
        · cases after
        · rename_i different
          rw [SortedMap.get_erase, if_neg different]
          exact found
      have old := @oldestSnapshot_le _ _ _ state.durable.csn kept liveBefore
      have pruned := pruneDurable_pruned ((oldestSnapshot { state with
        transactions := state.transactions.erase ended }).getD state.durable.csn) state.durable
      exact ⟨fun table id => pruned.shown old table id, pruned.settled sound.tables old settled⟩

theorem step_sound {world : World} (sound : SnapshotSound world.state) (action : Action) :
    SnapshotSound (step world action).state := by
  have effect := step_effect world action
  have tables : TablesSound (step world action).state.durable.csn
      (step world action).state.durable.nextRow (step world action).state.durable.tables ∧
      world.state.durable.csn ≤ (step world action).state.durable.csn := by
    generalize (step world action).state = next at effect
    cases effect with
    | quiet durable continues =>
        rw [durable]
        exact ⟨sound.tables, le_rfl⟩
    | begin durable present same =>
        rw [durable]
        exact ⟨sound.tables, le_rfl⟩
    | publish forward built =>
        obtain ⟨point, tables, _⟩ := publishDurable_publishes forward sound.tables built
        exact ⟨point ▸ tables, point ▸ forward⟩
    | finish => exact ⟨(pruneDurable_pruned ..).sound sound.tables, le_rfl⟩
  refine ⟨step_safe sound.locks action, tables.1, fun token tx found => ?_,
    fun token tx found live => ?_⟩
  · cases effect.origin found with
    | inl new => exact new.2.1.le.trans tables.2
    | inr old =>
        obtain ⟨before, was, same, _⟩ := old
        exact same.le.trans ((sound.bounded token before was).trans tables.2)
  · cases effect.origin found with
    | inl new =>
        rw [new.2.1, new.2.2]
        exact settled_now sound.tables
    | inr old =>
        obtain ⟨before, was, same, _, _, running⟩ := old
        rw [same]
        by_cases above : ∀ csn schemas tables, action = .publish csn schemas tables →
            before.snapshot < csn
        · exact (effect.keeps sound was found (running live) above).2
        · -- rows published at the snapshot's own commit point
          push Not at above
          obtain ⟨csn, schemas, published, rfl, reached⟩ := above
          have bounded := sound.bounded token before was
          generalize (step world (.publish csn schemas published)).state = next at effect tables found
          cases effect with
          | quiet durable continues =>
              rw [durable]
              exact sound.settled token before was (running live)
          | publish forward built =>
              obtain ⟨point, _, _⟩ := publishDurable_publishes forward sound.tables built
              have here : before.snapshot = csn := by omega
              rw [here, ← point]
              exact settled_now tables.1

/-- A version catalog as runs leave it behind. -/
def Durable.Sound (durable : Durable) : Prop :=
  TablesSound durable.csn durable.nextRow durable.tables

/-- The catalog of an empty directory. -/
def emptyDurable : Durable := ⟨1, 0, 0, .empty⟩

theorem emptyDurable_sound : emptyDurable.Sound := fun _ _ found => by cases found

theorem opened_sound {durable : Durable} (sound : durable.Sound) :
    SnapshotSound (World.opened durable).state where
  locks := opened_safe durable
  tables := sound
  bounded _ _ found := by cases found
  settled _ _ found := by cases found

theorem steps_sound {world : World} (sound : SnapshotSound world.state) (actions : List Action) :
    SnapshotSound (steps world actions).state := by
  induction actions generalizing world with
  | nil => exact sound
  | cons action rest ih => exact ih (step_sound sound action)

/-! ### Serializable reads -/

theorem validate_ok {state : State} {token : Token} {writes : Bool} {tx : Transaction}
    (found : state.transactions.get token = some tx)
    (valid : validate state token writes = .ok ()) :
    tx.aborted = none ∧
      (∀ key, tx.held.get key = some true → validateKey state.durable tx key = .ok ()) ∧
      (writes = true → tx.serializable = true →
        ∀ id ∈ tx.reads, validateRead state.durable tx id = .ok ()) := by
  have running := validate_running valid found
  simp only [validate, transaction_ok.mpr found, bind_eq_ok, Except.ok.injEq, exists_eq_left',
    running] at valid
  obtain ⟨⟨⟩, keys, reads⟩ := valid
  refine ⟨running, fun key held => ?_, ?_⟩
  · exact forM_eq_ok.mp keys (key, true) (List.mem_filter.mpr ⟨SortedMap.get_eq_some.mp held, rfl⟩)
  · intro writing level id member
    rw [if_pos ⟨writing, level⟩, forM_eq_ok] at reads
    exact reads id member

/-- The rows a snapshot sees under their identities. -/
theorem visible_values (history : History) (point : Nat) :
    ((visible history point).map fun entry => (entry.1, entry.2.row)).Perm
      (history.rows.filterMap fun _ chain => (shownAt chain point).map (·.row)).entries := by
  refine ((visible_perm history point).map _).trans (List.Perm.of_eq ?_)
  rw [SortedMap.filterMap, SortedMap.filterMap, List.map_filterMap]
  refine List.filterMap_congr fun entry _ => ?_
  rw [shownAt]
  cases chainAt entry.2 point <;> rfl

theorem visible_values_perm {history : History} {first second : Nat}
    (same : ∀ id, (shownRow history.rows id first).map (·.row) =
      (shownRow history.rows id second).map (·.row)) :
    ((visible history first).map fun entry => (entry.1, entry.2.row)).Perm
      ((visible history second).map fun entry => (entry.1, entry.2.row)) := by
  have maps : (history.rows.filterMap fun _ chain => (shownAt chain first).map (·.row)) =
      history.rows.filterMap fun _ chain => (shownAt chain second).map (·.row) := by
    refine SortedMap.ext fun id => ?_
    have values : ∀ point, (history.rows.get id).bind (fun chain =>
        (shownAt chain point).map (·.row)) = (shownRow history.rows id point).map (·.row) := by
      intro point
      rw [shownRow]
      cases history.rows.get id <;> rfl
    rw [SortedMap.get_filterMap, SortedMap.get_filterMap, values, values, same]
  exact (visible_values history first).trans (maps ▸ (visible_values history second).symm)

/-- When a serializable transaction with a plan passes its check, the tables it read
carry, at the current commit point, the same values under the same identities as in its
snapshot. -/
theorem serializable_reads_unchanged {durable : Durable} (opened : durable.Sound)
    (actions : List Action) {token : Token} {tx : Transaction}
    (found : (steps (.opened durable) actions).state.transactions.get token = some tx)
    (level : tx.serializable = true) (planned : tx.plan ≠ [])
    (valid : validate (steps (.opened durable) actions).state token (tx.plan ≠ []) = .ok ()) :
    ∀ id ∈ tx.reads, ∃ history,
      (steps (.opened durable) actions).state.durable.tables.get id = some history ∧
      history.live = true ∧
      ((visible history tx.snapshot).map fun entry => (entry.1, entry.2.row)).Perm
        ((visible history (steps (.opened durable) actions).state.durable.csn).map
          fun entry => (entry.1, entry.2.row)) := by
  have sound := steps_sound (opened_sound opened) actions
  generalize (steps (.opened durable) actions).state = state at found valid sound ⊢
  intro id member
  obtain ⟨running, _, reads⟩ := validate_ok found valid
  have checked := reads (decide_eq_true planned) level id member
  rw [validateRead] at checked
  cases present : state.durable.tables.get id with
  | none => simp [present] at checked
  | some history =>
      have live : history.live = true ∧ history.changed ≤ tx.snapshot := by
        simpa [present, Bool.or_eq_false_iff] using checked
      refine ⟨history, rfl, live.1, visible_values_perm fun row => ?_⟩
      rw [sound.settled token tx found running id history present live.2 row,
        shownRow_now (sound.tables id history present)]

/-- A serializable transaction reads a table and deletes a row of it. -/
def deletingReader : List Action :=
  [.publish 1 [items] [(items, [itemRow 1, itemRow 2])], .begin [items] true none,
    .lock false 1 [.delete "items" [1]] ["items"]]

theorem serializable_reads_unchanged_items :
    ∃ tx history, (steps (.opened emptyDurable) deletingReader).state.transactions.get 1 = some tx ∧
      (steps (.opened emptyDurable) deletingReader).state.durable.tables.get 1 = some history ∧
      history.live = true ∧
      ((visible history tx.snapshot).map fun entry => (entry.1, entry.2.row)).Perm
        ((visible history (steps (.opened emptyDurable) deletingReader).state.durable.csn).map
          fun entry => (entry.1, entry.2.row)) := by
  have holds : ((steps (.opened emptyDurable) deletingReader).state.transactions.get 1).map
      (fun tx => (tx.serializable, tx.plan, tx.reads)) = some (true, [.delete "items" [1]], [1]) := by
    decide +kernel
  obtain ⟨tx, found, fields⟩ := Option.map_eq_some_iff.mp holds
  simp only [Prod.mk.injEq] at fields
  obtain ⟨level, planned, reads⟩ := fields
  have valid : validate (steps (.opened emptyDurable) deletingReader).state 1
      (tx.plan ≠ []) = .ok () := by
    rw [planned]
    decide +kernel
  obtain ⟨history, present, live, same⟩ := serializable_reads_unchanged emptyDurable_sound
    deletingReader found level (by rw [planned]; exact List.cons_ne_nil _ _) valid 1 (by simp [reads])
  exact ⟨tx, history, found, present, live, same⟩

end ChuSQL.Storage.Mvcc
