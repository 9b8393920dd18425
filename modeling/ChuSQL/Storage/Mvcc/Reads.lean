import ChuSQL.Storage.Mvcc.Run

/-! Snapshot reads. A live transaction reads what was visible when it began, in the same
order, whatever others have committed since. -/

set_option autoImplicit false

namespace ChuSQL.Storage.Mvcc

open Library

/-- Every commit of a run is above the commit point it finds. -/
def Ascending : World → List Action → Prop
  | _, [] => True
  | world, action :: rest =>
      (match action with
        | .publish csn _ _ => world.state.durable.csn < csn
        | _ => True) ∧ Ascending (step world action) rest

instance Ascending.decidable : (world : World) → (actions : List Action) →
    Decidable (Ascending world actions)
  | _, [] => inferInstanceAs (Decidable True)
  | world, action :: rest =>
      have := Ascending.decidable (step world action) rest
      match action with
      | .publish csn _ _ =>
          inferInstanceAs (Decidable (world.state.durable.csn < csn ∧ Ascending _ rest))
      | .begin .. | .lock .. | .resume .. | .finish _ | .failAll =>
          inferInstanceAs (Decidable (True ∧ Ascending _ rest))

/-- A transaction at the end of a run was there at its start, with the same snapshot. -/
theorem steps_origin {world : World} (actions : List Action) {token : Token} {tx : Transaction}
    (known : token ≤ world.state.nextTransaction)
    (found : (steps world actions).state.transactions.get token = some tx) :
    ∃ old, world.state.transactions.get token = some old ∧ tx.snapshot = old.snapshot ∧
      tx.schemas = old.schemas ∧ (tx.aborted = none → old.aborted = none) := by
  induction actions generalizing world with
  | nil => exact ⟨tx, found, rfl, rfl, id⟩
  | cons action rest ih =>
      have effect := step_effect world action
      obtain ⟨middle, foundMiddle, snapshot, schemas, live⟩ := ih (known.trans effect.counted) found
      cases effect.origin foundMiddle with
      | inl new => exact absurd (new.1 ▸ known) (Nat.not_succ_le_self _)
      | inr old =>
          obtain ⟨old, foundOld, snapshotOld, schemasOld, _, liveOld⟩ := old
          exact ⟨old, foundOld, snapshot.trans snapshotOld, schemas.trans schemasOld,
            fun running => liveOld (live running)⟩

/-- A live transaction still sees every row as it did at the start of the run. -/
theorem steps_shown {world : World} (sound : SnapshotSound world.state) {actions : List Action}
    (ascending : Ascending world actions) {token : Token} {tx : Transaction}
    (found : world.state.transactions.get token = some tx)
    (live : (steps world actions).state.Live token) (table id : Nat) :
    (steps world actions).state.durable.shown table id tx.snapshot =
      world.state.durable.shown table id tx.snapshot := by
  induction actions generalizing world tx with
  | nil => rfl
  | cons action rest ih =>
      have effect := step_effect world action
      obtain ⟨above, ascending⟩ := ascending
      have known := sound.locks.counted token tx found
      obtain ⟨final, foundFinal, running⟩ := live
      obtain ⟨middle, foundMiddle, _, _, runningMiddle⟩ :=
        steps_origin rest (known.trans effect.counted) foundFinal
      have same : middle.snapshot = tx.snapshot ∧ tx.aborted = none := by
        cases effect.origin foundMiddle with
        | inl new => exact absurd (new.1 ▸ known) (Nat.not_succ_le_self _)
        | inr old =>
            obtain ⟨old, foundOld, snapshot, _, _, runningOld⟩ := old
            rw [found] at foundOld
            cases foundOld
            exact ⟨snapshot, runningOld (runningMiddle running)⟩
      have later := ih (step_sound sound action) ascending foundMiddle ⟨final, foundFinal, running⟩
      rw [same.1] at later
      refine later.trans ((effect.keeps sound found foundMiddle same.2 ?_).1 table id)
      rintro csn schemas tables rfl
      exact (sound.bounded token tx found).trans_lt above

/-! ### Rows in their order -/

/-- Rows of a table at a commit point; a table that is gone has none. -/
def Durable.rowsAt (durable : Durable) (table point : Nat) : List Row :=
  match durable.tables.get table with
  | none => []
  | some history => visibleRows history point

def Durable.versions (durable : Durable) (table : Nat) : Rows :=
  match durable.tables.get table with
  | none => .empty
  | some history => history.rows

theorem inOrder_shown (first second : Nat × Version) :
    inOrder first second ↔ inOrder (first.1, first.2.shown) (second.1, second.2.shown) := Iff.rfl

/-- The visible rows are those shown, sorted by their place. -/
theorem visibleRows_shown (history : History) (point : Nat) :
    visibleRows history point =
      ((history.rows.filterMap fun _ chain => shownAt chain point).entries.insertionSort inOrder).map
        (·.2.row) := by
  have shown : (history.rows.filterMap fun _ chain => shownAt chain point).entries =
      (history.rows.filterMap fun _ chain => chainAt chain point).entries.map
        fun entry => (entry.1, entry.2.shown) := by
    rw [SortedMap.filterMap, SortedMap.filterMap, List.map_filterMap]
    refine List.filterMap_congr fun entry _ => ?_
    rw [shownAt]
    cases chainAt entry.2 point <;> rfl
  rw [visibleRows, visible, shown, ← List.map_insertionSort inOrder inOrder _ _
    (fun first _ second _ => inOrder_shown first second), List.map_map]
  rfl

/-- Tables in which the same versions are shown have the same rows in the same order. -/
theorem rowsAt_congr {first second : Durable} {table point : Nat}
    (same : ∀ id, first.shown table id point = second.shown table id point) :
    first.rowsAt table point = second.rowsAt table point := by
  -- both are the sorted rows of the map of what is shown
  have shownMap : ∀ durable : Durable, durable.rowsAt table point =
      (((durable.versions table).filterMap fun _ chain =>
        shownAt chain point).entries.insertionSort inOrder).map (·.2.row) := by
    intro durable
    rw [Durable.rowsAt, Durable.versions]
    cases durable.tables.get table with
    | none => rfl
    | some history => exact visibleRows_shown history point
  have maps : ((first.versions table).filterMap fun _ chain => shownAt chain point) =
      (second.versions table).filterMap fun _ chain => shownAt chain point := by
    refine SortedMap.ext fun id => ?_
    have shown : ∀ durable : Durable, ((durable.versions table).filterMap fun _ chain =>
        shownAt chain point).get id = durable.shown table id point := by
      intro durable
      rw [SortedMap.get_filterMap, Durable.shown, Durable.versions]
      cases durable.tables.get table <;> rfl
    rw [shown, shown, same]
  rw [shownMap, shownMap, maps]

theorem readTable_ok {state : State} {tx : Transaction} {columns : String → Option (List String)}
    {name : String} {result : TableSchemaWire × String × List Row}
    (read : readTable state tx columns name = .ok result) :
    ∃ schema, tx.schemaOf name = some schema ∧ result = (schema, name,
      (state.durable.rowsAt schema.objectId tx.snapshot).map fun row => projectRow row (columns name)) := by
  rw [readTable] at read
  cases recorded : tx.schemaOf name with
  | none => simp [recorded] at read
  | some schema =>
      cases found : state.durable.tables.get schema.objectId with
      | none => simp [recorded, found] at read
      | some history =>
          simp only [recorded, found, Except.ok.injEq] at read
          refine ⟨schema, rfl, ?_⟩
          rw [← read, Durable.rowsAt, found]

theorem readTable_succeeds {state : State} {tx : Transaction} {name : String}
    {schema : TableSchemaWire} (columns : String → Option (List String)) (recorded : tx.schemaOf name = some schema)
    (filled : state.durable.rowsAt schema.objectId tx.snapshot ≠ []) :
    ∃ result, readTable state tx columns name = .ok result := by
  rw [readTable, recorded]
  cases found : state.durable.tables.get schema.objectId with
  | none =>
      rw [Durable.rowsAt, found] at filled
      exact absurd rfl filled
  | some history =>
      dsimp only
      rw [found]
      exact ⟨_, rfl⟩

/-- Rows that a transaction found under a name when it began. -/
def beganRows (durable : Durable) (schemas : List TableSchemaWire) (name : String) : List Row :=
  match schemas.find? fun schema => schema.table = name with
  | none => []
  | some schema => durable.rowsAt schema.objectId durable.csn

/-- One commit before a transaction begins, in the catalog of an empty directory. -/
def twoItems : List Action := [.publish 1 [items] [(items, [itemRow 1, itemRow 2])]]

end ChuSQL.Storage.Mvcc
