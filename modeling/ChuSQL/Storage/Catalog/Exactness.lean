import ChuSQL.Library.Run
import ChuSQL.Storage.Catalog.Stats

/-! Runs of catalog updates beside the live rows of the table. The counters stay
exact while no row is counted in or out between an update that discards the
multiplicities and the next recount. -/

set_option autoImplicit false

namespace ChuSQL.Storage.Catalog

open Library

/-! ### Live rows -/

/-- The values of one column. -/
def valuesOf (column : String) (live : Multiset Row) : Multiset Json :=
  live.filterMap fun row => row.get column

/-- A row as the heap reads it back: dropped columns stay hidden. -/
def visible (dropped : List String) (row : Row) : Row := row.filter fun column => column ∉ dropped

def NoneDropped (dropped : List String) (row : Row) : Prop :=
  ∀ field ∈ row.fields, field.1 ∉ dropped

instance (dropped : List String) (row : Row) : Decidable (NoneDropped dropped row) :=
  inferInstanceAs (Decidable (∀ field ∈ row.fields, field.1 ∉ dropped))

theorem visible_eq {dropped : List String} {row : Row} (none : NoneDropped dropped row) :
    visible dropped row = row := by
  have kept : row.fields.filter (fun field => decide (field.1 ∉ dropped)) = row.fields :=
    List.filter_eq_self.mpr fun field member => by simpa using none field member
  cases row
  simp only [visible, Row.filter]
  congr

theorem valuesOf_cons (column : String) (row : Row) (live : Multiset Row) :
    valuesOf column (row ::ₘ live) = (row.get column).elim 0 ({·}) + valuesOf column live := by
  unfold valuesOf
  cases found : row.get column with
  | none => simp [found]
  | some value => simp [found]

theorem get_filter (row : Row) (keep : String → Bool) (column : String) :
    (row.filter keep).get column = if keep column then row.get column else none := by
  obtain ⟨fields, sorted⟩ := row
  simp only [Row.filter, Row.get]
  clear sorted
  induction fields with
  | nil => simp
  | cons field rest ih =>
      rw [List.filter_cons, List.lookup_cons]
      by_cases kept : keep field.1 <;> by_cases same : column = field.1 <;> grind

theorem valuesOf_removed (column other : String) (live : Multiset Row) :
    valuesOf other (live.map fun row => row.filter fun name => name ≠ column) =
      if other = column then 0 else valuesOf other live := by
  unfold valuesOf
  rw [Multiset.filterMap_map]
  by_cases same : other = column
  · simp only [same, if_true, Function.comp_def, get_filter]
    induction live using Multiset.induction_on with
    | empty => rfl
    | cons row live ih => simpa using ih
  · simp [same, Function.comp_def, get_filter]

section
variable {Hist : Type} (ops : HistogramOps Hist)

/-! ### Counters against values -/

/-- Every counter that has not been capped agrees with the values. -/
def Counts (counters : Counters Hist) (values : String → Multiset Json) : Prop :=
  ∀ column, (counters.stat ops column).capped = false →
    (counters.stat ops column).distinct = distinct (values column) ∧
      ∀ value, counters.seen (column, value) = tally (values column) value

variable {ops} {counters : Counters Hist} {values : String → Multiset Json}

theorem stat_put (column other : String) (stat : ColumnStat Hist) :
    (counters.put column stat).stat ops other =
      if other = column then stat else counters.stat ops other := by
  unfold Counters.put Counters.stat
  by_cases same : other = column <;> simp [same]

theorem stat_setSeen (key : SeenKey) (count : Option Nat) (column : String) :
    (counters.setSeen key count).stat ops column = counters.stat ops column := rfl

theorem seen_put (column : String) (stat : ColumnStat Hist) :
    (counters.put column stat).seen = counters.seen := rfl

theorem seen_setSeen (key other : SeenKey) (count : Option Nat) :
    (counters.setSeen key count).seen other = if other = key then count else counters.seen other := by
  by_cases same : other = key <;> simp [Counters.setSeen, same]

theorem countValue_capped {field : SeenKey} (capped : (counters.stat ops field.1).capped = true) :
    countValue ops counters field = counters.put field.1
      { counters.stat ops field.1 with
          histogram := ops.add (counters.stat ops field.1).histogram field.2 } := by
  simp [countValue, capped]

/-- The first occurrence of a value adds one different value. -/
theorem countValue_counted {field : SeenKey} (open_ : (counters.stat ops field.1).capped = false) :
    ∃ stat : ColumnStat Hist,
      countValue ops counters field =
        (counters.setSeen field (some ((counters.seen field).getD 0 + 1))).put field.1 stat ∧
      stat.distinct =
        if (counters.seen field).getD 0 = 0 then (counters.stat ops field.1).distinct + 1
        else (counters.stat ops field.1).distinct := by
  simp only [countValue, open_, Bool.false_eq_true, if_false, Nat.add_eq_right]
  split
  · exact ⟨_, rfl, rfl⟩
  · exact ⟨_, rfl, rfl⟩

theorem countValue_counts (counts : Counts ops counters values) (field : SeenKey) :
    Counts ops (countValue ops counters field)
      (Function.update values field.1 (field.2 ::ₘ values field.1)) := by
  cases capped : (counters.stat ops field.1).capped with
  | true =>
      rw [countValue_capped capped]
      intro column uncapped
      rw [stat_put] at uncapped ⊢
      split at uncapped
      · simp [capped] at uncapped
      · next differs =>
          rw [if_neg differs, Function.update_of_ne differs, seen_put]
          exact counts column uncapped
  | false =>
      obtain ⟨stat, counted, number⟩ := countValue_counted capped
      obtain ⟨before, seen⟩ := counts field.1 capped
      rw [counted]
      intro column uncapped
      rw [stat_put, stat_setSeen] at uncapped ⊢
      rw [seen_put]
      by_cases same : column = field.1
      · subst same
        have occurs : (counters.seen field).getD 0 = (values field.1).count field.2 := by
          rw [← tally_getD, ← seen field.2]
        rw [if_pos rfl, Function.update_self, distinct_cons, number, occurs, before]
        refine ⟨rfl, fun value => ?_⟩
        rw [seen_setSeen]
        by_cases sameValue : value = field.2
        · subst sameValue
          rw [if_pos rfl, tally_cons_self]
        · rw [if_neg fun equal => sameValue (congrArg Prod.snd equal), tally_cons_of_ne sameValue,
            seen value]
      · rw [if_neg same] at uncapped ⊢
        rw [Function.update_of_ne same]
        refine ⟨(counts column uncapped).1, fun value => ?_⟩
        rw [seen_setSeen, if_neg fun equal => same (congrArg Prod.fst equal)]
        exact (counts column uncapped).2 value

theorem uncountValue_capped {field : SeenKey} (capped : (counters.stat ops field.1).capped = true) :
    uncountValue ops counters field = counters.put field.1
      { counters.stat ops field.1 with
          histogram := ops.remove (counters.stat ops field.1).histogram field.2 } := by
  simp [uncountValue, capped]

/-- The last occurrence of a value takes one different value away. -/
theorem uncountValue_counted {field : SeenKey} {count : Nat}
    (open_ : (counters.stat ops field.1).capped = false)
    (seen : counters.seen field = some (count + 1)) :
    ∃ stat : ColumnStat Hist,
      uncountValue ops counters field =
        (counters.setSeen field (if count = 0 then none else some count)).put field.1 stat ∧
      stat.distinct =
        if count = 0 then (counters.stat ops field.1).distinct - 1
        else (counters.stat ops field.1).distinct := by
  simp only [uncountValue, open_, Bool.false_eq_true, if_false, seen, Nat.add_sub_cancel]
  split
  · exact ⟨_, rfl, rfl⟩
  · exact ⟨_, rfl, rfl⟩

theorem uncountValue_counts {field : SeenKey}
    (counts : Counts ops counters (Function.update values field.1 (field.2 ::ₘ values field.1))) :
    Counts ops (uncountValue ops counters field) values := by
  cases capped : (counters.stat ops field.1).capped with
  | true =>
      rw [uncountValue_capped capped]
      intro column uncapped
      rw [stat_put] at uncapped ⊢
      split at uncapped
      · simp [capped] at uncapped
      · next differs =>
          have kept := counts column uncapped
          rw [Function.update_of_ne differs] at kept
          rw [if_neg differs, seen_put]
          exact kept
  | false =>
      obtain ⟨before, seen⟩ := counts field.1 capped
      rw [Function.update_self] at before seen
      have occurs : counters.seen field = some ((values field.1).count field.2 + 1) := by
        rw [← tally_cons_self]
        exact seen field.2
      obtain ⟨stat, counted, number⟩ := uncountValue_counted capped occurs
      rw [counted]
      intro column uncapped
      rw [stat_put, stat_setSeen] at uncapped ⊢
      rw [seen_put]
      by_cases same : column = field.1
      · subst same
        rw [if_pos rfl, number, before, distinct_cons]
        constructor
        · split <;> simp
        · intro value
          rw [seen_setSeen]
          by_cases sameValue : value = field.2
          · subst sameValue
            rw [if_pos rfl, tally]
          · rw [if_neg fun equal => sameValue (congrArg Prod.snd equal), seen value,
              tally_cons_of_ne sameValue]
      · rw [if_neg same] at uncapped ⊢
        have kept := counts column uncapped
        rw [Function.update_of_ne same] at kept
        refine ⟨kept.1, fun value => ?_⟩
        rw [seen_setSeen, if_neg fun equal => same (congrArg Prod.fst equal)]
        exact kept.2 value

/-! ### Rows -/

def fieldValues (fields : List SeenKey) (column : String) : Multiset Json :=
  (fields.filter fun field => field.1 = column).map (·.2)

theorem fieldValues_cons (field : SeenKey) (fields : List SeenKey) (column : String) :
    fieldValues (field :: fields) column =
      if column = field.1 then field.2 ::ₘ fieldValues fields column
      else fieldValues fields column := by
  unfold fieldValues
  by_cases same : column = field.1
  · subst same
    simp
  · have other : field.1 ≠ column := Ne.symm same
    simp [same, other]

/-- A row holds at most one value of a column. -/
theorem fieldValues_row (row : Row) (column : String) :
    fieldValues row.fields column = (row.get column).elim 0 ({·}) := by
  obtain ⟨fields, sorted⟩ := row
  simp only [Row.get]
  induction sorted with
  | nil => rfl
  | @cons field fields before _ ih =>
      rw [fieldValues_cons, List.lookup_cons]
      by_cases same : column = field.1
      · subst same
        have alone : fieldValues fields field.1 = 0 := by
          rw [fieldValues, List.filter_eq_nil_iff.mpr]
          · rfl
          · intro later member
            have greater : field.1 < later.1 := before later member
            simp only [decide_eq_true_eq]
            exact fun equal => absurd (equal ▸ greater) (lt_irrefl _)
        simp [alone]
      · simp [same, ih, beq_eq_false_iff_ne.mpr same]

theorem valuesOf_row (row : Row) (live : Multiset Row) :
    (fun column => valuesOf column (row ::ₘ live)) =
      fun column => fieldValues row.fields column + valuesOf column live := by
  funext column
  rw [valuesOf_cons, fieldValues_row]

theorem countFields_counts (fields : List SeenKey) (counts : Counts ops counters values) :
    Counts ops (fields.foldl (countValue ops) counters)
      (fun column => fieldValues fields column + values column) := by
  induction fields generalizing counters values with
  | nil => simpa [fieldValues] using counts
  | cons field fields ih =>
      have later := ih (countValue_counts counts field)
      refine cast (congrArg (Counts ops _) (funext fun column => ?_)) later
      rw [fieldValues_cons]
      by_cases same : column = field.1
      · subst same
        rw [Function.update_self, if_pos rfl, Multiset.add_cons, Multiset.cons_add]
      · rw [Function.update_of_ne same, if_neg same]

theorem uncountFields_counts (fields : List SeenKey)
    (counts : Counts ops counters fun column => fieldValues fields column + values column) :
    Counts ops (fields.foldl (uncountValue ops) counters) values := by
  induction fields generalizing counters with
  | nil => simpa [fieldValues] using counts
  | cons field fields ih =>
      refine ih (uncountValue_counts (cast (congrArg (Counts ops _) (funext fun column => ?_)) counts))
      rw [fieldValues_cons]
      by_cases same : column = field.1
      · subst same
        rw [Function.update_self, if_pos rfl, Multiset.cons_add]
      · rw [Function.update_of_ne same, if_neg same]

theorem countValues_counts (row : Row) {live : Multiset Row}
    (counts : Counts ops counters fun column => valuesOf column live) :
    Counts ops (countValues ops counters row) fun column => valuesOf column (row ::ₘ live) := by
  rw [valuesOf_row]
  exact countFields_counts row.fields counts

theorem uncountRows_counts {rows : List Row} {live : Multiset Row}
    (counts : Counts ops counters fun column => valuesOf column (rows + live)) :
    Counts ops (rows.foldl (uncountValues ops) counters) fun column => valuesOf column live := by
  induction rows generalizing counters with
  | nil => simpa using counts
  | cons row rows ih =>
      rw [← Multiset.cons_coe, Multiset.cons_add, valuesOf_row] at counts
      exact ih (uncountFields_counts row.fields counts)

end

/-! ### Runs -/

/-- What the application of a log record does to the catalog of its table. -/
inductive Update where
  | recordInsert (row : Row)
  | recordDelete (rows : List Row)
  | rebuildStats (rows : List Row)
  | removeColumn (column : String) (version : Option Nat)
  | markCompacted
  | setColumns (columns : List SchemaColumn) (version : Option Nat) (rows : List Row)

section
variable {Hist : Type} (ops : HistogramOps Hist) (table : String)

/-- The catalog with the live rows of the table. -/
abbrev State (Hist : Type) := Catalog Hist × Multiset Row

def State.dropped (state : State Hist) : List String := (state.1.entry table).droppedColumns

/-- One update, with what the records that cause it do to the heap. -/
def step (state : State Hist) : Update → Except IoError (State Hist)
  | .recordInsert row => do
      let (_, catalog) ← state.1.recordInsert ops table row
      .ok (catalog, visible (state.dropped table) row ::ₘ state.2)
  | .recordDelete rows => .ok (state.1.recordDelete ops table rows, state.2 - rows)
  | .rebuildStats rows => do
      let (_, catalog) ← state.1.rebuildStats ops table rows
      .ok (catalog, rows.map (visible (state.dropped table)))
  | .removeColumn column version => do
      let (_, catalog) ← state.1.removeColumnVersion table column version
      .ok (catalog, state.2.map fun row => row.filter fun name => name ≠ column)
  | .markCompacted => do
      let catalog ← state.1.markCompacted table
      .ok (catalog, state.2)
  | .setColumns columns version rows => do
      let catalog ← state.1.setColumnsVersion table columns version
      let (_, catalog) ← catalog.rebuildStats ops table rows
      .ok (catalog, rows)

/-- Deleted rows are live. -/
def DeletesLive (state : State Hist) : Update → Prop
  | .recordDelete rows => rows ≤ state.2
  | _ => True

instance (state : State Hist) (update : Update) : Decidable (DeletesLive state update) :=
  match update with
  | .recordDelete rows => inferInstanceAs (Decidable (rows ≤ state.2))
  | .recordInsert _ | .rebuildStats _ | .removeColumn _ _ | .markCompacted | .setColumns _ _ _ =>
      isTrue trivial

/-- The multiplicities cover the live rows: they were not discarded, or there is
no row. -/
def Counted (catalog : Catalog Hist) : Prop :=
  (catalog.entry table).rowCount = 0 ∨ (catalog.seen table).isSome

instance (catalog : Catalog Hist) : Decidable (Counted table catalog) :=
  inferInstanceAs (Decidable (_ ∨ _))

/-- Rows are counted in and out while the multiplicities are kept, and no row
brings a value of a dropped column. -/
def KeepsCount (state : State Hist) : Update → Prop
  | .recordInsert row => Counted table state.1 ∧ NoneDropped (state.dropped table) row
  | .recordDelete _ => Counted table state.1
  | .rebuildStats rows => ∀ row ∈ rows, NoneDropped (state.dropped table) row
  | _ => True

instance (state : State Hist) (update : Update) : Decidable (KeepsCount table state update) :=
  match update with
  | .recordInsert _ => inferInstanceAs (Decidable (_ ∧ _))
  | .recordDelete _ => inferInstanceAs (Decidable (Counted table state.1))
  | .rebuildStats rows =>
      inferInstanceAs (Decidable (∀ row ∈ rows, NoneDropped (state.dropped table) row))
  | .removeColumn _ _ | .markCompacted | .setColumns _ _ _ => isTrue trivial

/-- The row count is the number of live rows, and a distinct counter that is not
capped is the number of different live values of its column. -/
def Exact (state : State Hist) : Prop :=
  (state.1.entry table).rowCount = state.2.card ∧
    ∀ column, ((state.1.entry table).stat ops column).capped = false →
      ((state.1.entry table).stat ops column).distinct = distinct (valuesOf column state.2)

/-- Where a run begins: a table without rows, or one whose rows were just
recounted. -/
inductive Begins : State Hist → Prop
  | empty (catalog : Catalog Hist) (noRows : (catalog.entry table).rowCount = 0)
      (noStats : (catalog.entry table).stats = fun _ => none) (noCounts : catalog.seen table = none) :
      Begins (catalog, 0)
  | recounted (before : State Hist) (rows : List Row) (after : State Hist)
      (keeps : KeepsCount table before (.rebuildStats rows))
      (rebuilt : step ops table before (.rebuildStats rows) = .ok after) : Begins after

/-! ### The invariant -/

structure Tracked (state : State Hist) : Prop where
  exact_ : Exact ops table state
  counts : Counted table state.1 →
    Counts ops (state.1.counters table) fun column => valuesOf column state.2

end

section
variable {Hist : Type} {ops : HistogramOps Hist} {table : String} {catalog : Catalog Hist}
  {entry : TableSchema Hist} {live : Multiset Row}

@[simp] theorem entry_put (seen : Option (SeenKey → Option Nat)) :
    (catalog.put table entry seen).entry table = entry := by
  simp [Catalog.put, Catalog.entry]

@[simp] theorem seen_catalogPut (seen : Option (SeenKey → Option Nat)) :
    (catalog.put table entry seen).seen table = seen := by
  simp [Catalog.put]

@[simp] theorem counts_put (seen : Option (SeenKey → Option Nat)) :
    (catalog.put table entry seen).counts table = seen.getD fun _ => none := by
  simp [Catalog.put, Catalog.counts]

@[simp] theorem counters_put (seen : Option (SeenKey → Option Nat)) :
    (catalog.put table entry seen).counters table = ⟨entry.stats, seen.getD fun _ => none⟩ := by
  simp [Catalog.counters]

theorem valuesOf_zero (column : String) : valuesOf column 0 = 0 := rfl

/-- Without multiplicities nothing is claimed of them while rows are left. -/
theorem Tracked.discarded (holds : Exact ops table (catalog.put table entry none, live)) :
    Tracked ops table (catalog.put table entry none, live) := by
  refine ⟨holds, fun counted => ?_⟩
  have noRows : entry.rowCount = 0 := by simpa [Counted] using counted
  have rows : live = 0 := Multiset.card_eq_zero.mp (by simpa [noRows] using holds.1.symm)
  subst rows
  intro column uncapped
  simp only [counters_put] at uncapped ⊢
  refine ⟨by simpa [TableSchema.stat, Counters.stat] using holds.2 column (by simpa [TableSchema.stat, Counters.stat] using uncapped), fun value => ?_⟩
  rw [valuesOf_zero, tally_zero]
  rfl

/-- Counters that agree with the rows make the statistics exact. -/
theorem Tracked.counted {seen : SeenKey → Option Nat} (number : entry.rowCount = live.card)
    (counts : Counts ops ⟨entry.stats, seen⟩ fun column => valuesOf column live) :
    Tracked ops table (catalog.put table entry (some seen), live) := by
  refine ⟨⟨by simpa using number, fun column uncapped => ?_⟩, fun _ => by simpa using counts⟩
  simp only [entry_put] at uncapped ⊢
  exact (counts column uncapped).1

/-- An update that must find its table goes on from the entry there. -/
theorem describe_ok {found : TableSchema Hist} (ok : catalog.describe table = .ok found) :
    catalog.entry table = found := by
  unfold Catalog.describe at ok
  unfold Catalog.entry
  split at ok
  · cases ok
  · next present =>
      rw [present]
      exact Except.ok.inj ok

/-- New columns leave counters, row count and dropped columns alone. -/
theorem addMissingColumns_ok {row : Row} {changed : Bool} {grown : TableSchema Hist}
    (ok : addMissingColumns entry row = .ok (changed, grown)) :
    grown.rowCount = entry.rowCount ∧ grown.stats = entry.stats ∧
      grown.droppedColumns = entry.droppedColumns := by
  unfold addMissingColumns at ok
  dsimp only at ok
  split at ok
  · cases ok
    exact ⟨rfl, rfl, rfl⟩
  · obtain ⟨version, _, built⟩ := bind_eq_ok.mp ok
    cases built
    exact ⟨rfl, rfl, rfl⟩

theorem recordInsert_tracked {row : Row} {changed : Bool} {inserted : Catalog Hist}
    (tracked : Tracked ops table (catalog, live)) (counted : Counted table catalog)
    (ok : catalog.recordInsert ops table row = .ok (changed, inserted)) :
    Tracked ops table (inserted, row ::ₘ live) ∧ Counted table inserted ∧
      (inserted.entry table).droppedColumns = (catalog.entry table).droppedColumns := by
  obtain ⟨⟨grew, grown⟩, added, built⟩ := bind_eq_ok.mp ok
  obtain ⟨number, stats, dropped⟩ := addMissingColumns_ok added
  cases built
  have counts := countValues_counts row (tracked.counts counted)
  have holds := tracked.exact_.1
  refine ⟨Tracked.counted ?_ ?_, .inr (by simp), by simpa using dropped⟩
  · rw [Multiset.card_cons, ← holds, number]
  · rw [stats]
    exact counts

theorem recordDelete_tracked {rows : List Row} (tracked : Tracked ops table (catalog, live))
    (counted : Counted table catalog) (inLive : rows ≤ live) :
    Tracked ops table (catalog.recordDelete ops table rows, live - rows) := by
  obtain ⟨rest, rfl⟩ := Multiset.le_iff_exists_add.mp inLive
  have counts := uncountRows_counts (tracked.counts counted)
  have number := tracked.exact_.1
  simp only [Multiset.card_add, Multiset.coe_card] at number
  rw [add_tsub_cancel_left]
  unfold Catalog.recordDelete
  dsimp only
  split
  · next none =>
      have noRest : rest = 0 := Multiset.card_eq_zero.mp (by omega)
      subst noRest
      refine Tracked.counted (by simp; omega) fun column _ => ?_
      refine ⟨?_, fun value => (tally_zero value).symm⟩
      simp only [Counters.stat, valuesOf_zero, distinct_zero]
      cases ((rows.foldl (uncountValues ops) (catalog.counters table)).stats column) with
      | none => rfl
      | some stat => rfl
  · exact Tracked.counted (by simp; omega) counts

/-- Rows counted in one after another. -/
theorem recordInserts_tracked {rows : List Row} {changed final : Bool} {counted : Catalog Hist}
    (tracked : Tracked ops table (catalog, live)) (kept : Counted table catalog)
    (ok : catalog.recordInserts ops table changed rows = .ok (final, counted)) :
    Tracked ops table (counted, rows + live) := by
  induction rows generalizing catalog live changed with
  | nil =>
      cases ok
      simpa using tracked
  | cons row rows ih =>
      obtain ⟨⟨grown, next⟩, inserted, later⟩ := bind_eq_ok.mp ok
      obtain ⟨tracked, kept, _⟩ := recordInsert_tracked tracked kept inserted
      have counted := ih tracked kept later
      rwa [Multiset.add_cons, ← Multiset.cons_add] at counted

/-- Widening ranges counts nothing. -/
theorem widenStats_counts (fields : List SeenKey) {stats : String → Option (ColumnStat Hist)}
    (none : ∀ column, ((stats column).getD (.default ops)).distinct = 0) (column : String) :
    (((fields.foldl (Catalog.widenStat ops) stats) column).getD (.default ops)).distinct = 0 := by
  induction fields generalizing stats with
  | nil => exact none column
  | cons field fields ih =>
      refine ih fun other => ?_
      obtain ⟨name, value⟩ := field
      cases value with
      | number number =>
          by_cases same : other = name
          · subst same
            simpa [Catalog.widenStat] using none other
          · simpa [Catalog.widenStat, same] using none other
      | _ => exact none other

theorem rebuildStats_tracked {rows : List Row} {changed : Bool} {rebuilt : Catalog Hist}
    (ok : catalog.rebuildStats ops table rows = .ok (changed, rebuilt)) :
    Tracked ops table (rebuilt, (rows : Multiset Row)) := by
  have start : Tracked ops table (catalog.put table { catalog.entry table with
      rowCount := 0
      stats := (rows.flatMap (·.fields)).foldl (Catalog.widenStat ops) fun _ => none } none, 0) := by
    refine Tracked.discarded ⟨by simp, fun column _ => ?_⟩
    simp only [entry_put, TableSchema.stat]
    exact widenStats_counts _ (fun _ => rfl) column
  have counted := recordInserts_tracked start (.inl (by simp)) ok
  simpa using counted

theorem removeColumnVersion_tracked {column : String} {version : Option Nat} {had : Bool}
    {removed : Catalog Hist} (tracked : Tracked ops table (catalog, live))
    (ok : catalog.removeColumnVersion table column version = .ok (had, removed)) :
    Tracked ops table (removed, live.map fun row => row.filter fun name => name ≠ column) := by
  obtain ⟨found, present, rest⟩ := bind_eq_ok.mp ok
  obtain ⟨schemaVersion, _, built⟩ := bind_eq_ok.mp rest
  cases built
  have here := describe_ok present
  subst here
  refine Tracked.discarded ⟨by simpa using tracked.exact_.1, fun other uncapped => ?_⟩
  simp only [entry_put, TableSchema.stat] at uncapped ⊢
  rw [valuesOf_removed]
  by_cases same : other = column
  · subst same
    simp [ColumnStat.default, distinct_zero]
  · rw [Function.update_of_ne same] at uncapped ⊢
    rw [if_neg same]
    exact tracked.exact_.2 other uncapped

theorem markCompacted_tracked {marked : Catalog Hist} (tracked : Tracked ops table (catalog, live))
    (ok : catalog.markCompacted table = .ok marked) : Tracked ops table (marked, live) := by
  obtain ⟨found, present, built⟩ := bind_eq_ok.mp ok
  cases built
  have here := describe_ok present
  subst here
  refine Tracked.discarded ⟨by simpa using tracked.exact_.1, fun column uncapped => ?_⟩
  simp only [entry_put] at uncapped ⊢
  exact tracked.exact_.2 column uncapped

theorem visibleRows_eq {dropped : List String} {rows : List Row}
    (none : ∀ row ∈ rows, NoneDropped dropped row) : rows.map (visible dropped) = rows := by
  rw [List.map_congr_left fun row member => visible_eq (none row member), List.map_id']

/-- One update that keeps count keeps the invariant. -/
theorem step_tracked {state next : State Hist} {update : Update}
    (tracked : Tracked ops table state) (inLive : DeletesLive state update)
    (keeps : KeepsCount table state update) (stepped : step ops table state update = .ok next) :
    Tracked ops table next := by
  cases update with
  | recordInsert row =>
      obtain ⟨⟨changed, catalog⟩, inserted, built⟩ := bind_eq_ok.mp stepped
      cases built
      have shown : visible (state.dropped table) row = row := visible_eq keeps.2
      rw [shown]
      exact (recordInsert_tracked tracked keeps.1 inserted).1
  | recordDelete rows =>
      cases stepped
      exact recordDelete_tracked tracked keeps inLive
  | rebuildStats rows =>
      obtain ⟨⟨changed, catalog⟩, rebuilt, built⟩ := bind_eq_ok.mp stepped
      cases built
      have shown : rows.map (visible (state.dropped table)) = rows := visibleRows_eq keeps
      rw [shown]
      exact rebuildStats_tracked rebuilt
  | removeColumn column version =>
      obtain ⟨⟨had, catalog⟩, removed, built⟩ := bind_eq_ok.mp stepped
      cases built
      exact removeColumnVersion_tracked tracked removed
  | markCompacted =>
      obtain ⟨catalog, marked, built⟩ := bind_eq_ok.mp stepped
      cases built
      exact markCompacted_tracked tracked marked
  | setColumns columns version rows =>
      obtain ⟨catalog, _, rest⟩ := bind_eq_ok.mp stepped
      obtain ⟨⟨changed, rebuiltCatalog⟩, rebuilt, built⟩ := bind_eq_ok.mp rest
      cases built
      exact rebuildStats_tracked rebuilt

theorem begins_tracked {state : State Hist} (begins : Begins ops table state) :
    Tracked ops table state := by
  cases begins with
  | empty catalog noRows noStats noCounts =>
      have zero : ∀ column, (catalog.entry table).stat ops column = .default ops := by
        intro column
        simp [TableSchema.stat, noStats]
      refine ⟨⟨by simpa using noRows, fun column _ => by rw [zero column]; rfl⟩, fun _ column _ => ?_⟩
      constructor
      · exact congrArg ColumnStat.distinct (zero column)
      · intro value
        simp [Catalog.counters, Catalog.counts, noCounts, valuesOf_zero, tally_zero]
  | recounted before rows _ keeps rebuilt =>
      obtain ⟨⟨changed, catalog⟩, counted, built⟩ := bind_eq_ok.mp rebuilt
      cases built
      have shown : rows.map (visible (before.dropped table)) = rows := visibleRows_eq keeps
      rw [shown]
      exact rebuildStats_tracked counted

theorem run_tracked {updates : List Update} {state final : State Hist}
    (tracked : Tracked ops table state) (inLive : Meets (step ops table) DeletesLive state updates)
    (keeps : Meets (step ops table) (KeepsCount table) state updates)
    (ran : run (step ops table) state updates = .ok final) : Tracked ops table final := by
  induction updates generalizing state with
  | nil =>
      cases ran
      exact tracked
  | cons update rest ih =>
      obtain ⟨next, stepped, later⟩ := bind_eq_ok.mp ran
      obtain ⟨firstLive, laterLive⟩ := inLive
      obtain ⟨firstKeeps, laterKeeps⟩ := keeps
      rw [stepped] at laterLive laterKeeps
      exact ih (step_tracked tracked firstLive firstKeeps stepped) laterLive laterKeeps later

/-- Runs that count rows in and out only while the multiplicities are kept leave
exact statistics, in every state they pass. -/
theorem statistics_exact {updates : List Update} {start final : State Hist}
    (begins : Begins ops table start) (inLive : Meets (step ops table) DeletesLive start updates)
    (keeps : Meets (step ops table) (KeepsCount table) start updates)
    (ran : run (step ops table) start updates = .ok final) : Exact ops table final :=
  (run_tracked (begins_tracked begins) inLive keeps ran).exact_

end

/-! ### Two runs -/

def noHistogram : HistogramOps Unit := ⟨(), fun _ _ => (), fun _ _ => (), fun _ _ => ()⟩

def noTables : Catalog Unit := ⟨fun _ => none, fun _ => none⟩

def cityRow (city : String) : Row := ⟨[("city", .string city)], by simp⟩

/-- A recount after the column is gone, then rows counted in and out. -/
def recountedUpdates : List Update :=
  [.recordInsert (cityRow "Oslo"), .recordInsert (cityRow "Oslo"), .removeColumn "zip" (some 2),
    .rebuildStats [cityRow "Oslo", cityRow "Bern"], .recordInsert (cityRow "Bern"),
    .recordDelete [cityRow "Oslo"]]

theorem statistics_exact_recounted :
    ∃ final, run (step noHistogram "people") (noTables, 0) recountedUpdates = .ok final ∧
      Exact noHistogram "people" final :=
  ⟨_, rfl, @statistics_exact _ _ _ recountedUpdates _ _ (.empty noTables rfl rfl rfl)
    (by decide +kernel) (by decide +kernel) rfl⟩

/-- The mark of a compaction discards the multiplicities: the next row with a
value that is already there counts as a new value. -/
theorem statistics_drift :
    Begins noHistogram "people" (noTables, 0) ∧
      ∃ final, run (step noHistogram "people") (noTables, 0)
          [.recordInsert (cityRow "Oslo"), .markCompacted, .recordInsert (cityRow "Oslo")] = .ok final ∧
        ((final.1.entry "people").stat noHistogram "city").distinct = 2 ∧
        distinct (valuesOf "city" final.2) = 1 ∧ ¬ Exact noHistogram "people" final := by
  refine ⟨.empty noTables rfl rfl rfl, _, rfl, rfl, by decide +kernel, fun holds => ?_⟩
  exact absurd (holds.2 "city" (by decide +kernel)) (by decide +kernel)

end ChuSQL.Storage.Catalog
