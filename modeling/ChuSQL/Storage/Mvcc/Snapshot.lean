import ChuSQL.Storage.Mvcc.Building

/-! What a commit leaves to the snapshots before it: every row they see, and a change
mark above them on every table whose latest values are no longer theirs. -/

set_option autoImplicit false

namespace ChuSQL.Storage.Mvcc

open Library

/-- The version of a row of a table that a snapshot sees. -/
def Durable.shown (durable : Durable) (table id point : Nat) : Option Version :=
  (durable.tables.get table).bind fun history => shownRow history.rows id point

def TablesSound (csn nextRow : Nat) (tables : SortedMap Nat History) : Prop :=
  ∀ table history, tables.get table = some history → RowsSound csn nextRow history.rows

/-- A table not marked as changed after a point still has the values of that point. -/
def Settled (tables : SortedMap Nat History) (point : Nat) : Prop :=
  ∀ table history, tables.get table = some history → history.changed ≤ point →
    ∀ id, (shownRow history.rows id point).map (·.row) = latestRow history.rows id

theorem RowsSound.mono {csn nextRow later more : Nat} {rows : Rows} (sound : RowsSound csn nextRow rows)
    (forward : csn ≤ later) (counted : nextRow ≤ more) : RowsSound later more rows := by
  intro id chain found
  obtain ⟨below, sound⟩ := sound id chain found
  exact ⟨below.trans counted, sound.mono forward⟩

theorem TablesSound.mono {csn nextRow later more : Nat} {tables : SortedMap Nat History}
    (sound : TablesSound csn nextRow tables) (forward : csn ≤ later) (counted : nextRow ≤ more) :
    TablesSound later more tables :=
  fun table history found => (sound table history found).mono forward counted

/-- At the commit point itself the values are the latest ones. -/
theorem shownRow_now {csn nextRow id : Nat} {rows : Rows} (sound : RowsSound csn nextRow rows) :
    (shownRow rows id csn).map (·.row) = latestRow rows id := by
  rw [shownRow, latestRow]
  cases found : rows.get id with
  | none => rfl
  | some chain =>
      rw [Option.bind_some, Option.bind_some, shownAt, (sound id chain found).2.chainAt_now,
        Option.map_map]
      rfl

theorem settled_now {csn nextRow : Nat} {tables : SortedMap Nat History}
    (sound : TablesSound csn nextRow tables) : Settled tables csn :=
  fun table history found _ _ => shownRow_now (sound table history found)

/-! ### One table -/

theorem publishTable_ok {csn : Nat} {next final : Durable} {schema : TableSchemaWire}
    {rows : List Row} (result : publishTable csn next (schema, rows) = .ok final) :
    ∃ history : History, history = (next.tables.get schema.objectId).getD ⟨schema, csn, true, .empty⟩ ∧
      ∃ published ended,
        publishRows csn (visible history next.csn) ⟨history.rows, next.nextRow,
          .start (visible history next.csn), decide (history.schema.columns ≠ schema.columns ∨
            history.schema.schemaVersion ≠ schema.schemaVersion)⟩ rows 0 = .ok published ∧
        endUnused csn published (visible history next.csn) = .ok ended ∧
        final = { next with
          nextRow := ended.nextRow
          tables := next.tables.insert schema.objectId
            ⟨schema, if ended.changed then csn else history.changed, true, ended.rows⟩ } := by
  simp only [publishTable, bind_eq_ok, pure_eq_ok] at result
  obtain ⟨published, first, ended, second, same⟩ := result
  exact ⟨_, rfl, published, ended, first, second, same.symm⟩

theorem publishRows_counted {csn : Nat} {old : List (Nat × Version)} {rows : List Row}
    {publishing next : Publishing} {position : Nat}
    (result : publishRows csn old publishing rows position = .ok next) :
    publishing.nextRow ≤ next.nextRow := by
  induction rows generalizing publishing position with
  | nil =>
      cases result
      exact le_rfl
  | cons row rest ih =>
      obtain ⟨middle, first, later⟩ := bind_eq_ok.mp result
      refine le_trans ?_ (ih later)
      rw [publishRow] at first
      split at first
      rename_i prior matcher found
      cases prior with
      | none =>
          dsimp only at first
          split at first
          · cases first
          · cases first
            exact Nat.le_succ _
      | some entry =>
          dsimp only at first
          split at first
          · cases first
            exact le_rfl
          · split at first
            · cases first
            · split at first
              · cases first
              · cases first
              · cases first
                exact le_rfl

theorem endUnused_counted {csn : Nat} {todo : List (Nat × Version)} {publishing next : Publishing}
    (result : endUnused csn publishing todo = .ok next) : next.nextRow = publishing.nextRow := by
  induction todo generalizing publishing with
  | nil =>
      cases result
      rfl
  | cons entry rest ih =>
      obtain ⟨id, previous⟩ := entry
      rw [endUnused] at result
      split at result
      · exact ih result
      · split at result
        · cases result
        · split at result
          · cases result
          · cases result
          · have same := ih result
            exact same

/-- What publishing keeps for the points before it, from `before` to `after`. -/
structure Publishes (csn seenAt : Nat) (before after : Durable) : Prop where
  sound : TablesSound csn after.nextRow after.tables
  point : after.csn = before.csn
  counted : before.nextRow ≤ after.nextRow
  shown : ∀ table id point, point ≤ seenAt → point < csn →
    after.shown table id point = before.shown table id point
  settled : ∀ point, point ≤ seenAt → point < csn → Settled before.tables point →
    Settled after.tables point

theorem publishTable_publishes {csn : Nat} {next final : Durable} {schema : TableSchemaWire}
    {rows : List Row} (sound : TablesSound csn next.nextRow next.tables)
    (settled : Settled next.tables next.csn)
    (result : publishTable csn next (schema, rows) = .ok final) :
    Publishes csn next.csn next final := by
  obtain ⟨history, isHistory, published, ended, first, second, rfl⟩ := publishTable_ok result
  have startSound : RowsSound csn next.nextRow history.rows := by
    cases found : next.tables.get schema.objectId with
    | none =>
        rw [isHistory, found]
        intro id chain absent
        cases absent
    | some kept =>
        rw [isHistory, found]
        exact sound schema.objectId kept found
  generalize isOld : visible history next.csn = old at first second
  have seen : ∀ entry ∈ old, (history.rows.get entry.1).bind (chainAt · next.csn) = some entry.2 := by
    intro entry member
    rw [← isOld] at member
    exact mem_visible.mp member
  have distinct : (old.map (·.1)).Nodup := isOld ▸ visible_ids history next.csn
  have started : ∀ altered, Building csn next.csn history.rows old []
      ⟨history.rows, next.nextRow, .start old, altered⟩ := fun altered =>
    ⟨startSound, fun _ _ _ => rfl, fun _ _ _ _ => rfl, fun _ _ _ => rfl⟩
  obtain ⟨building, _⟩ := (started _).publishRows (Matcher.start_sound old) distinct seen first
  obtain ⟨touched, building⟩ := building.endUnused seen (List.Subset.refl _) distinct
    (fun _ _ free => free) second
  have counted : next.nextRow ≤ ended.nextRow :=
    (publishRows_counted first).trans (endUnused_counted second).ge
  have before : ∀ id point, (next.shown schema.objectId id point) = shownRow history.rows id point := by
    intro id point
    rw [Durable.shown, isHistory]
    cases next.tables.get schema.objectId <;> rfl
  refine ⟨?_, rfl, counted, ?_, ?_⟩
  · intro table kept found
    rw [SortedMap.get_insert] at found
    split at found
    · cases found
      exact building.sound
    · exact (sound table kept found).mono le_rfl counted
  · intro table id point within earlier
    by_cases same : table = schema.objectId
    · rw [same, before, Durable.shown, SortedMap.get_insert_self]
      exact building.stable id point within earlier
    · rw [Durable.shown, Durable.shown, SortedMap.get_insert, if_neg same]
  · intro point within earlier settledThen table kept found unmarked id
    rw [SortedMap.get_insert] at found
    split at found
    · cases found
      cases marked : ended.changed with
      | true =>
          rw [marked, if_pos rfl] at unmarked
          exact absurd earlier (Nat.not_lt.mpr unmarked)
      | false =>
          rw [marked, if_neg Bool.false_ne_true] at unmarked
          dsimp only
          -- a table that was not there before carries the mark of this commit
          cases known : next.tables.get schema.objectId with
          | none =>
              rw [isHistory, known] at unmarked
              exact absurd earlier (Nat.not_lt.mpr unmarked)
          | some kept =>
              rw [known, Option.getD_some] at isHistory
              subst isHistory
              rw [building.stable id point within earlier, settledThen schema.objectId history known
                unmarked id]
              refine (building.unchanged marked (fun entry member => ?_) id).symm
              rw [← settled schema.objectId history known (unmarked.trans within) entry.1, shownRow]
              obtain ⟨chain, begun, at_⟩ := Option.bind_eq_some_iff.mp (seen entry member)
              rw [begun, Option.bind_some, shownAt, at_]
              rfl
    · exact settledThen table kept found unmarked id

theorem Publishes.refl {csn : Nat} {durable : Durable}
    (sound : TablesSound csn durable.nextRow durable.tables) :
    Publishes csn durable.csn durable durable :=
  ⟨sound, rfl, le_rfl, fun _ _ _ _ _ => rfl, fun _ _ _ settled => settled⟩

theorem Publishes.trans {csn : Nat} {first second third : Durable}
    (earlier : Publishes csn first.csn first second) (later : Publishes csn second.csn second third) :
    Publishes csn first.csn first third where
  sound := later.sound
  point := later.point.trans earlier.point
  counted := earlier.counted.trans later.counted
  shown table id point within before :=
    (later.shown table id point (earlier.point ▸ within) before).trans
      (earlier.shown table id point within before)
  settled point within before settled :=
    later.settled point (earlier.point ▸ within) before (earlier.settled point within before settled)

theorem publishTables_publishes {csn : Nat} {next final : Durable}
    {tables : List (TableSchemaWire × List Row)} (forward : next.csn ≤ csn)
    (sound : TablesSound csn next.nextRow next.tables) (settled : Settled next.tables next.csn)
    (result : publishTables csn next tables = .ok final) : Publishes csn next.csn next final := by
  induction tables generalizing next with
  | nil =>
      cases result
      exact .refl sound
  | cons table rest ih =>
      obtain ⟨middle, first, later⟩ := bind_eq_ok.mp result
      have step := publishTable_publishes sound settled first
      have settledMiddle : Settled middle.tables middle.csn := by
        rw [step.point]
        cases forward.lt_or_eq with
        | inl earlier => exact step.settled next.csn le_rfl earlier settled
        | inr same =>
            rw [same]
            exact settled_now step.sound
      exact step.trans (ih (step.point ▸ forward) step.sound settledMiddle later)

/-! ### Retired tables and dropped versions -/

theorem retireTables_publishes {csn : Nat} {next : Durable} (current : List Nat)
    (sound : TablesSound csn next.nextRow next.tables) :
    Publishes csn next.csn next { next with tables := retireTables csn current next.tables } := by
  have retired : ∀ table history, (retireTables csn current next.tables).get table = some history →
      ∃ kept, next.tables.get table = some kept ∧
        (history = kept ∨ history = kept.retire csn) := by
    intro table history found
    rw [retireTables, SortedMap.get_mapValues, Option.map_eq_some_iff] at found
    obtain ⟨kept, known, same⟩ := found
    refine ⟨kept, known, ?_⟩
    split at same
    · exact .inr same.symm
    · exact .inl same.symm
  have shownSame : ∀ table kept id point, next.tables.get table = some kept → point < csn →
      shownRow (kept.retire csn).rows id point = shownRow kept.rows id point := by
    intro table kept id point known before
    rw [History.retire, shownRow, shownRow, SortedMap.get_mapValues]
    cases found : kept.rows.get id with
    | none => rfl
    | some chain => exact shownAt_endOpen (sound table kept known id chain found).2 before
  refine ⟨?_, rfl, le_rfl, ?_, ?_⟩
  · intro table history found id chain at_
    obtain ⟨kept, known, outcome⟩ := retired table history found
    cases outcome with
    | inl same => exact sound table kept known id chain (same ▸ at_)
    | inr same =>
        rw [same, History.retire, SortedMap.get_mapValues, Option.map_eq_some_iff] at at_
        obtain ⟨before, at_, rfl⟩ := at_
        obtain ⟨counted, chainSound⟩ := sound table kept known id before at_
        exact ⟨counted, chainSound.endOpen le_rfl⟩
  · intro table id point _ before
    rw [Durable.shown, Durable.shown, retireTables, SortedMap.get_mapValues]
    cases known : next.tables.get table with
    | none => rfl
    | some kept =>
        rw [Option.map_some, Option.bind_some, Option.bind_some]
        split
        · exact shownSame table kept id point known before
        · rfl
  · intro point _ before settled table history found unmarked id
    obtain ⟨kept, known, outcome⟩ := retired table history found
    cases outcome with
    | inl same =>
        subst same
        exact settled table history known unmarked id
    | inr same =>
        rw [same] at unmarked
        exact absurd before (Nat.not_lt.mpr unmarked)

theorem get_pruneRows (oldest : Nat) (rows : Rows) (id : Nat) :
    (pruneRows oldest rows).get id = ((rows.get id).map fun chain =>
      chain.filter fun version => version.end_.all (oldest < ·)).filter (· ≠ []) := by
  rw [pruneRows, SortedMap.get_retain, SortedMap.get_mapValues]

theorem shownRow_prune {oldest point : Nat} (old : oldest ≤ point) (rows : Rows) (id : Nat) :
    shownRow (pruneRows oldest rows) id point = shownRow rows id point := by
  rw [shownRow, shownRow, get_pruneRows]
  cases rows.get id with
  | none => rfl
  | some chain =>
      have same : shownAt (chain.filter fun version => version.end_.all (oldest < ·)) point =
          shownAt chain point := by
        rw [shownAt, shownAt, chainAt_prune old]
      rw [Option.map_some, Option.bind_some, ← same]
      by_cases empty : chain.filter (fun version => version.end_.all (oldest < ·)) = []
      · rw [empty, Option.filter_some]
        rfl
      · rw [Option.filter_some, if_pos (by simpa using empty)]
        rfl

theorem latest_prune {csn oldest : Nat} {chain : List Version} (sound : ChainSound csn chain) :
    latest (chain.filter fun version => version.end_.all (oldest < ·)) = latest chain := by
  obtain ⟨init, last, rfl⟩ := exists_concat sound.filled
  rw [List.filter_append, latest_concat]
  cases stopped : last.end_ with
  | none =>
      rw [List.filter_singleton, stopped]
      simp [stopped]
  | some stop =>
      rw [if_neg (by simp)]
      -- every version of the chain has ended
      rw [latest]
      refine Option.filter_eq_none_iff.mpr fun version found => ?_
      have member := List.mem_of_getLast? found
      rw [← List.filter_append] at member
      cases List.mem_append.mp (List.mem_of_mem_filter member) with
      | inl inside =>
          obtain ⟨other, at_, _⟩ := sound.concat.1 version inside
          simp [at_]
      | inr same =>
          rw [List.mem_singleton.mp same]
          simp [stopped]

theorem latestRow_prune {csn nextRow oldest : Nat} {rows : Rows} (sound : RowsSound csn nextRow rows)
    (id : Nat) : latestRow (pruneRows oldest rows) id = latestRow rows id := by
  rw [latestRow, latestRow, get_pruneRows]
  cases found : rows.get id with
  | none => rfl
  | some chain =>
      rw [Option.map_some, Option.bind_some, ← latest_prune (sound id chain found).2]
      by_cases empty : chain.filter (fun version => version.end_.all (oldest < ·)) = []
      · rw [empty, Option.filter_some]
        simp [latest]
      · rw [Option.filter_some, if_pos (by simpa using empty)]
        rfl

theorem RowsSound.prune {csn nextRow oldest : Nat} {rows : Rows} (sound : RowsSound csn nextRow rows) :
    RowsSound csn nextRow (pruneRows oldest rows) := by
  intro id chain found
  rw [get_pruneRows, Option.filter_eq_some_iff, Option.map_eq_some_iff] at found
  obtain ⟨⟨before, at_, rfl⟩, left⟩ := found
  obtain ⟨counted, chainSound⟩ := sound id before at_
  exact ⟨counted, chainSound.filter (by simpa using left)⟩

/-- Dropping old versions and emptied tables is invisible from the oldest snapshot on. -/
structure Pruned (oldest : Nat) (before after : SortedMap Nat History) : Prop where
  kept : ∀ table history, after.get table = some history →
    ∃ old, before.get table = some old ∧ history = old.prune oldest
  dropped : ∀ table history, before.get table = some history → after.get table = none →
    (history.prune oldest).rows.entries = []

theorem pruned_retain (oldest : Nat) (tables : SortedMap Nat History) (keep : Nat → History → Bool)
    (needed : ∀ table history, keep table history = false → history.rows.entries = []) :
    Pruned oldest tables ((tables.mapValues fun _ history => history.prune oldest).retain keep) where
  kept table history found := by
    rw [SortedMap.get_retain, SortedMap.get_mapValues, Option.filter_eq_some_iff,
      Option.map_eq_some_iff] at found
    obtain ⟨⟨old, known, same⟩, _⟩ := found
    exact ⟨old, known, same.symm⟩
  dropped table history found gone := by
    rw [SortedMap.get_retain, SortedMap.get_mapValues, found, Option.map_some, Option.filter_some] at gone
    refine needed table _ ?_
    by_contra kept
    rw [if_pos (Bool.eq_true_of_not_eq_false kept)] at gone
    cases gone

theorem shownRow_empty {rows : Rows} (empty : rows.entries = []) (id point : Nat) :
    shownRow rows id point = none := by
  rw [shownRow, SortedMap.get, empty]
  rfl

theorem Pruned.shown {oldest point : Nat} {before after : SortedMap Nat History}
    (pruned : Pruned oldest before after) (old : oldest ≤ point) (table id : Nat) :
    ((after.get table).bind fun history => shownRow history.rows id point) =
      (before.get table).bind fun history => shownRow history.rows id point := by
  cases found : after.get table with
  | some history =>
      obtain ⟨kept, known, rfl⟩ := pruned.kept table history found
      rw [known]
      exact shownRow_prune old kept.rows id
  | none =>
      cases known : before.get table with
      | none => rfl
      | some history =>
          have empty := pruned.dropped table history known found
          rw [Option.bind_some, ← shownRow_prune old history.rows id]
          exact (shownRow_empty empty id point).symm

theorem Pruned.sound {csn nextRow oldest : Nat} {before after : SortedMap Nat History}
    (pruned : Pruned oldest before after) (sound : TablesSound csn nextRow before) :
    TablesSound csn nextRow after := by
  intro table history found
  obtain ⟨kept, known, rfl⟩ := pruned.kept table history found
  exact (sound table kept known).prune

theorem Pruned.settled {csn nextRow oldest point : Nat} {before after : SortedMap Nat History}
    (pruned : Pruned oldest before after) (sound : TablesSound csn nextRow before)
    (old : oldest ≤ point) (settled : Settled before point) : Settled after point := by
  intro table history found unmarked id
  obtain ⟨kept, known, rfl⟩ := pruned.kept table history found
  rw [History.prune, shownRow_prune old, latestRow_prune (sound table kept known)]
  exact settled table kept known unmarked id

/-! ### Whole publications -/

theorem publishDurable_ok {durable final : Durable} {oldest csn : Nat}
    {schemas : List TableSchemaWire} {tables : List (TableSchemaWire × List Row)}
    (result : publishDurable durable oldest csn schemas tables = .ok final) :
    ∃ next, publishTables csn durable tables = .ok next ∧
      final = { next with
        format := 2, csn, tables := pruneTables oldest (schemas.map (·.objectId))
          (retireTables csn (schemas.map (·.objectId)) next.tables) } := by
  simp only [publishDurable, bind_eq_ok, pure_eq_ok] at result
  obtain ⟨next, first, same⟩ := result
  exact ⟨next, first, same.symm⟩

theorem pruneTables_pruned (oldest : Nat) (current : List Nat) (tables : SortedMap Nat History) :
    Pruned oldest tables (pruneTables oldest current tables) :=
  pruned_retain oldest tables _ fun table history dropped => by
    simp only [decide_eq_false_iff_not, not_or, not_not] at dropped
    exact dropped.2

/-- A publication leaves every snapshot from the oldest one on what it saw. -/
theorem publishDurable_publishes {durable final : Durable} {oldest csn : Nat}
    {schemas : List TableSchemaWire} {tables : List (TableSchemaWire × List Row)}
    (forward : durable.csn ≤ csn)
    (sound : TablesSound durable.csn durable.nextRow durable.tables)
    (result : publishDurable durable oldest csn schemas tables = .ok final) :
    final.csn = csn ∧ TablesSound csn final.nextRow final.tables ∧
      durable.nextRow ≤ final.nextRow ∧
      (∀ table id point, oldest ≤ point → point ≤ durable.csn → point < csn →
        final.shown table id point = durable.shown table id point) ∧
      ∀ point, oldest ≤ point → point ≤ durable.csn → point < csn →
        Settled durable.tables point → Settled final.tables point := by
  obtain ⟨next, first, rfl⟩ := publishDurable_ok result
  have published := publishTables_publishes forward (sound.mono forward le_rfl) (settled_now sound) first
  have retired := published.trans (retireTables_publishes (schemas.map (·.objectId)) published.sound)
  have pruned := pruneTables_pruned oldest (schemas.map (·.objectId))
    (retireTables csn (schemas.map (·.objectId)) next.tables)
  refine ⟨rfl, pruned.sound retired.sound, published.counted, ?_, ?_⟩
  · intro table id point old within before
    rw [← retired.shown table id point within before]
    exact pruned.shown old table id
  · intro point old within before settled
    exact pruned.settled retired.sound old (retired.settled point within before settled)

end ChuSQL.Storage.Mvcc
