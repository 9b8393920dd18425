import ChuSQL.Storage.Mvcc.LockTable

/-! Merging a plan into the latest rows: whichever operations are sent, they leave the
rows the plan did not touch, followed by its new and altered rows. -/

set_option autoImplicit false

namespace ChuSQL.Storage.Mvcc

open Library

/-! ### The preview of a commit -/

def missingTable : String := "transaction table missing"

/-- One operation on the rows read out for the preview. -/
def previewOp (tables : SortedMap String (List Row)) (op : StorageOp) :
    Except String (SortedMap String (List Row)) :=
  match op with
  | .replace table rows => .ok (tables.insert table rows)
  | .upsert table _ | .delete table _ =>
      match tables.get table with
      | none => .error missingTable
      | some rows => .ok (tables.insert table (op.applyRows rows))

def latestRows (durable : Durable) (objectId : Nat) : List Row :=
  match durable.tables.get objectId with
  | none => []
  | some history => visibleRows history durable.csn

/-- The latest rows of the requested tables with the transaction's changes applied. -/
def preview (state : State) (token : Token) (schemas : List TableSchemaWire) :
    Except String (TableRows × List StorageOp) := do
  let tx ← state.transaction token
  validate state token (tx.plan ≠ [])
  let ops ← mergedOps state token
  let tables := SortedMap.empty.insertAll
    (schemas.map fun schema => (schema.table, latestRows state.durable schema.objectId))
  let tables ← ops.foldlM previewOp tables
  pure (tables.entries, ops)

/-! ### What a plan leaves of the latest rows -/

/-- The plan removes the row, or gives it new values. -/
def Change.Touches (change : Change) (base : List (Nat × Version)) (id : Nat) : Prop :=
  id ∈ change.removed ∨ ∃ row, (some id, row) ∈ change.wanted ∧
    ∀ version, (base.find? fun entry => entry.1 = id) = some (id, version) → version.row ≠ row

theorem mem_edits {change : Change} {base : List (Nat × Version)} {id : Nat} :
    id ∈ (change.edits base).1 ↔ change.Touches base id := by
  rw [Change.edits, List.mem_append, List.mem_filterMap, Change.Touches]
  refine or_congr Iff.rfl ⟨?_, ?_⟩
  · rintro ⟨⟨found, row⟩, member, same⟩
    obtain ⟨inside, altered⟩ := List.mem_filter.mp member
    simp only at same
    subst same
    refine ⟨row, inside, fun version at_ => ?_⟩
    simpa [at_] using altered
  · rintro ⟨row, inside, altered⟩
    refine ⟨(some id, row), List.mem_filter.mpr ⟨inside, ?_⟩, rfl⟩
    cases at_ : base.find? fun entry => decide (entry.1 = id) with
    | none => simp [at_]
    | some entry =>
        have same : entry.1 = id := by simpa using List.find?_some at_
        obtain ⟨other, version⟩ := entry
        subst same
        simpa [at_] using altered version at_

instance (change : Change) (base : List (Nat × Version)) (id : Nat) :
    Decidable (change.Touches base id) := decidable_of_iff _ mem_edits

/-- A wanted row that is new, or other than the row whose identity it takes. -/
def Adds (base : List (Nat × Version)) (wanted : Option Nat × Row) : Prop :=
  ∀ id version, wanted.1 = some id → (base.find? fun entry => entry.1 = id) = some (id, version) →
    version.row ≠ wanted.2

theorem adds_iff {base : List (Nat × Version)} {wanted : Option Nat × Row} :
    (match wanted.1 with
      | none => true
      | some id => (base.find? fun entry => entry.1 = id).all fun entry => entry.2.row ≠ wanted.2) = true ↔
        Adds base wanted := by
  obtain ⟨found, row⟩ := wanted
  cases found with
  | none => simp [Adds]
  | some id =>
      cases at_ : base.find? fun entry => decide (entry.1 = id) with
      | none =>
          refine ⟨fun _ other version same taken => ?_, fun _ => by simp [at_]⟩
          cases same
          rw [at_] at taken
          cases taken
      | some entry =>
          obtain ⟨other, version⟩ := entry
          have same : other = id := by simpa using List.find?_some at_
          subst same
          simp only [at_, Option.all_some, decide_eq_true_eq]
          refine ⟨fun altered id found same taken => ?_, fun adds => adds other version rfl at_⟩
          cases same
          rw [at_] at taken
          cases taken
          exact altered

instance (base : List (Nat × Version)) (wanted : Option Nat × Row) : Decidable (Adds base wanted) :=
  decidable_of_iff _ adds_iff

theorem deleteIds_nil (rows : List Row) : deleteIds [] rows = rows := by
  induction rows with
  | nil => rfl
  | cons row rest ih =>
      rw [deleteIds, ih]
      cases rowInt row "id" <;> simp

/-- Distinct ids that no other row carries delete exactly the rows they were taken from. -/
theorem deleteIds_victims (removed : List Nat) {rows : List (Nat × Row)} {ids : List Int}
    (victims : ((rows.filter fun entry => entry.1 ∈ removed).mapM fun entry =>
      rowInt entry.2 "id") = some ids)
    (distinct : ids.Nodup)
    (survivors : ∀ entry ∈ rows.filter fun entry => entry.1 ∉ removed,
      ∀ id, rowInt entry.2 "id" = some id → id ∉ ids) :
    deleteIds ids (rows.map (·.2)) = (rows.filter fun entry => entry.1 ∉ removed).map (·.2) := by
  induction rows generalizing ids with
  | nil => rfl
  | cons entry rest ih =>
      rw [List.map_cons, deleteIds]
      by_cases gone : entry.1 ∈ removed
      · -- the row is the one its id stands for
        rw [List.filter_cons_of_pos (by simpa using gone), List.mapM_cons] at victims
        obtain ⟨id, isId, later⟩ := Option.bind_eq_some_iff.mp victims
        obtain ⟨others, mapped, same⟩ := Option.bind_eq_some_iff.mp later
        cases same
        obtain ⟨fresh, distinct⟩ := List.nodup_cons.mp distinct
        rw [List.filter_cons_of_neg (by simpa using gone)] at survivors ⊢
        have left : (id :: others).filter (· ≠ id) = others := by
          rw [List.filter_cons_of_neg (by simp), List.filter_eq_self]
          intro other member
          simpa using fun equal : other = id => fresh (equal ▸ member)
        rw [isId]
        dsimp only
        rw [if_pos List.mem_cons_self, left]
        exact ih mapped distinct fun other member otherId at_ inside =>
          survivors other member otherId at_ (List.mem_cons_of_mem _ inside)
      · rw [List.filter_cons_of_neg (by simpa using gone)] at victims
        have kept : ∀ id, rowInt entry.2 "id" = some id → id ∉ ids :=
          survivors entry (List.mem_filter.mpr ⟨List.mem_cons_self, by simpa using gone⟩)
        rw [List.filter_cons_of_pos (by simpa using gone), List.map_cons,
          ← ih victims distinct fun other member => survivors other (by
            rw [List.filter_cons_of_pos (by simpa using gone)]
            exact List.mem_cons_of_mem _ member)]
        cases isId : rowInt entry.2 "id" with
        | none => rfl
        | some id => exact if_neg (kept id isId)

/-- The operations for one table in the order in which they are sent. -/
def applyOps (ops : List StorageOp) (rows : List Row) : List Row :=
  ops.foldl (fun rows op => op.applyRows rows) rows

/-- Latest rows with the plan's changes: what it did not touch, then its new and altered rows. -/
def Change.merged (change : Change) (base current : List (Nat × Version)) : List Row :=
  (current.filter fun entry => ¬ change.Touches base entry.1).map (·.2.row) ++
    (change.wanted.filter fun wanted => Adds base wanted).map (·.2)

theorem merged_eq_edits (change : Change) (base current : List (Nat × Version)) :
    change.merged base current =
      (current.filter fun entry => entry.1 ∉ (change.edits base).1).map (·.2.row) ++
        (change.edits base).2 := by
  rw [Change.merged]
  congr 2
  · exact List.filter_congr fun entry _ => decide_eq_decide.mpr (not_congr mem_edits.symm)
  · refine List.filter_congr fun wanted _ => ?_
    exact (Bool.eq_iff_iff.mpr (adds_iff.trans (decide_eq_true_iff).symm)).symm

theorem mergeChange_applied {state : State} {tx : Transaction} {change : Change}
    {ops : List StorageOp} {history : History}
    (found : state.durable.tables.get change.table = some history)
    (merged : mergeChange state tx change = .ok ops) :
    applyOps ops (visibleRows history state.durable.csn) =
        change.merged (visible history tx.snapshot) (visible history state.durable.csn) ∧
      ∀ op ∈ ops, op.table = history.schema.table := by
  simp only [mergeChange, historyOf, found, bind_eq_ok, Except.ok.injEq] at merged
  obtain ⟨_, rfl, merged⟩ := merged
  rw [merged_eq_edits]
  generalize change.edits (visible history tx.snapshot) = edits at merged ⊢
  obtain ⟨removed, appended⟩ := edits
  dsimp only at merged ⊢
  rw [visibleRows]
  generalize visible history state.durable.csn = current at merged ⊢
  -- the rows that survive, with and without the versions around them
  have survivors : ((current.map fun entry => (entry.1, entry.2.row)).filter fun entry =>
      entry.1 ∉ removed).map (·.2) = (current.filter fun entry => entry.1 ∉ removed).map (·.2.row) := by
    rw [List.filter_map, List.map_map]
    rfl
  have rows : (current.map fun entry => (entry.1, entry.2.row)).map (·.2) = current.map (·.2.row) := by
    rw [List.map_map]
    rfl
  split at merged
  · rename_i unchanged
    obtain ⟨rfl, rfl⟩ := unchanged
    cases merged
    simp [applyOps]
  · split at merged
    · cases merged
      exact ⟨by rw [← survivors]; rfl, by simp [StorageOp.table]⟩
    · rename_i ids victims
      split at merged
      · rename_i clear
        obtain ⟨distinct, clear⟩ := clear
        have deleted := deleteIds_victims removed
          (by rw [← victims, List.mapM_map]; rfl) distinct clear
        rw [survivors, rows] at deleted
        cases merged
        constructor
        · by_cases noIds : ids = []
          · subst noIds
            rw [deleteIds_nil] at deleted
            by_cases nothing : appended = []
            · simp [nothing, applyOps, deleted]
            · simp [nothing, applyOps, StorageOp.applyRows, deleted]
          · by_cases nothing : appended = []
            · simp [noIds, nothing, applyOps, StorageOp.applyRows, deleted]
            · simp [noIds, nothing, applyOps, StorageOp.applyRows, deleted]
        · intro op member
          rcases List.mem_append.mp member with inside | inside
          · split at inside
            · cases inside
            · rw [List.mem_singleton.mp inside]
              rfl
          · split at inside
            · cases inside
            · rw [List.mem_singleton.mp inside]
              rfl
      · cases merged
        exact ⟨by rw [← survivors]; rfl, by simp [StorageOp.table]⟩

/-! ### One change for each edited table -/

theorem historyOf_ok {durable : Durable} {table : Nat} {history : History} :
    historyOf durable table = .ok history ↔ durable.tables.get table = some history := by
  rw [historyOf]
  cases durable.tables.get table <;> simp

theorem editRows_ok {durable : Durable} {tx : Transaction} {edited next : SortedMap Nat (List Row)}
    {op : StorageOp} (result : editRows durable tx edited op = .ok next) :
    ∃ schema history, tx.schemaOf op.table = some schema ∧
      durable.tables.get schema.objectId = some history ∧
      next = edited.insert schema.objectId
        (op.applyRows ((edited.get schema.objectId).getD (visibleRows history tx.snapshot))) := by
  rw [editRows] at result
  cases recorded : tx.schemaOf op.table with
  | none => simp [recorded] at result
  | some schema =>
      cases found : durable.tables.get schema.objectId with
      | none => simp [recorded, found] at result
      | some history =>
          simp only [recorded, found, Except.ok.injEq] at result
          exact ⟨schema, history, rfl, found, result.symm⟩

/-- Only tables the transaction recorded are edited. -/
theorem edited_recorded {durable : Durable} {tx : Transaction} {ops : List StorageOp}
    {edited next : SortedMap Nat (List Row)}
    (before : ∀ table ∈ edited.keys, ∃ schema ∈ tx.schemas, schema.objectId = table)
    (result : ops.foldlM (editRows durable tx) edited = .ok next) :
    ∀ table ∈ next.keys, ∃ schema ∈ tx.schemas, schema.objectId = table := by
  induction ops generalizing edited with
  | nil =>
      cases result
      exact before
  | cons op rest ih =>
      obtain ⟨middle, first, later⟩ := foldlM_cons_ok.mp result
      obtain ⟨schema, history, recorded, _, rfl⟩ := editRows_ok first
      refine ih (fun table member => ?_) later
      obtain ⟨rows, found⟩ := SortedMap.mem_keys.mp member
      rw [SortedMap.get_insert] at found
      split at found
      · rename_i same
        exact ⟨schema, List.mem_of_find?_eq_some recorded, same.symm⟩
      · exact before table (SortedMap.mem_keys.mpr ⟨rows, found⟩)

theorem plans_ok {state : State} {token : Token} {tx : Transaction} {ops : List StorageOp}
    {changes : List Change} (found : state.transactions.get token = some tx)
    (planned : plans state token ops = .ok changes) :
    ∃ edited : SortedMap Nat (List Row),
      ops.foldlM (editRows state.durable tx) .empty = .ok edited ∧
      List.Forall₂ (fun entry change => ∃ history,
        state.durable.tables.get entry.1 = some history ∧
        change = changeOf entry.1 (visible history tx.snapshot) entry.2) edited.entries changes := by
  simp only [plans, bind_eq_ok, transaction_ok, found, Option.some.injEq] at planned
  obtain ⟨_, rfl, edited, folded, mapped⟩ := planned
  refine ⟨edited, folded, (mapM_eq_ok.mp mapped).imp fun entry change built => ?_⟩
  simp only [bind_eq_ok, pure_eq_ok, historyOf_ok] at built
  obtain ⟨history, at_, same⟩ := built
  exact ⟨history, at_, same.symm⟩

theorem changeOf_table (table : Nat) (old : List (Nat × Version)) (rows : List Row) :
    (changeOf table old rows).table = table := rfl

/-- The changes of a plan are of different recorded tables, each still in the catalog. -/
theorem plans_tables {state : State} {token : Token} {tx : Transaction} {ops : List StorageOp}
    {changes : List Change} (found : state.transactions.get token = some tx)
    (planned : plans state token ops = .ok changes) :
    (changes.map (·.table)).Nodup ∧ ∀ change ∈ changes,
      (∃ schema ∈ tx.schemas, schema.objectId = change.table) ∧
      ∃ history, state.durable.tables.get change.table = some history := by
  obtain ⟨edited, folded, built⟩ := plans_ok found planned
  have tables : edited.keys = changes.map (·.table) := by
    rw [SortedMap.keys]
    clear planned
    generalize edited.entries = entries at built
    induction built with
    | nil => rfl
    | cons first _ ih =>
        obtain ⟨_, _, same⟩ := first
        rw [List.map_cons, List.map_cons, ih, same, changeOf_table]
  refine ⟨tables ▸ edited.keys_nodup, fun change member => ⟨?_, ?_⟩⟩
  · have recorded := edited_recorded (fun table inside => by cases inside) folded
    exact recorded change.table (tables ▸ List.mem_map_of_mem member)
  · obtain ⟨entry, _, history, at_, rfl⟩ := exists_of_mem_right built member
    exact ⟨history, at_⟩

/-! ### Operations by table name -/

/-- The operations sent for one table. -/
def opsFor (ops : List StorageOp) (name : String) : List StorageOp :=
  ops.filter fun op => op.table = name

/-- Among lists of operations with different names, a name picks out its own list. -/
private theorem opsFor_flatten {nameOf : Change → String} {changes : List Change}
    {merged : List (List StorageOp)}
    (named : List.Forall₂ (fun change ops => ∀ op ∈ ops, op.table = nameOf change) changes merged)
    (name : String) :
    (name ∉ changes.map nameOf → opsFor merged.flatten name = []) ∧
      ((changes.map nameOf).Nodup → ∀ Rel : Change → List StorageOp → Prop,
        List.Forall₂ Rel changes merged → ∀ change ∈ changes, nameOf change = name →
          Rel change (opsFor merged.flatten name)) := by
  induction named with
  | nil => exact ⟨fun _ => rfl, fun _ _ _ _ member => absurd member List.not_mem_nil⟩
  | cons first _ ih =>
      rename_i head ops changes merged rest
      have others : nameOf head ≠ name → opsFor ops name = [] := by
        intro different
        refine List.filter_eq_nil_iff.mpr fun op member => ?_
        simpa [first op member] using different
      have own : nameOf head = name → opsFor ops name = ops := by
        intro same
        refine List.filter_eq_self.mpr fun op member => ?_
        simpa [first op member] using same
      have split : opsFor (List.flatten (ops :: merged)) name =
          opsFor ops name ++ opsFor merged.flatten name := by
        rw [List.flatten_cons, opsFor, List.filter_append]
        rfl
      rw [split]
      constructor
      · intro absent
        simp only [List.map_cons, List.mem_cons, not_or] at absent
        rw [others (Ne.symm absent.1), ih.1 absent.2]
        rfl
      · intro distinct Rel related change member same
        obtain ⟨fresh, distinct⟩ := List.nodup_cons.mp distinct
        obtain ⟨relHead, relRest⟩ := List.forall₂_cons.mp related
        cases List.mem_cons.mp member with
        | inl equal =>
            subst equal
            rw [own same, ih.1 (same ▸ fresh), List.append_nil]
            exact relHead
        | inr later =>
            have different : nameOf head ≠ name := fun equal =>
              fresh (equal ▸ same ▸ List.mem_map_of_mem later)
            rw [others different, List.nil_append]
            exact ih.2 distinct Rel relRest change later same

/-- Objects keep their names, and a transaction recorded each name once. -/
structure Named (names : Nat → String) (state : State) : Prop where
  histories : ∀ table history, state.durable.tables.get table = some history →
    history.schema.table = names table
  recorded : ∀ token tx, state.transactions.get token = some tx →
    (∀ schema ∈ tx.schemas, schema.table = names schema.objectId) ∧
      (tx.schemas.map (·.table)).Nodup

/-- Tables of a plan have different names. -/
theorem plans_names {names : Nat → String} {state : State} {token : Token} {tx : Transaction}
    {ops : List StorageOp} {changes : List Change} (named : Named names state)
    (found : state.transactions.get token = some tx)
    (planned : plans state token ops = .ok changes) :
    (changes.map fun change => names change.table).Nodup := by
  obtain ⟨distinct, recorded⟩ := plans_tables found planned
  obtain ⟨schemaNames, schemasDistinct⟩ := named.recorded token tx found
  have injective : ∀ first ∈ changes.map (·.table), ∀ second ∈ changes.map (·.table),
      names first = names second → first = second := by
    intro first firstMem second secondMem same
    obtain ⟨firstChange, firstIn, rfl⟩ := List.mem_map.mp firstMem
    obtain ⟨secondChange, secondIn, rfl⟩ := List.mem_map.mp secondMem
    obtain ⟨⟨firstSchema, firstRecorded, firstIs⟩, _⟩ := recorded firstChange firstIn
    obtain ⟨⟨secondSchema, secondRecorded, secondIs⟩, _⟩ := recorded secondChange secondIn
    have equal : firstSchema = secondSchema := by
      refine List.inj_on_of_nodup_map schemasDistinct firstRecorded secondRecorded ?_
      rw [schemaNames firstSchema firstRecorded, schemaNames secondSchema secondRecorded, firstIs,
        secondIs, same]
    rw [← firstIs, ← secondIs, equal]
  have mapped : (changes.map fun change => names change.table) = (changes.map (·.table)).map names := by
    rw [List.map_map]
    rfl
  rw [mapped]
  exact distinct.map_on injective

theorem mergedOps_ok {state : State} {token : Token} {tx : Transaction} {ops : List StorageOp}
    (found : state.transactions.get token = some tx) (result : mergedOps state token = .ok ops) :
    ∃ changes merged, plans state token tx.plan = .ok changes ∧
      List.Forall₂ (fun change ops => mergeChange state tx change = .ok ops) changes merged ∧
      ops = merged.flatten := by
  simp only [mergedOps, bind_eq_ok, pure_eq_ok, transaction_ok, found, Option.some.injEq] at result
  obtain ⟨_, rfl, changes, planned, merged, mapped, same⟩ := result
  exact ⟨changes, merged, planned, mapM_eq_ok.mp mapped, same.symm⟩

/-- What the merged operations do to the latest rows of each table by its name. -/
theorem mergedOps_applied {names : Nat → String} {state : State} {token : Token} {tx : Transaction}
    {ops : List StorageOp} {changes : List Change} (named : Named names state)
    (found : state.transactions.get token = some tx)
    (planned : plans state token tx.plan = .ok changes)
    (result : mergedOps state token = .ok ops) :
    (∀ change ∈ changes, ∃ history, state.durable.tables.get change.table = some history ∧
      applyOps (opsFor ops (names change.table)) (visibleRows history state.durable.csn) =
        change.merged (visible history tx.snapshot) (visible history state.durable.csn)) ∧
      ∀ name, name ∉ changes.map (fun change => names change.table) → opsFor ops name = [] := by
  obtain ⟨others, merged, again, each, rfl⟩ := mergedOps_ok found result
  rw [planned] at again
  cases again
  have tables := (plans_tables found planned).2
  have distinct := plans_names named found planned
  have each : List.Forall₂ (fun change ops => change ∈ changes ∧
      mergeChange state tx change = .ok ops) changes merged := by
    refine List.forall₂_iff_get.mpr ⟨each.length_eq, fun index first second => ?_⟩
    exact ⟨List.get_mem .., (List.forall₂_iff_get.mp each).2 index first second⟩
  have applied : List.Forall₂ (fun change ops => ∃ history,
      state.durable.tables.get change.table = some history ∧
        applyOps ops (visibleRows history state.durable.csn) =
          change.merged (visible history tx.snapshot) (visible history state.durable.csn))
      changes merged := by
    refine each.imp fun change ops both => ?_
    obtain ⟨member, result⟩ := both
    obtain ⟨_, history, at_⟩ := tables change member
    exact ⟨history, at_, (mergeChange_applied at_ result).1⟩
  have byName : List.Forall₂ (fun change ops => ∀ op ∈ ops, op.table = names change.table)
      changes merged := by
    refine each.imp fun change ops both op inside => ?_
    obtain ⟨member, result⟩ := both
    obtain ⟨_, history, at_⟩ := tables change member
    rw [(mergeChange_applied at_ result).2 op inside, named.histories change.table history at_]
  refine ⟨fun change member => ?_, fun name absent => (opsFor_flatten byName name).1 absent⟩
  exact (opsFor_flatten byName (names change.table)).2 distinct _ applied change member rfl

/-- The preview applies to each requested table the operations sent for it. -/
theorem previewOps_get {ops : List StorageOp} {tables final : SortedMap String (List Row)}
    {name : String} {rows : List Row} (result : ops.foldlM previewOp tables = .ok final)
    (found : tables.get name = some rows) :
    final.get name = some (applyOps (opsFor ops name) rows) := by
  induction ops generalizing tables rows with
  | nil =>
      cases result
      exact found
  | cons op rest ih =>
      obtain ⟨next, first, later⟩ := foldlM_cons_ok.mp result
      -- the operation changes its own table only
      have step : next.get name = some (applyOps (opsFor [op] name) rows) := by
        by_cases same : op.table = name
        · have picked : opsFor [op] name = [op] := by simp [opsFor, same]
          rw [picked]
          cases op with
          | replace table incoming =>
              cases first
              subst same
              exact SortedMap.get_insert_self ..
          | upsert table incoming =>
              subst same
              have found : tables.get table = some rows := found
              rw [previewOp] at first
              simp only [found, Except.ok.injEq] at first
              rw [← first]
              exact SortedMap.get_insert_self ..
          | delete table ids =>
              subst same
              have found : tables.get table = some rows := found
              rw [previewOp] at first
              simp only [found, Except.ok.injEq] at first
              rw [← first]
              exact SortedMap.get_insert_self ..
        · have picked : opsFor [op] name = [] := by simp [opsFor, same]
          have kept : ∀ rows, (tables.insert op.table rows).get name = tables.get name := fun rows => by
            rw [SortedMap.get_insert, if_neg (Ne.symm same)]
          rw [picked]
          cases op with
          | replace table incoming =>
              cases first
              exact (kept incoming).trans found
          | upsert table incoming =>
              rw [previewOp] at first
              split at first
              · cases first
              · cases first
                exact (kept _).trans found
          | delete table ids =>
              rw [previewOp] at first
              split at first
              · cases first
              · cases first
                exact (kept _).trans found
      have split : applyOps (opsFor (op :: rest) name) rows =
          applyOps (opsFor rest name) (applyOps (opsFor [op] name) rows) := by
        rw [applyOps, applyOps, applyOps, ← List.foldl_append, opsFor, opsFor, opsFor,
          ← List.filter_append]
        rfl
      rw [split]
      exact ih later step

/-- The merge is exact: the operations turn the latest rows of each planned table into
those the plan neither removed nor altered, followed by its new and altered rows. No
other table is touched, and the preview shows just that for every requested table. -/
theorem merge_exact {names : Nat → String} {state : State} {token : Token} {tx : Transaction}
    {ops : List StorageOp} {changes : List Change} (named : Named names state)
    (found : state.transactions.get token = some tx)
    (planned : plans state token tx.plan = .ok changes)
    (merged : mergedOps state token = .ok ops) :
    (∀ change ∈ changes, ∃ history, state.durable.tables.get change.table = some history ∧
      applyOps (opsFor ops (names change.table)) (visibleRows history state.durable.csn) =
        change.merged (visible history tx.snapshot) (visible history state.durable.csn)) ∧
      (∀ name, name ∉ changes.map (fun change => names change.table) → opsFor ops name = []) ∧
      ∀ (schemas : List TableSchemaWire) tables previewed, (schemas.map (·.table)).Nodup →
        preview state token schemas = .ok (tables, previewed) → previewed = ops ∧
          ∀ schema ∈ schemas, tables.lookup schema.table =
            some (applyOps (opsFor ops schema.table) (latestRows state.durable schema.objectId)) := by
  obtain ⟨planned, others⟩ := mergedOps_applied named found planned merged
  refine ⟨planned, others, fun schemas tables previewed distinct shown => ?_⟩
  simp only [preview, bind_eq_ok, pure_eq_ok, transaction_ok, found, Option.some.injEq, merged,
    Except.ok.injEq, Prod.mk.injEq] at shown
  obtain ⟨_, rfl, _, _, _, rfl, final, folded, rfl, rfl⟩ := shown
  refine ⟨rfl, fun schema member => previewOps_get folded (SortedMap.get_insertAll ?_ ?_)⟩
  · rw [List.map_map]
    exact distinct
  · exact List.mem_map_of_mem member

/-! ### Two rows, one of them deleted -/

def itemRow (id : Int) : Row := ⟨[("id", .number (.int id))], List.pairwise_singleton _ _⟩

def items : TableSchemaWire := ⟨"items", 1, 1, 1, [], 2⟩

def itemsHistory : History :=
  ⟨items, 1, true, SortedMap.empty.insertAll
    [(1, [⟨1, none, 1, 0, itemRow 1⟩]), (2, [⟨1, none, 1, 1, itemRow 2⟩])]⟩

def deletion : Transaction :=
  ⟨1, [items], false, [], .empty, [], none, [.delete "items" [1]]⟩

def itemsState : State :=
  ⟨⟨2, 1, 2, SortedMap.empty.insert 1 itemsHistory⟩, SortedMap.empty.insert 1 deletion, 1⟩

theorem items_named : Named (fun _ => "items") itemsState where
  histories table history found := by
    cases List.mem_singleton.mp (SortedMap.get_eq_some.mp found)
    rfl
  recorded token tx found := by
    cases List.mem_singleton.mp (SortedMap.get_eq_some.mp found)
    exact ⟨fun schema member => by rw [List.mem_singleton.mp member]; rfl, List.nodup_singleton _⟩

theorem merge_exact_items :
    applyOps (opsFor [.delete "items" [1]] "items") [itemRow 1, itemRow 2] = [itemRow 2] := by
  have planned : plans itemsState 1 deletion.plan = .ok [⟨1, [(some 2, itemRow 2)], [1]⟩] := by
    decide +kernel
  have merged : mergedOps itemsState 1 = .ok [.delete "items" [1]] := by decide +kernel
  obtain ⟨history, found, applied⟩ :=
    (merge_exact items_named (SortedMap.get_insert_self ..) planned merged).1 _ List.mem_cons_self
  cases (SortedMap.get_insert_self (SortedMap.empty : SortedMap Nat History) 1 itemsHistory).symm.trans
    found
  have latest : visibleRows itemsHistory 1 = [itemRow 1, itemRow 2] := by decide +kernel
  have kept : Change.merged ⟨1, [(some 2, itemRow 2)], [1]⟩ (visible itemsHistory 1)
      (visible itemsHistory 1) = [itemRow 2] := by decide +kernel
  exact latest ▸ applied.trans kept

end ChuSQL.Storage.Mvcc
