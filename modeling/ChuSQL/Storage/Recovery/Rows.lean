import ChuSQL.Storage.Recovery.Replay

/-! Read as lists of rows, the tables change as the operations ask: applying is
`apply`, replaying is `redo`, as long as the ids that are deleted are the ids that
the guard of a deletion looks for. -/

set_option autoImplicit false

namespace ChuSQL.Storage

open BTree Library Library.GuardedRedo

/-! ### Ids and their keys -/

theorem bigEndian_inj {width first second : Nat} (firstFits : first < 256 ^ width)
    (secondFits : second < 256 ^ width) (same : bigEndian width first = bigEndian width second) :
    first = second := by
  induction width generalizing first second with
  | zero =>
      simp only [Nat.pow_zero, Nat.lt_one_iff] at firstFits secondFits
      rw [firstFits, secondFits]
  | succ width ih =>
      obtain ⟨high, low⟩ := List.append_inj' same rfl
      have quotient := ih ((Nat.div_lt_iff_lt_mul (by decide)).mpr (by rwa [Nat.pow_succ] at firstFits))
        ((Nat.div_lt_iff_lt_mul (by decide)).mpr (by rwa [Nat.pow_succ] at secondFits)) high
      have rest : first % 256 = second % 256 := congrArg Fin.val (List.singleton_inj.mp low)
      rw [← Nat.div_add_mod first 256, ← Nat.div_add_mod second 256, quotient, rest]

theorem keyOf_inj {first second : Int} (firstSized : Sized64 first) (secondSized : Sized64 second)
    (same : keyOf first = keyOf second) : first = second := by
  obtain ⟨low, high⟩ := firstSized
  obtain ⟨low', high'⟩ := secondSized
  have equal := bigEndian_inj (by omega) (by omega) same
  omega

theorem scalarInt_sized {value : Json} {id : Int} (isId : scalarInt value = some id) :
    Sized64 id := by
  cases value with
  | number number =>
      cases number with
      | int stored =>
          simp only [scalarInt] at isId
          split at isId
          · next sized => cases isId; exact sized
          · cases isId
      | float stored =>
          simp only [scalarInt] at isId
          split at isId
          · next whole =>
            cases isId
            constructor <;> omega
          · cases isId
  | null | bool _ | string _ | array _ | object _ => cases isId

theorem rowInt_sized {row : Row} {column : String} {id : Int}
    (isId : rowInt row column = some id) : Sized64 id := by
  obtain ⟨value, _, read⟩ := Option.bind_eq_some_iff.mp isId
  exact scalarInt_sized read

/-- The key of an integer id. -/
theorem idKey_of_rowInt {row : Row} {id : Int} (isId : rowInt row "id" = some id) :
    idKey row = some (keyOf id) := by
  obtain ⟨value, found, read⟩ := Option.bind_eq_some_iff.mp isId
  rw [idKey, rowKey, found, Option.bind_some]
  cases value with
  | number number => rw [valueKey, read]; rfl
  | null | bool _ | string _ | array _ | object _ => cases read

/-- A row filed under the key of one of the ids has that id. -/
def Plain (ids : List Int) (row : Row) : Prop :=
  ∀ id ∈ ids, idKey row = some (keyOf id) → rowInt row "id" = some id

instance (ids : List Int) (row : Row) : Decidable (Plain ids row) :=
  inferInstanceAs (Decidable (∀ id ∈ ids, idKey row = some (keyOf id) → rowInt row "id" = some id))

theorem Plain.mono {more fewer : List Int} {row : Row} (plain : Plain more row)
    (included : fewer ⊆ more) : Plain fewer row := fun id member => plain id (included member)

/-- The guard of a deletion sees exactly the rows that the deletion reaches. -/
theorem plain_reached {ids : List Int} {row : Row} (plain : Plain ids row)
    (sized : ∀ id ∈ ids, Sized64 id) :
    (∃ id ∈ rowInt row "id", id ∈ ids) ↔ ∃ key ∈ idKey row, key ∈ ids.map keyOf := by
  constructor
  · rintro ⟨id, isId, member⟩
    exact ⟨keyOf id, idKey_of_rowInt isId, List.mem_map_of_mem member⟩
  · rintro ⟨key, ofRow, member⟩
    obtain ⟨id, listed, rfl⟩ := List.mem_map.mp member
    exact ⟨id, plain id listed ofRow, listed⟩

namespace Tables

variable {rowBytes : Row → Nat} {pageSize : Nat}

/-- The table that a change starts from. -/
def heapOf (pageSize : Nat) (tables : Tables) (table : String) : KeyedHeap :=
  (tables table).getD ⟨pageSize, []⟩

theorem heapOf_scan (tables : Tables) (table : String) :
    (heapOf pageSize tables table).scan = rows tables table := by
  rw [heapOf, rows]
  cases tables table with
  | none => rfl
  | some heap => rfl

theorem heapOf_pageSize {tables : Tables} (paged : Paged pageSize tables) (table : String) :
    (heapOf pageSize tables table).file.pageSize = pageSize := by
  cases found : tables table with
  | none => rw [heapOf, found]; rfl
  | some heap => rw [heapOf, found]; exact paged table heap found

theorem rows_update (tables : Tables) (table : String) (heap : KeyedHeap) :
    rows (Function.update tables table (some heap)) =
      Function.update (rows tables) table heap.scan := by
  funext other
  by_cases same : other = table
  · subst same; simp [rows]
  · simp [rows, same]

theorem paged_update {tables : Tables} (paged : Paged pageSize tables) {table : String}
    {heap : KeyedHeap} (size : heap.file.pageSize = pageSize) :
    Paged pageSize (Function.update tables table (some heap)) := by
  intro other found isFound
  by_cases same : other = table
  · subst same
    rw [Function.update_self] at isFound
    cases isFound
    exact size
  · rw [Function.update_of_ne same] at isFound
    exact paged other found isFound

theorem withTable_ok {tables : Tables} {table : String}
    {change : KeyedHeap → Except IoError KeyedHeap} {heap : KeyedHeap}
    (changed : change (heapOf pageSize tables table) = .ok heap) :
    withTable pageSize tables table change = .ok (Function.update tables table (some heap)) := by
  rw [heapOf] at changed
  simp only [withTable, changed, bind, Except.bind]

theorem insertRows_singleton (heap : KeyedHeap) (row : Row) :
    heap.insertRows rowBytes [row] = heap.insertRow rowBytes row := by
  simp only [KeyedHeap.insertRows, bind, Except.bind]
  cases heap.insertRow rowBytes row <;> rfl

theorem insert_ok {tables : Tables} (table : String) (rows' : List Row) {next : List Row}
    (paged : Paged pageSize tables) (fits : KeyedHeap.Fits rowBytes pageSize rows')
    (changed : GuardedRedo.apply idKey (rows tables table) (.insert rows') = .ok next) :
    ∃ tables', withTable pageSize tables table (fun heap => heap.insertRows rowBytes rows') =
        .ok tables' ∧ Paged pageSize tables' ∧
      rows tables' = Function.update (rows tables) table next := by
  rw [← heapOf_scan] at changed
  have size := heapOf_pageSize paged table
  obtain ⟨added, heap, inserted, scanned, written, size'⟩ :=
    KeyedHeap.insertRows_scan (by rwa [size]) changed
  refine ⟨_, withTable_ok inserted, paged_update paged (size'.trans size), ?_⟩
  rw [rows_update, (insertRows_ok.mp changed).1, KeyedHeap.scan_eq heap, scanned, List.map_append,
    written]
  rfl

theorem insert_failed {tables : Tables} (table : String) (rows' : List Row) {error : Row}
    (paged : Paged pageSize tables) (fits : KeyedHeap.Fits rowBytes pageSize rows')
    (refused : GuardedRedo.apply idKey (rows tables table) (.insert rows') = .error error) :
    ∃ error', withTable pageSize tables table (fun heap => heap.insertRows rowBytes rows') =
      .error error' := by
  rw [← heapOf_scan] at refused
  have taken := KeyedHeap.insertRows_taken
    (by rwa [heapOf_pageSize paged table]) refused
  rw [heapOf] at taken
  exact ⟨_, by simp only [withTable, taken, bind, Except.bind]; rfl⟩

/-- Applying an operation to the tables applies its change to the rows. -/
theorem apply_splits : Splits (applyOp rowBytes pageSize) (GuardedRedo.apply idKey) rows
    RowOp.table RowOp.change (Paged pageSize)
    fun op => KeyedHeap.Fits rowBytes pageSize op.rows where
  done := by
    intro tables op next paged fits changed
    cases op with
    | insert table row =>
        obtain ⟨tables', inserted, rest⟩ :=
          insert_ok table [row] paged fits changed
        simp only [insertRows_singleton] at inserted
        exact ⟨tables', inserted, rest⟩
    | insertBatch table rows' =>
        by_cases nothing : rows' = [] ∧ tables table = none
        · obtain ⟨rfl, missing⟩ := nothing
          cases changed
          refine ⟨tables, by simp only [applyOp, missing, and_self, if_true], paged, ?_⟩
          exact (Function.update_eq_self _ _).symm
        · obtain ⟨tables', inserted, rest⟩ :=
            insert_ok table rows' paged fits changed
          exact ⟨tables', by simpa only [applyOp, nothing, if_false] using inserted, rest⟩
    | deleteKeys table keys =>
        cases changed
        obtain ⟨deleted, heap, erased, scanned, _, _, size⟩ :=
          KeyedHeap.deleteByKeys_scan (heapOf pageSize tables table) keys
        refine ⟨Function.update tables table (some heap), ?_,
          paged_update paged (size.trans (heapOf_pageSize paged table)), ?_⟩
        · simp only [applyOp]
          exact withTable_ok (by simp only [erased, bind, Except.bind])
        · rw [rows_update, scanned, heapOf_scan]
          rfl
    | replaceAll table rows' =>
        cases changed
        have size := heapOf_pageSize paged table
        obtain ⟨heap, replaced, scanned, size'⟩ :=
          KeyedHeap.replaceAll_scan
            (by rw [size]; exact fits)
        refine ⟨Function.update tables table (some heap), ?_,
          paged_update paged (size'.trans size), ?_⟩
        · simp only [applyOp]
          exact withTable_ok replaced
        rw [rows_update, scanned]
        rfl
  failed := by
    intro tables op error paged fits refused
    cases op with
    | insert table row =>
        obtain ⟨error', failed⟩ :=
          insert_failed table [row] paged fits refused
        simp only [insertRows_singleton] at failed
        exact ⟨error', failed⟩
    | insertBatch table rows' =>
        have something : ¬(rows' = [] ∧ tables table = none) := by
          rintro ⟨rfl, _⟩
          cases refused
        obtain ⟨error', failed⟩ :=
          insert_failed table rows' paged fits refused
        exact ⟨error', by simpa only [applyOp, something, if_false] using failed⟩
    | deleteKeys table keys => cases refused
    | replaceAll table rows' => cases refused

/-- Tables whose rows cannot be mistaken for rows with one of the ids. -/
def AllPlain (ids : String → List Int) (tables : Tables) : Prop :=
  ∀ table, ∀ row ∈ rows tables table, Plain (ids table) row

/-- An operation of a group that deletes these ids. -/
structure Permitted (rowBytes : Row → Nat) (pageSize : Nat) (ids : String → List Int) (op : RowOp) :
    Prop where
  fits : KeyedHeap.Fits rowBytes pageSize op.rows
  plain : ∀ row ∈ op.rows, Plain (ids op.table) row
  known : op.keys ⊆ ids op.table
  sized : ∀ id ∈ op.keys, Sized64 id

theorem change_rows (op : RowOp) : op.change.rows = op.rows := by
  cases op <;> rfl

theorem appliedRows_iff (tables : Tables) (table : String) (rows' : List Row) :
    appliedRows tables table rows' = true ↔ ∀ row ∈ rows', row ∈ rows tables table := by
  rw [appliedRows, rows]
  cases rows' with
  | nil => simp
  | cons first rest =>
      cases tables table with
      | none =>
          refine ⟨nofun, fun all => ?_⟩
          exact absurd (all first List.mem_cons_self) List.not_mem_nil
      | some heap => simp

/-- A deletion that is skipped has nothing to delete. -/
theorem deleteKeys_applied {tables : Tables} {table : String} {keys : List Int}
    (plain : ∀ row ∈ rows tables table, Plain keys row) (sized : ∀ id ∈ keys, Sized64 id)
    (skipped : opAlreadyApplied tables (.deleteKeys table keys) = true) :
    Applied idKey (rows tables table) (.delete (keys.map keyOf)) := by
  intro row member key ofRow targeted
  obtain ⟨id, isId, among⟩ := (plain_reached (plain row member) sized).mpr ⟨key, ofRow, targeted⟩
  rw [rows] at member
  cases found : tables table with
  | none => rw [found] at member; cases member
  | some heap =>
      rw [found] at member
      simp only [opAlreadyApplied, found, Bool.or_eq_true, List.isEmpty_iff, Bool.not_eq_true',
        List.any_eq_false] at skipped
      rcases skipped with empty | absent
      · rw [empty] at among; cases among
      · refine absent row member ?_
        rw [show rowInt row "id" = some id from isId]
        simpa using among

/-- Replaying an operation on plain tables redoes its change to the rows. -/
theorem replay_splits (ids : String → List Int) : Splits (replayOp rowBytes pageSize)
    (GuardedRedo.redo idKey) rows RowOp.table RowOp.change
    (fun tables => Paged pageSize tables ∧ AllPlain ids tables)
    (Permitted rowBytes pageSize ids) where
  done := by
    rintro tables op next ⟨paged, plain⟩ permitted changed
    -- What applying does keeps the tables plain, and skipping leaves them as they are.
    have applied : ∀ next, GuardedRedo.apply idKey (rows tables op.table) op.change = .ok next →
        ∃ tables', applyOp rowBytes pageSize tables op = .ok tables' ∧
          (Paged pageSize tables' ∧ AllPlain ids tables') ∧
          rows tables' = Function.update (rows tables) op.table next := by
      intro next changed
      obtain ⟨tables', done, paged', view⟩ := apply_splits.done paged permitted.fits changed
      refine ⟨tables', done, ⟨paged', fun table row member => ?_⟩, view⟩
      rw [view] at member
      by_cases same : table = op.table
      · subst same
        rw [Function.update_self] at member
        have origin := GuardedRedo.apply_mem changed member
        rw [change_rows] at origin
        rcases origin with stored | written
        · exact plain _ row stored
        · exact permitted.plain row written
      · rw [Function.update_of_ne same] at member
        exact plain table row member
    have skipped : ∀ next, rows tables op.table = next →
        ∃ tables', (.ok tables : Except IoError Tables) = .ok tables' ∧
          (Paged pageSize tables' ∧ AllPlain ids tables') ∧
          rows tables' = Function.update (rows tables) op.table next := by
      rintro _ rfl
      exact ⟨tables, rfl, ⟨paged, plain⟩, (Function.update_eq_self _ _).symm⟩
    have insertion : ∀ rows', op.change = .insert rows' →
        (opAlreadyApplied tables op = true ↔
          Applied idKey (rows tables op.table) (.insert rows')) →
        ∃ tables', (if opAlreadyApplied tables op then Except.ok tables
            else applyOp rowBytes pageSize tables op) = .ok tables' ∧
          (Paged pageSize tables' ∧ AllPlain ids tables') ∧
          rows tables' = Function.update (rows tables) op.table next := by
      intro rows' isInsert same
      rw [isInsert, redo] at changed
      by_cases made : Applied idKey (rows tables op.table) (.insert rows')
      · rw [if_pos made] at changed
        rw [if_pos (same.mpr made)]
        exact skipped next (Except.ok.inj changed)
      · rw [if_neg made] at changed
        rw [if_neg fun looks => made (same.mp looks)]
        exact applied next (by rwa [isInsert])
    cases op with
    | insert table row =>
        exact insertion [row] rfl (appliedRows_iff tables table [row])
    | insertBatch table rows' =>
        exact insertion rows' rfl (appliedRows_iff tables table rows')
    | deleteKeys table keys =>
        have erased : eraseKeys idKey (keys.map keyOf) (rows tables table) = next :=
          Except.ok.inj ((redo_delete _ _).symm.trans changed)
        simp only [replayOp]
        by_cases looks : opAlreadyApplied tables (.deleteKeys table keys) = true
        · rw [if_pos looks]
          have made := deleteKeys_applied
            (fun row member => Plain.mono (plain table row member) permitted.known) permitted.sized
            looks
          exact skipped next ((eraseKeys_of_applied made).symm.trans erased)
        · rw [if_neg looks]
          exact applied next (congrArg Except.ok erased)
    | replaceAll table rows' => exact applied next changed
  failed := by
    rintro tables op error ⟨paged, plain⟩ permitted refused
    have insertion : ∀ rows', op.change = .insert rows' →
        (opAlreadyApplied tables op = true ↔
          Applied idKey (rows tables op.table) (.insert rows')) →
        ∃ error', (if opAlreadyApplied tables op then Except.ok tables
            else applyOp rowBytes pageSize tables op) = .error error' := by
      intro rows' isInsert same
      rw [isInsert, redo] at refused
      by_cases made : Applied idKey (rows tables op.table) (.insert rows')
      · rw [if_pos made] at refused; cases refused
      · rw [if_neg made] at refused
        rw [if_neg fun looks => made (same.mp looks)]
        exact apply_splits.failed paged permitted.fits (by rwa [isInsert])
    cases op with
    | insert table row =>
        exact insertion [row] rfl (appliedRows_iff tables table [row])
    | insertBatch table rows' =>
        exact insertion rows' rfl (appliedRows_iff tables table rows')
    | deleteKeys table keys =>
        have none := (redo_delete (rows tables table) (keys.map keyOf)).symm.trans refused
        cases none
    | replaceAll table rows' => cases refused

end Tables

end ChuSQL.Storage
