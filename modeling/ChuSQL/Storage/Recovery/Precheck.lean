import ChuSQL.Storage.Recovery.Rows

/-! The pre-check of inserted ids follows a group operation by operation without
touching the tables: a group that passes it can be applied. -/

set_option autoImplicit false

namespace ChuSQL.Storage.Tables

open BTree Library Library.GuardedRedo

namespace PendingIds

/-- The counts are those of the rows, for every key. -/
def Counts (pending : PendingIds) (heap : Option KeyedHeap) (rows : List Row) : Prop :=
  ∀ key, pending.count heap key = (withKey idKey key rows).length

theorem count_set (pending : PendingIds) (heap : Option KeyedHeap) (key other : Key) (count : Nat) :
    (pending.set key count).count heap other =
      if other = key then count else pending.count heap other := by
  by_cases same : other = key
  · simp [set, PendingIds.count, same]
  · have different : (other == key) = false := by simpa using same
    simp only [set, PendingIds.count, List.lookup_cons, different, if_neg same]
    rfl

theorem counts_unkeyed {pending : PendingIds} {heap : Option KeyedHeap} {rows : List Row} {row : Row}
    (counts : pending.Counts heap rows) (keyless : idKey row = none) :
    pending.Counts heap (rows ++ [row]) := fun key => by
  have alone : withKey idKey key [row] = [] := by simp [withKey, keyless]
  rw [counts key, withKey_append, alone, List.append_nil]

theorem counts_keyed {pending : PendingIds} {heap : Option KeyedHeap} {rows : List Row} {row : Row}
    {key : Key} (counts : pending.Counts heap rows) (ofRow : idKey row = some key) :
    (pending.set key (pending.count heap key + 1)).Counts heap (rows ++ [row]) := fun other => by
  rw [count_set, withKey_append, List.length_append]
  by_cases same : other = key
  · subst same
    have alone : withKey idKey other [row] = [row] := by simp [withKey, ofRow]
    rw [if_pos rfl, alone, counts other]
    rfl
  · have alone : withKey idKey other [row] = [] := by simp [withKey, ofRow, Ne.symm same]
    rw [if_neg same, alone, counts other]
    rfl

theorem counts_insert {pending next : PendingIds} {heap : Option KeyedHeap} {rows added : List Row}
    (counts : pending.Counts heap rows) (inserted : insert heap pending added = .ok next) :
    insertRows idKey rows added = .ok (rows ++ added) ∧ next.Counts heap (rows ++ added) := by
  induction added generalizing pending rows with
  | nil =>
      cases inserted
      rw [List.append_nil]
      exact ⟨rfl, counts⟩
  | cons row rest ih =>
      rw [insert] at inserted
      rw [insertRows]
      cases ofRow : idKey row with
      | none =>
          simp only [ofRow] at inserted
          obtain ⟨stored, counted⟩ := ih (counts_unkeyed counts ofRow) inserted
          rw [List.append_assoc] at stored counted
          exact ⟨by rw [if_neg (by simp)]; exact stored, counted⟩
      | some key =>
          simp only [ofRow] at inserted
          by_cases taken : pending.count heap key > 0
          · rw [if_pos taken] at inserted; cases inserted
          · rw [if_neg taken] at inserted
            have zero : pending.count heap key = 0 := by omega
            have free : withKey idKey key rows = [] := by
              rw [← List.length_eq_zero_iff, ← counts key, zero]
            have counted := counts_keyed counts ofRow
            rw [zero] at counted
            obtain ⟨stored, counted'⟩ := ih counted inserted
            rw [List.append_assoc] at stored counted'
            exact ⟨by rw [if_neg (by simp [free])]; exact stored, counted'⟩

theorem count_delete {pending : PendingIds} {heap : Option KeyedHeap} (seen : List Int)
    {keys : List Int} (sized : ∀ id ∈ keys, Sized64 id) (key : Key) :
    (delete heap pending seen keys).count heap key =
      if key ∈ (keys.filter (· ∉ seen)).map keyOf then pending.count heap key - 1
      else pending.count heap key := by
  induction keys generalizing pending seen with
  | nil => rfl
  | cons id rest ih =>
      have later := fun pending seen => @ih pending seen
        fun other member => sized other (List.mem_cons_of_mem _ member)
      rw [delete]
      by_cases repeated : id ∈ seen
      · rw [if_pos repeated, later, List.filter_cons_of_neg (by simpa using repeated)]
      · rw [if_neg repeated, later, List.filter_cons_of_pos (by simpa using repeated), count_set]
        by_cases mine : key = keyOf id
        · subst mine
          have once : keyOf id ∉ (rest.filter (· ∉ id :: seen)).map keyOf := by
            intro member
            obtain ⟨other, among, same⟩ := List.mem_map.mp member
            obtain ⟨inside, unseen⟩ := List.mem_filter.mp among
            have equal := keyOf_inj (sized other (List.mem_cons_of_mem _ inside))
              (sized id List.mem_cons_self) same
            simp [equal] at unseen
          rw [if_neg once, if_pos rfl, if_pos (List.mem_map_of_mem List.mem_cons_self)]
        · have same : key ∈ (rest.filter (· ∉ id :: seen)).map keyOf ↔
              key ∈ (id :: rest.filter (· ∉ seen)).map keyOf := by
            simp only [List.mem_map, List.mem_filter, List.mem_cons, not_or, decide_eq_true_eq]
            constructor
            · rintro ⟨other, ⟨inside, _, unseen⟩, rfl⟩
              exact ⟨other, .inr ⟨inside, unseen⟩, rfl⟩
            · rintro ⟨other, rfl | ⟨inside, unseen⟩, rfl⟩
              · exact absurd rfl mine
              · exact ⟨other, ⟨inside, fun equal => mine (by rw [equal]), unseen⟩, rfl⟩
          simp only [mine, if_false, same]

theorem counts_delete {pending : PendingIds} {heap : Option KeyedHeap} {rows : List Row}
    {keys : List Int} (counts : pending.Counts heap rows) (sized : ∀ id ∈ keys, Sized64 id) :
    (delete heap pending [] keys).Counts heap (eraseKeys idKey (keys.map keyOf) rows) := fun key => by
  have all : keys.filter (· ∉ ([] : List Int)) = keys := List.filter_eq_self.mpr (by simp)
  rw [count_delete [] sized, all, withKey_eraseKeys]
  split
  · rw [List.length_tail, counts key]
  · exact counts key

/-- Counting rows one by one after a replacement. -/
private theorem counts_fold {step : PendingIds → Row → PendingIds}
    (keyless : ∀ pending row, idKey row = none → step pending row = pending)
    (keyed : ∀ pending row key, idKey row = some key →
      step pending row = pending.set key (pending.count none key + 1))
    {rows before : List Row} {pending : PendingIds} (isReplaced : pending.replaced = true)
    (counts : pending.Counts none before) :
    (rows.foldl step pending).replaced = true ∧
      (rows.foldl step pending).Counts none (before ++ rows) := by
  induction rows generalizing before pending with
  | nil =>
      rw [List.append_nil]
      exact ⟨isReplaced, counts⟩
  | cons row rest ih =>
      rw [List.foldl_cons, ← List.singleton_append, ← List.append_assoc]
      cases ofRow : idKey row with
      | none =>
          rw [keyless pending row ofRow]
          exact ih isReplaced (counts_unkeyed counts ofRow)
      | some key =>
          rw [keyed pending row key ofRow]
          exact ih isReplaced (counts_keyed counts ofRow)

theorem counts_replace (heap : Option KeyedHeap) (rows : List Row) :
    (replace rows).Counts heap rows := by
  have start : PendingIds.Counts ⟨true, []⟩ none [] := fun key => rfl
  obtain ⟨isReplaced, counts⟩ : (replace rows).replaced = true ∧ (replace rows).Counts none rows :=
    counts_fold (by intro pending row keyless; simp [keyless])
      (by intro pending row key ofRow; simp [ofRow]) rfl start
  intro key
  have any : (replace rows).count heap key = (replace rows).count none key := by
    simp only [PendingIds.count, isReplaced, if_true]
  rw [any]
  exact counts key

/-- One checked operation can be applied, and the counts follow it. -/
theorem counts_step {pending next : PendingIds} {heap : Option KeyedHeap} {rows : List Row}
    {op : RowOp} (counts : pending.Counts heap rows) (sized : ∀ id ∈ op.keys, Sized64 id)
    (stepped : pending.step heap op = .ok next) :
    ∃ rows', GuardedRedo.apply idKey rows op.change = .ok rows' ∧ next.Counts heap rows' := by
  cases op with
  | insert table row => exact ⟨_, counts_insert counts stepped⟩
  | insertBatch table added => exact ⟨_, counts_insert counts stepped⟩
  | deleteKeys table keys =>
      cases stepped
      exact ⟨_, rfl, counts_delete counts sized⟩
  | replaceAll table added =>
      cases stepped
      exact ⟨_, rfl, counts_replace heap added⟩

end PendingIds

/-- A group that passes the pre-check can be applied table by table. -/
theorem validated_runs {tables : Tables} {ops : List RowOp} {pending : String → PendingIds}
    {stored : String → List Row} (counts : ∀ table, (pending table).Counts (tables table) (stored table))
    (sized : ∀ op ∈ ops, ∀ id ∈ op.keys, Sized64 id)
    (free : validateInsertIds tables pending ops = .ok ()) (table : String) :
    ∃ final, run (GuardedRedo.apply idKey) (stored table) (changes ops table) = .ok final := by
  induction ops generalizing pending stored with
  | nil => exact ⟨_, rfl⟩
  | cons op rest ih =>
      simp only [validateInsertIds, bind, Except.bind] at free
      cases stepped : (pending op.table).step (tables op.table) op with
      | error error => rw [stepped] at free; cases free
      | ok next =>
          rw [stepped] at free
          obtain ⟨rows', applied, counted⟩ :=
            PendingIds.counts_step (counts op.table) (sized op List.mem_cons_self) stepped
          obtain ⟨final, ran⟩ := @ih _
            (Function.update stored op.table rows')
            (fun other => by
              by_cases same : other = op.table
              · subst same; simpa using counted
              · simpa [same] using counts other)
            (fun other member => sized other (List.mem_cons_of_mem _ member)) free
          by_cases same : op.table = table
          · subst same
            rw [Function.update_self] at ran
            refine ⟨final, ?_⟩
            rw [changes, changesOf_cons_self]
            simp only [run, applied, bind, Except.bind]
            exact ran
          · rw [Function.update_of_ne (Ne.symm same)] at ran
            refine ⟨final, ?_⟩
            rw [changes, changesOf_cons_other rest same]
            exact ran

theorem counts_start (tables : Tables) (table : String) :
    (⟨false, []⟩ : PendingIds).Counts (tables table) (rows tables table) := fun key => by
  rw [rows]
  cases tables table with
  | none => rfl
  | some heap => exact heap.idKeyCount_eq key

/-- An accepted group can be applied. -/
theorem Accepts.applies {rowBytes : Row → Nat} {pageSize : Nat} {tables : Tables} {ops : List RowOp}
    (accepts : Accepts rowBytes pageSize tables ops) :
    ∃ after, run (applyOp rowBytes pageSize) tables ops = .ok after ∧ Paged pageSize after ∧
      ∀ table, run (GuardedRedo.apply idKey) (rows tables table) (changes ops table) =
        .ok (rows after table) :=
  apply_splits.run_ok accepts.paged accepts.fits fun table =>
    validated_runs (counts_start tables) accepts.sized accepts.free table

end ChuSQL.Storage.Tables
