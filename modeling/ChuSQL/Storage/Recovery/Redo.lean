import ChuSQL.Storage.Recovery.Precheck

/-! Replay of a committed group, from the tables before it and from the tables
it led to. -/

set_option autoImplicit false

namespace ChuSQL.Storage.Tables

open BTree Library Library.GuardedRedo

/-- The ids that a group deletes from a table. -/
def deletedIds (ops : List RowOp) (table : String) : List Int :=
  (ops.filter fun op => op.table = table).flatMap RowOp.keys

/-- The ids that the group deletes tell rows apart: at most one row has such an
id, and no other value of an id column has its key. -/
structure Distinct (tables : Tables) (ops : List RowOp) : Prop where
  stored : AllPlain (deletedIds ops) tables
  written : ∀ op ∈ ops, ∀ row ∈ op.rows, Plain (deletedIds ops op.table) row
  unique : ∀ table, ∀ id ∈ deletedIds ops table,
    (withKey idKey (keyOf id) (rows tables table)).length ≤ 1

/-- Replaying the group leads to the rows of a result, whatever their order. -/
def Restores (rowBytes : Row → Nat) (pageSize : Nat) (ops : List RowOp) (start result : Tables) :
    Prop :=
  ∃ final, run (replayOp rowBytes pageSize) start ops = .ok final ∧
    ∀ table, (rows final table).Perm (rows result table)

variable {rowBytes : Row → Nat} {pageSize : Nat} {tables after : Tables} {ops : List RowOp}

theorem mem_deletedIds {op : RowOp} (member : op ∈ ops) : op.keys ⊆ deletedIds ops op.table :=
  fun _ id => List.mem_flatMap.mpr ⟨op, List.mem_filter.mpr ⟨member, by simp⟩, id⟩

theorem mem_changes {table : String} {change : Change Row Key} (member : change ∈ changes ops table) :
    ∃ op ∈ ops, op.table = table ∧ op.change = change := by
  obtain ⟨op, kept, rfl⟩ := List.mem_map.mp member
  obtain ⟨inside, same⟩ := List.mem_filter.mp kept
  exact ⟨op, inside, by simpa using same, rfl⟩

theorem Distinct.permitted (distinct : Distinct tables ops)
    (accepts : Accepts rowBytes pageSize tables ops) :
    ∀ op ∈ ops, Permitted rowBytes pageSize (deletedIds ops) op := fun op member =>
  ⟨accepts.fits op member, distinct.written op member, mem_deletedIds member, accepts.sized op member⟩

/-- Rows stay plain under a group of plain operations. -/
theorem allPlain_after {ids : String → List Int} (stored : AllPlain ids tables)
    (written : ∀ op ∈ ops, ∀ row ∈ op.rows, Plain (ids op.table) row)
    (applied : ∀ table, run (GuardedRedo.apply idKey) (rows tables table) (changes ops table) =
      .ok (rows after table)) : AllPlain ids after := by
  intro table row member
  rcases run_apply_mem (applied table) member with before | ⟨change, inside, isWritten⟩
  · exact stored table row before
  · obtain ⟨op, listed, rfl, rfl⟩ := mem_changes inside
    rw [change_rows] at isWritten
    exact written op listed row isWritten

/-- Replay from plain tables succeeds with some rows exactly if redo does on every table. -/
theorem restores_iff (permitted : ∀ op ∈ ops, Permitted rowBytes pageSize (deletedIds ops) op)
    {start result : Tables} (paged : Paged pageSize start)
    (plain : AllPlain (deletedIds ops) start) :
    Restores rowBytes pageSize ops start result ↔ ∀ table, ∃ final,
      run (GuardedRedo.redo idKey) (rows start table) (changes ops table) = .ok final ∧
        final.Perm (rows result table) :=
  (replay_splits (deletedIds ops)).run_iff ⟨paged, plain⟩ permitted
    fun table final => final.Perm (rows result table)

theorem deletes_changes {table : String} {key : Key}
    (deletes : ∃ change ∈ changes ops table, change.Deletes key) :
    ∃ id ∈ deletedIds ops table, keyOf id = key := by
  obtain ⟨change, member, deletes⟩ := deletes
  obtain ⟨op, listed, rfl, rfl⟩ := mem_changes member
  cases op with
  | deleteKeys table keys =>
      obtain ⟨id, inside, rfl⟩ := List.mem_map.mp deletes
      exact ⟨id, mem_deletedIds listed inside, rfl⟩
  | insert _ _ | insertBatch _ _ | replaceAll _ _ => exact deletes.elim

def noteRow : Row := ⟨[("note", .string "a")], List.pairwise_singleton _ _⟩

theorem idRow_sorted (id : Int) :
    [("id", Json.number (.int id))].Pairwise fun first second => first.1 < second.1 :=
  List.pairwise_singleton _ _

def idRow (id : Int) : Row := ⟨[("id", .number (.int id))], idRow_sorted id⟩

/-- One table with a page of rows. -/
def single (name : String) (rows : List Row) : Tables :=
  Function.update (fun _ => none) name (some ⟨4096, [⟨rows.map some⟩]⟩)

theorem single_paged (name : String) (rows : List Row) : Paged 4096 (single name rows) := by
  intro table heap found
  rw [single, Function.update_apply] at found
  split at found
  · cases found; rfl
  · cases found

theorem rows_single_other {name table : String} (other : table ≠ name) (stored : List Row) :
    rows (single name stored) table = [] := by
  rw [rows, single, Function.update_of_ne other]
  rfl

/-- The run whose rows are known does not restore others. -/
theorem not_restores {start result : Tables} (table : String) (left : List Row)
    (replayed : (run (replayOp rowBytes pageSize) start ops).map (fun final => rows final table) =
      .ok left) (different : ¬left.Perm (rows result table)) :
    ¬Restores rowBytes pageSize ops start result := by
  rintro ⟨final, ran, same⟩
  rw [ran] at replayed
  obtain rfl := Except.ok.inj replayed
  exact different (same table)

/-- A batch, one row of which is deleted again. -/
def tornBatch : List RowOp := [.insertBatch "t" [idRow 1, idRow 2], .deleteKeys "t" [1]]

end ChuSQL.Storage.Tables
