import ChuSQL.Storage.BTree.FirstLeaf
import ChuSQL.Storage.Heap.Basic

/-! Reopening a table. An index that is taken for empty is filled from the heap,
so an emptiness test that is wrong duplicates what the index still holds. -/

set_option autoImplicit false

namespace ChuSQL.Storage

open BTree Library

namespace HeapTable

/-- What an index of the column should hold: one entry for each row with a key. -/
def rowEntries (file : PageFile HeapPage) (column : String) : List (Key × Nat) :=
  (scanPages [] 0 file.pages).filterMap fun ((page, slot), row) =>
    (rowKey row column).map fun key => (key, packPosition page slot)

/-- Every index holds exactly the entries of the rows. -/
def Exact (table : HeapTable) : Prop :=
  ∀ index ∈ table.indexes, ∃ entries, index.tree.iterAll = .ok entries ∧
    entries.Perm (rowEntries table.file index.column)

/-- Close a flushed table and open its files again. -/
def reopen (table : HeapTable) (order : Nat) : Except IoError HeapTable :=
  openWithIndexes table.file (table.indexes.map fun index => (index.column, index.tree.file)) order

/-- A file that holds a tree opens as that tree. -/
theorem openFile_filled {pageSize order : Nat} {disk : DiskBTree}
    (filled : Filled pageSize order disk) : DiskBTree.openFile disk.file order = .ok disk := by
  obtain ⟨rfl, rfl, content, holds, _⟩ := filled
  have positive := holds.pages_pos
  obtain ⟨layout, ⟨maxKey, least, most, found⟩, _⟩ := holds
  have checked : checkMeta (.header disk.file.pageSize maxKey content.rootId disk.order)
      disk.file.pageSize disk.order = .ok () := by
    simp only [checkMeta, ne_eq, not_true_eq_false, or_self, ↓reduceIte]
    rw [if_neg (by omega)]
  have some' : ¬ disk.file.pages.length = 0 := by omega
  simp [DiskBTree.openFile, layout.fits, some', PageFile.withPage_of_getElem? found, checked, bind,
    Except.bind]

theorem fillTree_keyless {column : String} (tree : DiskBTree) :
    ∀ (rows : List ((Nat × Nat) × Row)), (∀ entry ∈ rows, rowKey entry.2 column = none) →
      fillTree column tree rows = .ok tree
  | [], _ => rfl
  | ((page, slot), row) :: rest, keyless => by
      have none := keyless _ List.mem_cons_self
      simp only [fillTree, none]
      exact fillTree_keyless tree rest fun entry member => keyless entry (List.mem_cons_of_mem _ member)

theorem updateIndex_unchanged {table : HeapTable} {column : String}
    {change : DiskBTree → Except IoError DiskBTree}
    (same : ∀ tree, change tree = .ok tree) : table.updateIndex column change = .ok table := by
  have each : ∀ indexes : List NamedIndex, updateIndex.go column change indexes = .ok indexes := by
    intro indexes
    induction indexes with
    | nil => rfl
    | cons index rest ih =>
        simp only [updateIndex.go, same, ih, bind, Except.bind]
        split <;> rfl
  simp only [updateIndex, each, bind, Except.bind]

/-- Attaching one more index of a filled, exact table changes nothing else. -/
theorem openIndex_exact {pageSize order : Nat} {table : HeapTable} {index : NamedIndex}
    (plain : table.hiddenColumns = [])
    (filled : ∀ other ∈ table.indexes ++ [index], Filled pageSize order other.tree)
    (exact' : ∀ other ∈ table.indexes ++ [index], ∃ entries, other.tree.iterAll = .ok entries ∧
      entries.Perm (rowEntries table.file other.column)) :
    table.openIndex index.column index.tree.file order =
      .ok { table with indexes := table.indexes ++ [index] } := by
  have opened := openFile_filled (filled index (by simp))
  have attached : table.attachIndex index.column index.tree.file order =
      .ok { table with indexes := table.indexes ++ [index] } := by
    simp only [attachIndex, opened, bind, Except.bind]
  obtain ⟨found, isFound⟩ : ∃ found, (table.indexes ++ [index]).find?
      (fun other => decide (other.column = index.column)) = some found := by
    rw [← Option.isSome_iff_exists, List.find?_isSome]
    exact ⟨index, by simp, by simp⟩
  have member := List.mem_of_find?_eq_some isFound
  have column : found.column = index.column := by simpa using List.find?_some isFound
  obtain ⟨answer, entries, answered, listed, exactly⟩ := (filled found member).isEmpty
  obtain ⟨entries', listed', perm⟩ := exact' found member
  obtain rfl : entries = entries' := Except.ok.inj (listed.symm.trans listed')
  simp only [openIndex, attached, indexEmpty, findIndex, isFound, answered, bind, Except.bind]
  cases answer with
  | false => rfl
  | true =>
      have none : rowEntries table.file index.column = [] := by
        rw [exactly.mp rfl, column] at perm
        exact perm.nil_eq.symm
      simp only [↓reduceIte, fillIndex]
      refine updateIndex_unchanged fun tree => fillTree_keyless tree _ fun entry among => ?_
      simp only [scanWithPositions, plain] at among
      simp only [rowEntries, List.filterMap_eq_nil_iff] at none
      simpa using none entry among

/-- If every index tree was reached by steps that keep the first leaf, and every
index is exact, reopening gives the same table back. -/
theorem reopen_exact {pageSize order : Nat} (accepted : validateLayout pageSize order = .ok ())
    (table : HeapTable) (reached : ∀ index ∈ table.indexes, Reached pageSize order index.tree)
    (exact' : table.Exact) :
    table.reopen order = .ok { table with hiddenColumns := [] } := by
  have each : ∀ (rest before : List NamedIndex), table.indexes = before ++ rest →
      openIndexes ⟨[], table.file, before⟩
        (rest.map fun index => (index.column, index.tree.file)) order =
          .ok { table with hiddenColumns := [] } := by
    intro rest
    induction rest with
    | nil =>
        intro before split
        rw [List.append_nil] at split
        simp only [List.map_nil, openIndexes, split]
    | cons index rest ih =>
        intro before split
        have within : ∀ other ∈ before ++ [index], other ∈ table.indexes := by
          intro other member
          rw [split]
          rcases List.mem_append.mp member with earlier | here
          · exact List.mem_append_left _ earlier
          · exact List.mem_append_right _ (by simpa using Or.inl (List.mem_singleton.mp here))
        have opened := @openIndex_exact _ _ ⟨[], table.file, before⟩ _ rfl
          (fun other member => (reached other (within other member)).filled accepted)
          (fun other member => exact' other (within other member))
        simp only [List.map_cons, openIndexes, opened, bind, Except.bind]
        exact ih (before ++ [index]) (by simp [split])
  exact each table.indexes [] rfl

/-- Runs that keep the first leaf: the emptiness test is right in every state
reached, and a table with such indexes is reopened with exactly its entries. -/
theorem first_leaf_runs_reopen {pageSize order : Nat}
    (accepted : validateLayout pageSize order = .ok ()) :
    (∀ disk, Reached pageSize order disk → ∃ answer entries, disk.isEmpty = .ok answer ∧
      disk.iterAll = .ok entries ∧ (answer = true → entries = [])) ∧
    ∀ table : HeapTable, (∀ index ∈ table.indexes, Reached pageSize order index.tree) →
      table.Exact → ∃ table', table.reopen order = .ok table' ∧ table'.file = table.file ∧
        table'.indexes.map (·.column) = table.indexes.map (·.column) ∧ table'.Exact := by
  refine ⟨fun disk reached => ?_, fun table reached exact' => ?_⟩
  · obtain ⟨answer, entries, answered, listed, exactly⟩ := (reached.filled accepted).isEmpty
    exact ⟨answer, entries, answered, listed, exactly.mp⟩
  · exact ⟨_, reopen_exact accepted table reached exact', rfl, rfl, exact'⟩

theorem first_leaf_runs_reopen_single :
    ∃ tree, run Op.apply ⟨⟨4096, [.header 4096 128 0 4]⟩, 4⟩ [.insert (keyOf 1) 0] = .ok tree ∧
      ∃ table', reopen ⟨[], ⟨4096, [⟨[some ⟨[("id", .number (.int 1))], by decide⟩]⟩]⟩,
        [⟨"id", tree⟩]⟩ 4 = .ok table' ∧ table'.Exact := by
  have reached : Reached 4096 4 ⟨⟨4096, [.header 4096 128 1 4, .cells .leaf 0 [(keyOf 1, 0)]]⟩, 4⟩ :=
    ⟨⟨⟨4096, [.header 4096 128 0 4]⟩, 4⟩, [.insert (keyOf 1) 0], by decide +kernel,
      by decide, by decide +kernel, by decide +kernel⟩
  obtain ⟨table', reopened, _, _, exact'⟩ :=
    (@first_leaf_runs_reopen 4096 4 (by decide)).2
      ⟨[], ⟨4096, [⟨[some ⟨[("id", .number (.int 1))], by decide⟩]⟩]⟩, [⟨"id", _⟩]⟩
      (by simpa using reached) (by
        intro index member
        obtain rfl := List.mem_singleton.mp member
        exact ⟨[(keyOf 1, 0)], by decide +kernel, by decide +kernel⟩)
  exact ⟨_, by decide +kernel, table', reopened, exact'⟩

/-- Four rows, the first two deleted: the index keeps two entries in its second
leaf, passes for empty, and is filled a second time. -/
theorem drained_first_leaf_duplicates :
    let ops : List Op := [.insert (keyOf 1) 0, .insert (keyOf 2) 1, .insert (keyOf 3) 2,
      .insert (keyOf 4) 3, .delete (keyOf 1) 0, .delete (keyOf 2) 1]
    let file : PageFile HeapPage := ⟨defaultPageSize, [⟨[none, none,
      some ⟨[("id", .number (.int 3))], by decide⟩, some ⟨[("id", .number (.int 4))], by decide⟩]⟩]⟩
    ∃ tree, (do
        let tree ← DiskBTree.create defaultPageSize defaultBtreeOrder
        run Op.apply tree ops) = .ok tree ∧
      (tree.isEmpty = .ok true ∧ tree.iterAll = .ok [(keyOf 3, 2), (keyOf 4, 3)]) ∧
      Exact ⟨[], file, [⟨"id", tree⟩]⟩ ∧
      ∃ table', reopen ⟨[], file, [⟨"id", tree⟩]⟩ defaultBtreeOrder = .ok table' ∧
        ¬ table'.Exact := by
  intro ops file
  refine ⟨⟨⟨4096, [.header 4096 128 3 4, .cells .leaf 2 [],
    .cells .leaf 0 [(keyOf 3, 2), (keyOf 4, 3)], .cells .internal 2 [(keyOf 3, 1)]]⟩, 4⟩,
    by decide +kernel, by decide +kernel, ?_, ?_⟩
  · intro index member
    obtain rfl := List.mem_singleton.mp member
    exact ⟨[(keyOf 3, 2), (keyOf 4, 3)], by decide +kernel, by decide +kernel⟩
  · refine ⟨⟨[], file, [⟨"id", ⟨⟨4096, [.header 4096 128 3 4, .cells .leaf 2 [],
      .cells .leaf 4 [(keyOf 3, 2), (keyOf 3, 2)], .cells .internal 4 [(keyOf 3, 1), (keyOf 4, 2)],
      .cells .leaf 0 [(keyOf 4, 3), (keyOf 4, 3)]]⟩, 4⟩⟩]⟩, by decide +kernel, fun exact' => ?_⟩
    obtain ⟨entries, listed, perm⟩ := exact' _ List.mem_cons_self
    have twice : DiskBTree.iterAll ⟨⟨4096, [.header 4096 128 3 4, .cells .leaf 2 [],
        .cells .leaf 4 [(keyOf 3, 2), (keyOf 3, 2)], .cells .internal 4 [(keyOf 3, 1), (keyOf 4, 2)],
        .cells .leaf 0 [(keyOf 4, 3), (keyOf 4, 3)]]⟩, 4⟩ =
          .ok [(keyOf 3, 2), (keyOf 3, 2), (keyOf 4, 3), (keyOf 4, 3)] := by decide +kernel
    obtain rfl := Except.ok.inj (twice.symm.trans listed)
    exact absurd perm.length_eq (by decide +kernel)

end HeapTable

end ChuSQL.Storage
