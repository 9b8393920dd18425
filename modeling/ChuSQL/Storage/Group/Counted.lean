import ChuSQL.Storage.Heap.Agreement
import ChuSQL.Storage.Group.Basic

/-! The index of the ids of a heap holds one entry for each row with an id: what each
operation on the heap makes of the ids. -/

set_option autoImplicit false

namespace ChuSQL.Storage.Group

open BTree IndexedHeap SlottedPage

variable {serde : Serde}

/-- The heap stores some pages of rows, and the index of the ids one entry for each row
with an id. Nothing is said of other indexes. -/
structure IdIndexed (serde : Serde) (heap : IndexedHeap) (contents : PageFile HeapPage) : Prop where
  short : heap.file.pageSize ≤ maxPageSize
  stores : Stores serde heap.file contents
  visible : "id" ∉ heap.hiddenColumns
  indexed : ∃ index ∈ heap.indexes, index.column = "id"
  entries : ∀ index ∈ heap.indexes, index.column = "id" →
    index.tree.pairs.Perm (entriesOf "id" (HeapTable.scanPages [] 0 contents.pages))

/-- The keys of some rows in the index of the ids. -/
def idKeysOf (rows : List Row) : List Key := rows.filterMap fun row => rowKey row "id"

def idKeys (contents : PageFile HeapPage) : List Key :=
  idKeysOf ((HeapTable.scanPages [] 0 contents.pages).map (·.2))

/-! ### Looking keys up -/

section Lookup

variable {heap : IndexedHeap} {contents : PageFile HeapPage}

theorem entriesOf_keys (rows : List ((Nat × Nat) × Row)) :
    (entriesOf "id" rows).map (·.1) = idKeysOf (rows.map (·.2)) := by
  rw [entriesOf, idKeysOf, List.map_filterMap, List.filterMap_map]
  refine List.filterMap_congr fun entry _ => ?_
  cases found : rowKey entry.2 "id" <;> simp [found]

theorem IdIndexed.keys (held : IdIndexed serde heap contents) {index : MapIndex} (member : index ∈ heap.indexes)
    (column : index.column = "id") : (index.tree.pairs.map (·.1)).Perm (idKeys contents) := by
  rw [idKeys, ← entriesOf_keys]
  exact (held.entries index member column).map _

theorem getAll_length (tree : Multimap) (key : Key) :
    (tree.getAll key).length = (tree.pairs.map (·.1)).count key := by
  rw [Multimap.getAll, List.length_insertionSort, List.length_map, List.count, List.countP_map,
    ← List.countP_eq_length_filter]
  refine List.countP_congr fun pair _ => ?_
  simp

theorem mem_getAll {tree : Multimap} {key : Key} {position : Nat} :
    position ∈ tree.getAll key ↔ (key, position) ∈ tree.pairs := by
  rw [Multimap.getAll, List.mem_insertionSort, List.mem_map]
  constructor
  · rintro ⟨pair, member, rfl⟩
    obtain ⟨inside, same⟩ := List.mem_filter.mp member
    rw [decide_eq_true_eq] at same
    rwa [← same]
  · exact fun member => ⟨_, List.mem_filter.mpr ⟨member, by simp⟩, rfl⟩

theorem get_isSome (tree : Multimap) (key : Key) : (tree.get key).isSome = true ↔ key ∈ tree.pairs.map (·.1) := by
  rw [Multimap.get, List.isSome_head?, ← List.count_pos_iff, ← getAll_length, List.length_pos_iff]

/-- The precheck reads how many rows have the key. -/
theorem IdIndexed.idKeyCount (held : IdIndexed serde heap contents) (key : Key) :
    idKeyCount heap key = .ok ((idKeys contents).count key) := by
  rw [Group.idKeyCount]
  cases found : heap.indexes.find? fun index => index.column = "id" with
  | none =>
      obtain ⟨index, member, column⟩ := held.indexed
      exact absurd (by simpa using column) (List.find?_eq_none.mp found index member)
  | some index =>
      have column : index.column = "id" := by simpa using List.find?_some found
      dsimp only
      rw [getAll_length, (held.keys (List.mem_of_find?_eq_some found) column).count_eq]

end Lookup

end ChuSQL.Storage.Group
