import ChuSQL.Storage.Heap.Reopen

/-! A heap table with its id index taken as what it stands for: the sorted
multimap of the ids of the rows. So it is after the index was rebuilt from the
heap. Scanning it, the row operations are those of lists of rows with keys. -/

set_option autoImplicit false

namespace ChuSQL.Storage

open BTree Library.GuardedRedo

/-- The key of a row in the id index. -/
def idKey (row : Row) : Option Key := rowKey row "id"

structure KeyedHeap where
  file : PageFile HeapPage
deriving DecidableEq

namespace KeyedHeap

def table (heap : KeyedHeap) : HeapTable := ⟨[], heap.file, []⟩

def scanWithPositions (heap : KeyedHeap) : List ((Nat × Nat) × Row) := heap.table.scanWithPositions

def scan (heap : KeyedHeap) : List Row := heap.table.scan

/-- The id index: all positions of a key, in their order. -/
def getAll (heap : KeyedHeap) (key : Key) : List (Nat × Nat) :=
  (heap.scanWithPositions.filter fun entry => idKey entry.2 = some key).map (·.1)

def get (heap : KeyedHeap) (key : Key) : Option (Nat × Nat) := (heap.getAll key).head?

/-- How many rows have the key. -/
def idKeyCount (heap : KeyedHeap) (key : Key) : Nat := (heap.getAll key).length

section Insert

variable (rowBytes : Row → Nat)

def insertRow (heap : KeyedHeap) (row : Row) : Except IoError KeyedHeap :=
  if ∃ key ∈ idKey row, (heap.get key).isSome then .error ⟨.invalidInput, duplicateId⟩
  else do
    let (_, table) ← heap.table.insertReturningPosition rowBytes row
    .ok ⟨table.file⟩

def insertRows : KeyedHeap → List Row → Except IoError KeyedHeap
  | heap, [] => .ok heap
  | heap, row :: rest => do
      let heap ← insertRow rowBytes heap row
      insertRows heap rest

def replaceAll (heap : KeyedHeap) (rows : List Row) : Except IoError KeyedHeap := do
  let table ← heap.table.replaceAll rowBytes rows
  .ok ⟨table.file⟩

end Insert

/-- Delete the first row of each id and return the deleted rows. -/
def deleteByKeys (heap : KeyedHeap) (keys : List Int) : Except IoError (List Row × KeyedHeap) := do
  let positions := keys.filterMap fun id => heap.get (keyOf id)
  let (deleted, table) ← heap.table.deletePositions positions
  .ok (deleted, ⟨table.file⟩)

end KeyedHeap

/-! ### Scans -/

theorem Row.filter_all (row : Row) : (row.filter fun column => column ∉ ([] : List String)) = row := by
  cases row
  simp [Row.filter]

namespace HeapTable

/-- The rows of one page, from a slot on. -/
def pageEntries (pageId slot : Nat) (slots : List (Option Row)) : List ((Nat × Nat) × Row) :=
  (slots.zipIdx slot).filterMap fun (tuple, slot) => tuple.map fun row => ((pageId, slot), row)

theorem scanPages_cons (pageId : Nat) (page : HeapPage) (rest : List HeapPage) :
    scanPages [] pageId (page :: rest) =
      pageEntries pageId 0 page.slots ++ scanPages [] (pageId + 1) rest := by
  simp only [scanPages, pageEntries, Row.filter_all]

theorem scanPages_append (pageId : Nat) (first second : List HeapPage) :
    scanPages [] pageId (first ++ second) =
      scanPages [] pageId first ++ scanPages [] (pageId + first.length) second := by
  induction first generalizing pageId with
  | nil => rfl
  | cons page first ih =>
      rw [List.cons_append, scanPages_cons, scanPages_cons, ih, List.append_assoc, List.length_cons]
      rw [show pageId + 1 + first.length = pageId + (first.length + 1) by omega]

theorem pageEntries_append (pageId slot : Nat) (first second : List (Option Row)) :
    pageEntries pageId slot (first ++ second) =
      pageEntries pageId slot first ++ pageEntries pageId (slot + first.length) second := by
  simp only [pageEntries, List.zipIdx_append, List.filterMap_append]

theorem mem_pageEntries {pageId slot : Nat} {slots : List (Option Row)} {entry : (Nat × Nat) × Row}
    (member : entry ∈ pageEntries pageId slot slots) :
    entry.1.1 = pageId ∧ slot ≤ entry.1.2 := by
  obtain ⟨⟨tuple, index⟩, inside, made⟩ := List.mem_filterMap.mp member
  obtain ⟨row, _, rfl⟩ := Option.map_eq_some_iff.mp made
  exact ⟨rfl, (List.mem_zipIdx inside).1⟩

theorem mem_scanPages {pageId : Nat} {pages : List HeapPage} {entry : (Nat × Nat) × Row}
    (member : entry ∈ scanPages [] pageId pages) : pageId ≤ entry.1.1 := by
  induction pages generalizing pageId with
  | nil => cases member
  | cons page rest ih =>
      rw [scanPages_cons] at member
      rcases List.mem_append.mp member with here | later
      · exact (mem_pageEntries here).1.ge
      · have := ih later; omega

theorem mem_scanPages_lt {pageId : Nat} {pages : List HeapPage} {entry : (Nat × Nat) × Row}
    (member : entry ∈ scanPages [] pageId pages) : entry.1.1 < pageId + pages.length := by
  induction pages generalizing pageId with
  | nil => cases member
  | cons page rest ih =>
      rw [scanPages_cons] at member
      rw [List.length_cons]
      rcases List.mem_append.mp member with here | later
      · have same := (mem_pageEntries here).1
        omega
      · have below := ih later
        omega

/-- Emptying a slot takes its entry out. -/
theorem pageEntries_set_none (pageId slot offset : Nat) (slots : List (Option Row)) :
    pageEntries pageId offset (slots.set slot none) =
      (pageEntries pageId offset slots).filter (·.1 ≠ (pageId, offset + slot)) := by
  induction slots generalizing slot offset with
  | nil => rfl
  | cons tuple rest ih =>
      have cons : ∀ tuple rest, pageEntries pageId offset (tuple :: rest) =
          pageEntries pageId offset [tuple] ++ pageEntries pageId (offset + 1) rest :=
        fun tuple rest => pageEntries_append pageId offset [tuple] rest
      cases slot with
      | zero =>
          rw [List.set_cons_zero, cons, cons tuple rest, List.filter_append]
          have later : (pageEntries pageId (offset + 1) rest).filter
              (·.1 ≠ (pageId, offset + 0)) = pageEntries pageId (offset + 1) rest := by
            refine List.filter_eq_self.mpr fun entry member => ?_
            have above := (mem_pageEntries member).2
            simp only [ne_eq, decide_not, Bool.not_eq_true', decide_eq_false_iff_not]
            intro same
            rw [same] at above
            omega
          rw [later]
          cases tuple <;> simp [pageEntries]
      | succ slot =>
          rw [List.set_cons_succ, cons, cons tuple rest, List.filter_append, ih]
          have here : (pageEntries pageId offset [tuple]).filter
              (·.1 ≠ (pageId, offset + (slot + 1))) = pageEntries pageId offset [tuple] := by
            cases tuple <;> simp [pageEntries]
          rw [here, show offset + 1 + slot = offset + (slot + 1) by omega]

theorem scanPages_set_none {pageId page slot : Nat} {pages : List HeapPage} {heapPage : HeapPage}
    (found : pages[page]? = some heapPage) :
    scanPages [] pageId (pages.set page ⟨heapPage.slots.set slot none⟩) =
      (scanPages [] pageId pages).filter (·.1 ≠ (pageId + page, slot)) := by
  induction pages generalizing pageId page with
  | nil => cases found
  | cons first rest ih =>
      cases page with
      | zero =>
          obtain rfl : first = heapPage := by simpa using found
          rw [List.set_cons_zero, scanPages_cons, scanPages_cons, List.filter_append,
            pageEntries_set_none]
          have later : (scanPages [] (pageId + 1) rest).filter (·.1 ≠ (pageId + 0, slot)) =
              scanPages [] (pageId + 1) rest := by
            refine List.filter_eq_self.mpr fun entry member => ?_
            have above := mem_scanPages member
            simp only [ne_eq, decide_not, Bool.not_eq_true', decide_eq_false_iff_not]
            intro same
            rw [same] at above
            simp only at above
            omega
          rw [later]
          simp only [Nat.add_zero, Nat.zero_add]
      | succ page =>
          rw [List.set_cons_succ, scanPages_cons, scanPages_cons, List.filter_append,
            ih (by simpa using found)]
          have here : (pageEntries pageId 0 first.slots).filter (·.1 ≠ (pageId + (page + 1), slot)) =
              pageEntries pageId 0 first.slots := by
            refine List.filter_eq_self.mpr fun entry member => ?_
            have same := (mem_pageEntries member).1
            simp only [ne_eq, decide_not, Bool.not_eq_true', decide_eq_false_iff_not]
            intro equal
            rw [equal] at same
            simp only at same
            omega
          rw [here, show pageId + 1 + page = pageId + (page + 1) by omega]

/-- Positions are all different. -/
theorem scanPages_nodup (pageId : Nat) (pages : List HeapPage) :
    ((scanPages [] pageId pages).map (·.1)).Nodup := by
  have page : ∀ pageId slot slots, ((pageEntries pageId slot slots).map (·.1)).Nodup := by
    intro pageId slot slots
    induction slots generalizing slot with
    | nil => exact List.nodup_nil
    | cons tuple rest ih =>
        rw [← List.singleton_append, pageEntries_append, List.map_append, List.nodup_append]
        refine ⟨by cases tuple <;> simp [pageEntries], ih _, ?_⟩
        intro position first other second same
        obtain ⟨entry, member, rfl⟩ := List.mem_map.mp second
        have above := (mem_pageEntries member).2
        obtain ⟨here, inside, rfl⟩ := List.mem_map.mp first
        cases tuple with
        | none => simp [pageEntries] at inside
        | some row =>
            obtain rfl : here = ((pageId, slot), row) := by simpa [pageEntries] using inside
            rw [← same] at above
            simp only [List.length_cons, List.length_nil] at above
            omega
  induction pages generalizing pageId with
  | nil => exact List.nodup_nil
  | cons first rest ih =>
      rw [scanPages_cons, List.map_append, List.nodup_append]
      refine ⟨page pageId 0 first.slots, ih _, ?_⟩
      intro position here other later same
      obtain ⟨entry, member, rfl⟩ := List.mem_map.mp here
      obtain ⟨second, beyond, rfl⟩ := List.mem_map.mp later
      have first := (mem_pageEntries member).1
      have above := mem_scanPages beyond
      rw [← same] at above
      omega

/-- A stored row is the last one of the scan. -/
theorem scan_insertReturningPosition {rowBytes : Row → Nat} {table next : HeapTable} {row : Row}
    {position : Nat × Nat} (plain : table.hiddenColumns = [])
    (inserted : table.insertReturningPosition rowBytes row = .ok (position, next)) :
    next.scanWithPositions = table.scanWithPositions ++ [(position, row)] ∧
      next.hiddenColumns = [] ∧ next.indexes = table.indexes := by
  obtain ⟨hidden, file, indexes⟩ := table
  obtain rfl : hidden = [] := plain
  simp only [insertReturningPosition, bind, Except.bind] at inserted
  cases encoded : encodeRow rowBytes file.pageSize row with
  | error error => simp only [encoded] at inserted; cases inserted
  | ok _ =>
      simp only [encoded] at inserted
      cases placed : file.pages[file.numPages - 1]?.bind
          (fun page => page.insertTuple rowBytes file.pageSize row) with
      | none =>
          simp only [placed] at inserted
          cases inserted
          refine ⟨?_, rfl, rfl⟩
          simp only [scanWithPositions, PageFile.appendPage, PageFile.numPages_eq, scanPages_append,
            Nat.zero_add, scanPages_cons]
          rfl
      | some result =>
          obtain ⟨slot, page⟩ := result
          simp only [placed] at inserted
          cases inserted
          obtain ⟨old, found, fitted⟩ := Option.bind_eq_some_iff.mp placed
          simp only [HeapPage.insertTuple] at fitted
          split at fitted
          · cases fitted
          · cases fitted
            simp only [PageFile.numPages_eq] at found
            obtain ⟨front, pages⟩ : ∃ front, file.pages = front ++ [old] := by
              obtain ⟨front, last, split⟩ := List.eq_nil_or_concat file.pages |>.resolve_left
                (fun none => by rw [none] at found; cases found)
              refine ⟨front, ?_⟩
              rw [split, List.concat_eq_append] at found ⊢
              simp only [List.length_append, List.length_singleton, Nat.add_sub_cancel] at found
              rw [List.getElem?_append_right (Nat.le_refl _)] at found
              simpa using found
            have length : file.pages.length - 1 = front.length := by rw [pages]; simp
            refine ⟨?_, rfl, rfl⟩
            simp only [scanWithPositions, PageFile.numPages_eq]
            rw [length, pages, List.set_append_right _ _ (Nat.le_refl _), Nat.sub_self,
              List.set_cons_zero, scanPages_append, scanPages_append, scanPages_cons,
              scanPages_cons, pageEntries_append]
            simp [scanPages, pageEntries, HeapPage.slotCount]

/-- A deletion takes the entry at its position out of the scan. -/
theorem deleteAt_scan {file : PageFile HeapPage} {page slot : Nat}
    (inside : page < file.pages.length) :
    ∃ row next, deleteAt ⟨[], file, []⟩ page slot = .ok (row, ⟨[], next, []⟩) ∧
      scanPages [] 0 next.pages = (scanPages [] 0 file.pages).filter (·.1 ≠ (page, slot)) ∧
      next.pages.length = file.pages.length ∧ next.pageSize = file.pageSize := by
  have found : file.pages[page]? = some file.pages[page] := List.getElem?_eq_getElem inside
  have erased := @scanPages_set_none 0 _ slot _ _ found
  rw [Nat.zero_add] at erased
  cases tuple : file.pages[page].tuple slot with
  | none =>
      have same : file.pages[page].slots.set slot none = file.pages[page].slots := by
        rw [HeapPage.tuple] at tuple
        by_cases beyond : slot < file.pages[page].slots.length
        · rw [List.getElem?_eq_getElem beyond] at tuple
          have empty : file.pages[page].slots[slot] = none := by simpa using tuple
          rw [← empty, List.set_getElem_self]
        · exact List.set_eq_of_length_le (by omega)
      rw [same] at erased
      refine ⟨none, { file with pages := file.pages.set page file.pages[page] }, ?_, erased, by simp,
        rfl⟩
      simp only [deleteAt, readAt, PageFile.withPage_of_getElem? found, found, bind, Except.bind,
        HeapPage.deleteTuple, tuple]
      rfl
  | some row =>
      refine ⟨some (row.filter fun column => column ∉ []),
        { file with pages := file.pages.set page ⟨file.pages[page].slots.set slot none⟩ }, ?_,
        erased, by simp, rfl⟩
      simp only [deleteAt, readAt, PageFile.withPage_of_getElem? found, found, bind, Except.bind,
        HeapPage.deleteTuple, tuple]
      rfl

theorem deletePositions_scan {file : PageFile HeapPage} {positions : List (Nat × Nat)}
    (inside : ∀ position ∈ positions, position.1 < file.pages.length) :
    ∃ deleted next, deletePositions ⟨[], file, []⟩ positions = .ok (deleted, ⟨[], next, []⟩) ∧
      scanPages [] 0 next.pages = (scanPages [] 0 file.pages).filter (·.1 ∉ positions) ∧
      next.pages.length = file.pages.length ∧ next.pageSize = file.pageSize := by
  induction positions generalizing file with
  | nil => exact ⟨[], file, rfl, (List.filter_eq_self.mpr (by simp)).symm, rfl, rfl⟩
  | cons position rest ih =>
      obtain ⟨page, slot⟩ := position
      obtain ⟨row, next, deleted, erased, length, size⟩ :=
        @deleteAt_scan _ _ slot (inside _ List.mem_cons_self)
      obtain ⟨rows, final, later, erased', length', size'⟩ := ih
        fun other member => by rw [length]; exact inside other (List.mem_cons_of_mem _ member)
      refine ⟨row.toList ++ rows, final, ?_, ?_, length'.trans length, size'.trans size⟩
      · simp only [deletePositions, deleted, later, bind, Except.bind]
      · rw [erased', erased, List.filter_filter]
        refine List.filter_congr fun entry _ => ?_
        simp [and_comm]

end HeapTable

/-! ### Row operations as operations on lists of rows -/

namespace KeyedHeap

variable {rowBytes : Row → Nat} {heap : KeyedHeap}

theorem scan_eq (heap : KeyedHeap) : heap.scan = heap.scanWithPositions.map (·.2) := rfl

theorem getAll_eq_nil (key : Key) : heap.getAll key = [] ↔ withKey idKey key heap.scan = [] := by
  simp [getAll, withKey, scan_eq, List.filter_map]

theorem idKeyCount_eq (heap : KeyedHeap) (key : Key) :
    heap.idKeyCount key = (withKey idKey key heap.scan).length := by
  simp [idKeyCount, getAll, withKey, scan_eq, List.filter_map, Function.comp_def]

/-- Every row of a list fits on an empty page. -/
def Fits (rowBytes : Row → Nat) (pageSize : Nat) (rows : List Row) : Prop :=
  ∀ row ∈ rows, HeapTable.encodeRow rowBytes pageSize row = .ok ()

instance (rowBytes : Row → Nat) (pageSize : Nat) (rows : List Row) :
    Decidable (Fits rowBytes pageSize rows) :=
  inferInstanceAs (Decidable (∀ row ∈ rows, HeapTable.encodeRow rowBytes pageSize row = .ok ()))

theorem insertReturningPosition_fits {table : HeapTable} {row : Row}
    (fits : HeapTable.encodeRow rowBytes table.file.pageSize row = .ok ()) :
    ∃ position next, table.insertReturningPosition rowBytes row = .ok (position, next) ∧
      next.file.pageSize = table.file.pageSize := by
  simp only [HeapTable.insertReturningPosition, fits, bind, Except.bind]
  cases table.file.pages[table.file.numPages - 1]?.bind
      (fun page => page.insertTuple rowBytes table.file.pageSize row) with
  | none => exact ⟨_, _, rfl, rfl⟩
  | some result => exact ⟨_, _, rfl, rfl⟩

theorem insertRow_scan {row : Row}
    (fits : HeapTable.encodeRow rowBytes heap.file.pageSize row = .ok ())
    (free : ¬∃ k ∈ idKey row, withKey idKey k heap.scan ≠ []) :
    ∃ position next, heap.insertRow rowBytes row = .ok next ∧
      next.scanWithPositions = heap.scanWithPositions ++ [(position, row)] ∧
      next.file.pageSize = heap.file.pageSize := by
  obtain ⟨position, table, inserted, size⟩ := @insertReturningPosition_fits rowBytes heap.table row fits
  obtain ⟨scanned, plain, _⟩ := HeapTable.scan_insertReturningPosition rfl inserted
  have none : ¬∃ key ∈ idKey row, (heap.get key).isSome := by
    rintro ⟨key, ofRow, found⟩
    refine free ⟨key, ofRow, fun empty => ?_⟩
    rw [get, (getAll_eq_nil key).mpr empty] at found
    cases found
  refine ⟨position, ⟨table.file⟩, ?_, ?_, size⟩
  · simp only [insertRow, none, if_false, inserted, bind, Except.bind]
  · rw [scanWithPositions, scanWithPositions, ← scanned]
    simp only [KeyedHeap.table, HeapTable.scanWithPositions, plain]

theorem insertRow_taken {row : Row} (taken : ∃ k ∈ idKey row, withKey idKey k heap.scan ≠ []) :
    heap.insertRow rowBytes row = .error ⟨.invalidInput, duplicateId⟩ := by
  refine if_pos ?_
  obtain ⟨key, ofRow, found⟩ := taken
  refine ⟨key, ofRow, ?_⟩
  rw [get, List.isSome_head?]
  exact fun empty => found ((getAll_eq_nil key).mp empty)

theorem insertRows_scan {rows result : List Row} (fits : Fits rowBytes heap.file.pageSize rows)
    (admitted : Library.GuardedRedo.insertRows idKey heap.scan rows = .ok result) :
    ∃ added next, heap.insertRows rowBytes rows = .ok next ∧
      next.scanWithPositions = heap.scanWithPositions ++ added ∧ added.map (·.2) = rows ∧
      next.file.pageSize = heap.file.pageSize := by
  induction rows generalizing heap with
  | nil => exact ⟨[], heap, rfl, (List.append_nil _).symm, rfl, rfl⟩
  | cons row rest ih =>
      rw [Library.GuardedRedo.insertRows] at admitted
      split at admitted
      · cases admitted
      · next free =>
        obtain ⟨position, middle, inserted, scanned, size⟩ :=
          insertRow_scan (fits row List.mem_cons_self) free
        have scan : middle.scan = heap.scan ++ [row] := by simp [scan_eq, scanned]
        obtain ⟨added, next, later, scanned', rows, size'⟩ := ih
          (by rw [size]; exact fun other member => fits other (List.mem_cons_of_mem _ member))
          (by rw [scan]; exact admitted)
        refine ⟨(position, row) :: added, next, ?_, ?_, ?_, size'.trans size⟩
        · simp only [insertRows, inserted, later, bind, Except.bind]
        · rw [scanned', scanned]; simp
        · rw [List.map_cons, rows]

theorem insertRows_taken {rows : List Row} {row : Row}
    (fits : Fits rowBytes heap.file.pageSize rows)
    (refused : Library.GuardedRedo.insertRows idKey heap.scan rows = .error row) :
    heap.insertRows rowBytes rows = .error ⟨.invalidInput, duplicateId⟩ := by
  induction rows generalizing heap with
  | nil => cases refused
  | cons first rest ih =>
      rw [Library.GuardedRedo.insertRows] at refused
      split at refused
      · next taken => simp only [insertRows, insertRow_taken taken, bind, Except.bind]
      · next free =>
        obtain ⟨position, middle, inserted, scanned, size⟩ :=
          insertRow_scan (fits first List.mem_cons_self) free
        have scan : middle.scan = heap.scan ++ [first] := by simp [scan_eq, scanned]
        simp only [insertRows, inserted, bind, Except.bind]
        exact ih (by rw [size]; exact fun other member => fits other (List.mem_cons_of_mem _ member))
          (by rw [scan]; exact refused)

/-- The first position of a key among positioned rows. -/
private def firstPosition (entries : List ((Nat × Nat) × Row)) (key : Key) : Option (Nat × Nat) :=
  ((entries.filter fun entry => idKey entry.2 = some key).map (·.1)).head?

/-- Taking the first position of each key out is taking the first row out. -/
private theorem erase_positions {entries : List ((Nat × Nat) × Row)} (keys : List Key)
    (distinct : (entries.map (·.1)).Nodup) :
    (entries.filter (·.1 ∉ keys.filterMap (firstPosition entries))).map (·.2) =
      eraseKeys idKey keys (entries.map (·.2)) := by
  induction entries generalizing keys with
  | nil => rfl
  | cons entry rest ih =>
      obtain ⟨apart, distinct⟩ := List.nodup_cons.mp distinct
      have within : ∀ (keys : List Key) position,
          position ∈ keys.filterMap (firstPosition rest) → position ∈ rest.map (·.1) := by
        intro keys position member
        obtain ⟨key, _, first⟩ := List.mem_filterMap.mp member
        obtain ⟨entry, inside, rfl⟩ := List.mem_map.mp (List.mem_of_head? first)
        exact List.mem_map.mpr ⟨entry, List.mem_of_mem_filter inside, rfl⟩
      rw [List.map_cons, eraseKeys]
      cases ofRow : idKey entry.2 with
      | none =>
          have same : firstPosition (entry :: rest) = firstPosition rest := by
            funext key
            rw [firstPosition, List.filter_cons_of_neg (by simp [ofRow])]
            rfl
          have kept : entry.1 ∉ keys.filterMap (firstPosition rest) :=
            fun member => apart (within keys _ member)
          rw [same, List.filter_cons_of_pos (by simpa using kept), List.map_cons, ih keys distinct]
      | some key =>
          have here : firstPosition (entry :: rest) key = some entry.1 := by
            rw [firstPosition, List.filter_cons_of_pos (by simp [ofRow])]
            rfl
          have there : ∀ other, other ≠ key →
              firstPosition (entry :: rest) other = firstPosition rest other := by
            intro other different
            rw [firstPosition, List.filter_cons_of_neg (by simp [ofRow, different.symm])]
            rfl
          by_cases targeted : key ∈ keys
          · have gone : entry.1 ∈ keys.filterMap (firstPosition (entry :: rest)) :=
              List.mem_filterMap.mpr ⟨key, targeted, here⟩
            rw [List.filter_cons_of_neg (by simpa using gone)]
            simp only [targeted, if_true]
            rw [← ih _ distinct]
            refine congrArg (List.map Prod.snd) ?_
            refine List.filter_congr fun other inside => ?_
            have different : other.1 ≠ entry.1 := fun same =>
              apart (List.mem_map.mpr ⟨other, inside, same⟩)
            rw [decide_eq_decide, not_iff_not, List.mem_filterMap, List.mem_filterMap]
            constructor
            · rintro ⟨k, member, first⟩
              have apartKey : k ≠ key := by
                rintro rfl
                rw [here] at first
                exact different (Option.some.inj first).symm
              exact ⟨k, List.mem_filter.mpr ⟨member, by simpa using apartKey⟩,
                by rwa [there k apartKey] at first⟩
            · rintro ⟨k, member, first⟩
              obtain ⟨member, apartKey⟩ := List.mem_filter.mp member
              exact ⟨k, member, by rwa [there k (by simpa using apartKey)]⟩
          · have same : keys.filterMap (firstPosition (entry :: rest)) =
                keys.filterMap (firstPosition rest) :=
              List.filterMap_congr fun k member => there k fun equal => targeted (equal ▸ member)
            have kept : entry.1 ∉ keys.filterMap (firstPosition rest) :=
              fun member => apart (within keys _ member)
            rw [same, List.filter_cons_of_pos (by simpa using kept), List.map_cons, ih keys distinct]
            simp only [targeted, if_false]

theorem deleteByKeys_scan (heap : KeyedHeap) (keys : List Int) :
    ∃ deleted next, heap.deleteByKeys keys = .ok (deleted, next) ∧
      next.scan = eraseKeys idKey (keys.map keyOf) heap.scan ∧
      next.scanWithPositions.Sublist heap.scanWithPositions ∧
      (∀ key ∉ keys.map keyOf, (next.scanWithPositions.filter fun entry => idKey entry.2 = some key) =
        heap.scanWithPositions.filter fun entry => idKey entry.2 = some key) ∧
      next.file.pageSize = heap.file.pageSize := by
  have distinct : (heap.scanWithPositions.map (·.1)).Nodup :=
    HeapTable.scanPages_nodup 0 heap.file.pages
  have positions : (keys.filterMap fun id => heap.get (keyOf id)) =
      (keys.map keyOf).filterMap (firstPosition heap.scanWithPositions) := by
    rw [List.filterMap_map]; rfl
  have inside : ∀ position ∈ keys.filterMap (fun id => heap.get (keyOf id)),
      position.1 < heap.file.pages.length := by
    intro position member
    obtain ⟨id, _, found⟩ := List.mem_filterMap.mp member
    obtain ⟨entry, among, rfl⟩ := List.mem_map.mp (List.mem_of_head? found)
    have below := HeapTable.mem_scanPages_lt (List.mem_of_mem_filter among)
    rwa [Nat.zero_add] at below
  obtain ⟨deleted, next, done, scanned, _, size⟩ := HeapTable.deletePositions_scan inside
  refine ⟨deleted, ⟨next⟩, ?_, ?_, ?_, ?_, size⟩
  · simp only [deleteByKeys]
    rw [KeyedHeap.table, done]
    rfl
  · change (HeapTable.scanPages [] 0 next.pages).map (·.2) = _
    rw [scanned, positions]
    exact erase_positions _ distinct
  · change (HeapTable.scanPages [] 0 next.pages).Sublist _
    rw [scanned]
    exact List.filter_sublist
  · intro key untargeted
    change (HeapTable.scanPages [] 0 next.pages).filter _ = _
    rw [scanned, List.filter_filter]
    refine List.filter_congr fun entry inside => ?_
    -- The deleted positions hold rows with the deleted keys, and positions differ.
    by_cases ofRow : idKey entry.2 = some key
    · have kept : entry.1 ∉ keys.filterMap fun id => heap.get (keyOf id) := by
        intro member
        obtain ⟨id, listed, found⟩ := List.mem_filterMap.mp member
        obtain ⟨other, among, same⟩ := List.mem_map.mp (List.mem_of_head? found)
        obtain ⟨stored, ofOther⟩ := List.mem_filter.mp among
        have equal : other = entry := List.inj_on_of_nodup_map distinct stored inside same
        rw [equal, ofRow] at ofOther
        exact untargeted (List.mem_map.mpr ⟨id, listed, by simpa using (of_decide_eq_true ofOther).symm⟩)
      simp [ofRow, kept]
    · simp [ofRow]

theorem replaceAll_scan {rows : List Row} (fits : Fits rowBytes heap.file.pageSize rows) :
    ∃ next, heap.replaceAll rowBytes rows = .ok next ∧ next.scan = rows ∧
      next.file.pageSize = heap.file.pageSize := by
  have checked : ∀ rows, Fits rowBytes heap.file.pageSize rows →
      HeapTable.checkReplacement rowBytes heap.table rows = .ok () := by
    intro rows fits
    induction rows with
    | nil => rfl
    | cons row rest ih =>
        have here : HeapTable.encodeRow rowBytes heap.table.file.pageSize row = .ok () :=
          fits row List.mem_cons_self
        have later := ih fun other member => fits other (List.mem_cons_of_mem _ member)
        simp only [HeapTable.checkReplacement, here, bind, Except.bind]
        exact later
  have refilled : ∀ (rows : List Row) (table : HeapTable), table.hiddenColumns = [] →
      table.indexes = [] → Fits rowBytes table.file.pageSize rows →
      ∃ next, table.refill rowBytes rows = .ok next ∧ next.hiddenColumns = [] ∧
        next.scan = table.scan ++ rows ∧ next.file.pageSize = table.file.pageSize := by
    intro rows
    induction rows with
    | nil => intro table plain _ _; exact ⟨table, rfl, plain, (List.append_nil _).symm, rfl⟩
    | cons row rest ih =>
        intro table plain bare fits
        obtain ⟨position, middle, inserted, size⟩ :=
          insertReturningPosition_fits (fits row List.mem_cons_self)
        obtain ⟨scanned, plain', bare'⟩ := HeapTable.scan_insertReturningPosition plain inserted
        rw [bare] at bare'
        obtain ⟨next, done, plain'', scanned', size'⟩ := ih { middle with indexes := [] } plain' rfl
          (by rw [size]; exact fun other member => fits other (List.mem_cons_of_mem _ member))
        refine ⟨next, ?_, plain'', ?_, size'.trans size⟩
        · simp only [HeapTable.refill, inserted, bare', HeapTable.addKeys, bind, Except.bind, done]
        · have scan : ({ middle with indexes := [] } : HeapTable).scan = table.scan ++ [row] := by
            change middle.scanWithPositions.map (·.2) = _
            rw [scanned, List.map_append]
            rfl
          rw [scanned', scan, List.append_assoc]
          rfl
  obtain ⟨next, done, plain, scanned, size⟩ := refilled rows
    ⟨[], heap.file.truncate, []⟩ rfl rfl fits
  refine ⟨⟨next.file⟩, ?_, ?_, size⟩
  · simp only [replaceAll, HeapTable.replaceAll, checked rows fits, bind, Except.bind]
    simp only [table, List.map_nil, done]
  · have empty : (⟨[], heap.file.truncate, []⟩ : HeapTable).scan = [] := rfl
    rw [empty, List.nil_append] at scanned
    rw [← scanned]
    simp only [scan, table, HeapTable.scan, HeapTable.scanWithPositions, plain]

end KeyedHeap

end ChuSQL.Storage
