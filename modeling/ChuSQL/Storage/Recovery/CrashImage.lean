import ChuSQL.Storage.Recovery.Redo

/-! Recovery from a partly flushed group. Pages reach the disk one by one, so a
crash image mixes pages from before the group with pages from behind it; the id
index is rebuilt from the image. -/

set_option autoImplicit false

namespace ChuSQL.Storage

open BTree Library Library.GuardedRedo

namespace HeapPage

def rows (page : HeapPage) : List Row := page.slots.filterMap id

end HeapPage

/-- The pages of a crash image: flushed ones are from behind the group, others
from before it. A page that is not there yet reads as an empty one. -/
def crashPages (flushed : Nat → Bool) : Nat → (before after : List HeapPage) → List HeapPage
  | _, before, [] => before
  | pageId, before, page :: rest =>
      (if flushed pageId then page else before.headD ⟨[]⟩) ::
        crashPages flushed (pageId + 1) before.tail rest

def pageRows (pages : List HeapPage) : List Row := pages.flatMap HeapPage.rows

section Pages

variable {flushed : Nat → Bool} {pageId : Nat} {before after : List HeapPage}

theorem pageRows_split (pages : List HeapPage) :
    pageRows pages = (pages.headD ⟨[]⟩).rows ++ pageRows pages.tail := by
  cases pages <;> rfl

/-- The image has no more rows with a key than both of its sources. -/
theorem withKey_crashPages (key : Key) :
    (withKey idKey key (pageRows (crashPages flushed pageId before after))).length ≤
      (withKey idKey key (pageRows before)).length + (withKey idKey key (pageRows after)).length := by
  induction after generalizing pageId before with
  | nil => exact Nat.le_add_right _ _
  | cons page rest ih =>
      have later := @ih (pageId + 1) before.tail
      rw [crashPages, pageRows_split before]
      simp only [pageRows, List.flatMap_cons, withKey_append, List.length_append] at later ⊢
      split
      · omega
      · omega

theorem mem_crashPages {row : Row}
    (member : row ∈ pageRows (crashPages flushed pageId before after)) :
    row ∈ pageRows before ∨ row ∈ pageRows after := by
  induction after generalizing pageId before with
  | nil => exact .inl member
  | cons page rest ih =>
      rw [pageRows_split before]
      simp only [crashPages, pageRows, List.flatMap_cons, List.mem_append] at member ih ⊢
      rcases member with here | later
      · split at here
        · exact .inr (.inl here)
        · exact .inl (.inl here)
      · rcases ih later with old | new
        · exact .inl (.inr old)
        · exact .inr (.inr new)

/-- Where both sources have the same rows with a key on every page, so has the image. -/
theorem withKey_crashPages_same {key : Key}
    (same : ∀ page, withKey idKey key (before.getD page ⟨[]⟩).rows =
      withKey idKey key (after.getD page ⟨[]⟩).rows) :
    withKey idKey key (pageRows (crashPages flushed pageId before after)) =
      withKey idKey key (pageRows before) := by
  induction after generalizing pageId before with
  | nil => rfl
  | cons page rest ih =>
      have here := same 0
      have later := @ih (pageId + 1) before.tail fun page => by
        have next := same (page + 1)
        rw [List.getD_cons_succ] at next
        rw [← next]
        cases before <;> simp
      rw [crashPages, pageRows_split before]
      simp only [pageRows, List.flatMap_cons, withKey_append] at later ⊢
      rw [later]
      congr 1
      split
      · rw [List.getD_cons_zero] at here
        rw [← here]
        cases before <;> rfl
      · rfl

end Pages

namespace KeyedHeap

theorem pageEntries_rows (pageId slot : Nat) (slots : List (Option Row)) :
    (HeapTable.pageEntries pageId slot slots).map (·.2) = slots.filterMap id := by
  induction slots generalizing slot with
  | nil => rfl
  | cons tuple rest ih =>
      rw [← List.singleton_append, HeapTable.pageEntries_append, List.map_append, ih,
        List.filterMap_append]
      cases tuple <;> rfl

theorem scan_pageRows (heap : KeyedHeap) : heap.scan = pageRows heap.file.pages := by
  have each : ∀ (pages : List HeapPage) (pageId : Nat),
      (HeapTable.scanPages [] pageId pages).map (·.2) = pageRows pages := by
    intro pages
    induction pages with
    | nil => intro _; rfl
    | cons page rest ih =>
        intro pageId
        rw [HeapTable.scanPages_cons, List.map_append, ih, pageEntries_rows]
        rfl
  exact each heap.file.pages 0

/-- The rows of one page are the entries of that page. -/
theorem page_rows (heap : KeyedHeap) (page : Nat) :
    (heap.file.pages.getD page ⟨[]⟩).rows =
      (heap.scanWithPositions.filter (·.1.1 = page)).map (·.2) := by
  have each : ∀ (pages : List HeapPage) (pageId page : Nat),
      (pages.getD page ⟨[]⟩).rows =
        ((HeapTable.scanPages [] pageId pages).filter (·.1.1 = pageId + page)).map (·.2) := by
    intro pages
    induction pages with
    | nil => intro _ _; rfl
    | cons first rest ih =>
        intro pageId page
        rw [HeapTable.scanPages_cons, List.filter_append, List.map_append]
        cases page with
        | zero =>
            have mine : (HeapTable.pageEntries pageId 0 first.slots).filter (·.1.1 = pageId + 0) =
                HeapTable.pageEntries pageId 0 first.slots :=
              List.filter_eq_self.mpr fun entry member => by
                simp [(HeapTable.mem_pageEntries member).1]
            have later : (HeapTable.scanPages [] (pageId + 1) rest).filter (·.1.1 = pageId + 0) = [] :=
              List.filter_eq_nil_iff.mpr fun entry member => by
                have above := HeapTable.mem_scanPages member
                simp only [decide_eq_true_eq]
                omega
            rw [mine, later, pageEntries_rows, List.map_nil, List.append_nil]
            rfl
        | succ page =>
            have none : (HeapTable.pageEntries pageId 0 first.slots).filter
                (·.1.1 = pageId + (page + 1)) = [] :=
              List.filter_eq_nil_iff.mpr fun entry member => by
                have here := (HeapTable.mem_pageEntries member).1
                simp only [decide_eq_true_eq]
                omega
            rw [none, List.map_nil, List.nil_append, List.getD_cons_succ, ih (pageId + 1) page,
              show pageId + 1 + page = pageId + (page + 1) by omega]
  have found := each heap.file.pages 0 page
  rw [Nat.zero_add] at found
  exact found

/-- The entries of one key. -/
def entriesOf (heap : KeyedHeap) (key : Key) : List ((Nat × Nat) × Row) :=
  heap.scanWithPositions.filter fun entry => idKey entry.2 = some key

theorem insertRows_entriesOf {rowBytes : Row → Nat} {heap next : KeyedHeap} {added : List Row}
    {key : Key} (fits : Fits rowBytes heap.file.pageSize added)
    (inserted : heap.insertRows rowBytes added = .ok next) (absent : key ∉ added.filterMap idKey) :
    next.entriesOf key = heap.entriesOf key := by
  cases admitted : Library.GuardedRedo.insertRows idKey heap.scan added with
  | error row =>
      rw [insertRows_taken fits admitted] at inserted
      cases inserted
  | ok result =>
      obtain ⟨entries, other, done, scanned, written, _⟩ := insertRows_scan fits admitted
      obtain rfl := Except.ok.inj (inserted.symm.trans done)
      have none : (entries.filter fun entry => idKey entry.2 = some key) = [] := by
        refine List.filter_eq_nil_iff.mpr fun entry member ofEntry => absent ?_
        rw [← written, List.filterMap_map]
        exact List.mem_filterMap.mpr ⟨entry, member, of_decide_eq_true ofEntry⟩
      rw [entriesOf, scanned, List.filter_append, none, List.append_nil]
      rfl

/-- Entries of a key decide its rows on every page. -/
theorem page_withKey {first second : KeyedHeap} {key : Key}
    (same : first.entriesOf key = second.entriesOf key) (page : Nat) :
    withKey idKey key (first.file.pages.getD page ⟨[]⟩).rows =
      withKey idKey key (second.file.pages.getD page ⟨[]⟩).rows := by
  have each : ∀ heap : KeyedHeap, withKey idKey key (heap.file.pages.getD page ⟨[]⟩).rows =
      ((heap.entriesOf key).filter (·.1.1 = page)).map (·.2) := by
    intro heap
    rw [page_rows, withKey, List.filter_map, entriesOf, List.filter_filter, List.filter_filter]
    congr 1
    exact List.filter_congr fun entry _ => Bool.and_comm _ _
  rw [each, each, same]

end KeyedHeap

/-- Insertions of batches and deletions by id. -/
def RowOp.Batch : RowOp → Prop
  | insertBatch .. | deleteKeys .. => True
  | insert .. | replaceAll .. => False

instance : (op : RowOp) → Decidable op.Batch
  | .insertBatch .. | .deleteKeys .. => .isTrue trivial
  | .insert .. | .replaceAll .. => .isFalse id

namespace Tables

variable {rowBytes : Row → Nat} {pageSize : Nat} {tables after : Tables} {ops : List RowOp}

/-- An operation leaves the entries of keys it does not mention, unless it
replaces the table. -/
theorem applyOp_entriesOf {op : RowOp} {next : Tables} {table : String} {key : Key}
    (paged : Paged pageSize tables) (fits : KeyedHeap.Fits rowBytes pageSize op.rows)
    (stepped : applyOp rowBytes pageSize tables op = .ok next)
    (apart : op.table = table → ¬op.change.Mentions idKey key ∧ ¬op.change.Replaces) :
    (heapOf pageSize next table).entriesOf key = (heapOf pageSize tables table).entriesOf key := by
  have updated : ∀ {change : KeyedHeap → Except IoError KeyedHeap},
      withTable pageSize tables op.table change = .ok next →
      (∀ heap, op.table = table → change (heapOf pageSize tables op.table) = .ok heap →
        heap.entriesOf key = (heapOf pageSize tables op.table).entriesOf key) →
      (heapOf pageSize next table).entriesOf key =
        (heapOf pageSize tables table).entriesOf key := by
    intro change done each
    simp only [withTable, bind, Except.bind] at done
    cases changed : change ((tables op.table).getD ⟨pageSize, []⟩) with
    | error error => rw [changed] at done; cases done
    | ok heap =>
        rw [changed] at done
        cases done
        by_cases same : op.table = table
        · subst same
          rw [← each heap rfl changed, heapOf, Function.update_self]
          rfl
        · rw [heapOf, Function.update_of_ne (Ne.symm same), heapOf]
  have size := heapOf_pageSize paged op.table
  cases op with
  | insert table' row =>
      simp only [applyOp] at stepped
      refine updated stepped fun heap same inserted => ?_
      rw [← insertRows_singleton] at inserted
      exact KeyedHeap.insertRows_entriesOf (by rw [size]; exact fits) inserted (apart same).1
  | insertBatch table' added =>
      simp only [applyOp] at stepped
      split at stepped
      · cases stepped; rfl
      · refine updated stepped fun heap same inserted => ?_
        exact KeyedHeap.insertRows_entriesOf (by rw [size]; exact fits) inserted (apart same).1
  | deleteKeys table' keys =>
      simp only [applyOp] at stepped
      refine updated stepped fun heap same erased => ?_
      obtain ⟨deleted, other, done, _, _, kept, _⟩ :=
        KeyedHeap.deleteByKeys_scan (heapOf pageSize tables table') keys
      simp only [RowOp.table, done, bind, Except.bind] at erased
      cases erased
      exact kept key (apart same).1
  | replaceAll table' added =>
      simp only [applyOp] at stepped
      exact updated stepped fun heap same _ => absurd trivial (apart same).2

theorem run_entriesOf {next : Tables} {table : String} {key : Key} (paged : Paged pageSize tables)
    (fits : ∀ op ∈ ops, KeyedHeap.Fits rowBytes pageSize op.rows)
    (ran : run (applyOp rowBytes pageSize) tables ops = .ok next)
    (apart : ∀ op ∈ ops, op.table = table → ¬op.change.Mentions idKey key ∧ ¬op.change.Replaces) :
    (heapOf pageSize next table).entriesOf key = (heapOf pageSize tables table).entriesOf key := by
  induction ops generalizing tables with
  | nil => cases ran; rfl
  | cons op rest ih =>
      simp only [run, bind, Except.bind] at ran
      cases stepped : applyOp rowBytes pageSize tables op with
      | error error => rw [stepped] at ran; cases ran
      | ok middle =>
          rw [stepped] at ran
          have here := fits op List.mem_cons_self
          have paged' : Paged pageSize middle := by
            cases changed : GuardedRedo.apply idKey (rows tables op.table) op.change with
            | error error =>
                obtain ⟨error', failed⟩ := apply_splits.failed paged here changed
                rw [stepped] at failed
                cases failed
            | ok rows' =>
                obtain ⟨other, done, paged', _⟩ := apply_splits.done paged here changed
                obtain rfl := Except.ok.inj (stepped.symm.trans done)
                exact paged'
          rw [ih paged' (fun other member => fits other (List.mem_cons_of_mem _ member)) ran
            fun other member => apart other (List.mem_cons_of_mem _ member)]
          exact applyOp_entriesOf paged here stepped (apart op List.mem_cons_self)

def pagesOf (tables : Tables) (table : String) : List HeapPage :=
  ((tables table).map (·.file.pages)).getD []

/-- The tables after a crash, their id indexes rebuilt from the pages. -/
def crashed (flushed : String → Nat → Bool) (before after : Tables) : Tables := fun table =>
  match after table with
  | none => before table
  | some heap =>
      let pages := crashPages (flushed table) 0 (pagesOf before table) heap.file.pages
      some ⟨{ heap.file with pages }⟩

/-- Rows with integer ids. -/
def AllIds (rows : List Row) : Prop := ∀ row ∈ rows, (rowInt row "id").isSome

instance (rows : List Row) : Decidable (AllIds rows) :=
  inferInstanceAs (Decidable (∀ row ∈ rows, (rowInt row "id").isSome))

theorem AllIds.unkeyed {rows : List Row} (allIds : AllIds rows) : unkeyed idKey rows = [] := by
  refine List.filter_eq_nil_iff.mpr fun row member keyless => ?_
  obtain ⟨id, isId⟩ := Option.isSome_iff_exists.mp (allIds row member)
  rw [idKey_of_rowInt isId] at keyless
  cases keyless

theorem AllIds.plain {rows : List Row} (allIds : AllIds rows) {ids : List Int}
    (sized : ∀ id ∈ ids, Sized64 id) : ∀ row ∈ rows, Plain ids row := by
  intro row member id listed ofRow
  obtain ⟨other, isId⟩ := Option.isSome_iff_exists.mp (allIds row member)
  rw [idKey_of_rowInt isId] at ofRow
  rw [isId, keyOf_inj (rowInt_sized isId) (sized id listed) (Option.some.inj ofRow)]

/-- Rows with different integer ids have different keys. -/
theorem AllIds.single {rows : List Row} (allIds : AllIds rows)
    (unique : (rows.map fun row => rowInt row "id").Nodup) (key : Key) :
    (withKey idKey key rows).length ≤ 1 := by
  induction rows with
  | nil => exact Nat.zero_le _
  | cons row rest ih =>
      obtain ⟨different, unique⟩ := List.nodup_cons.mp unique
      have later := ih (fun other member => allIds other (List.mem_cons_of_mem _ member)) unique
      by_cases mine : idKey row = some key
      · have none : withKey idKey key rest = [] := by
          refine withKey_eq_nil.mpr fun other member ofOther => different ?_
          obtain ⟨id, isId⟩ := Option.isSome_iff_exists.mp (allIds row List.mem_cons_self)
          obtain ⟨id', isId'⟩ :=
            Option.isSome_iff_exists.mp (allIds other (List.mem_cons_of_mem _ member))
          rw [idKey_of_rowInt isId] at mine
          rw [idKey_of_rowInt isId', ← mine] at ofOther
          have same := keyOf_inj (rowInt_sized isId') (rowInt_sized isId) (Option.some.inj ofOther)
          exact List.mem_map.mpr ⟨other, member, by simp only [isId, isId', same]⟩
        rw [withKey, List.filter_cons_of_pos (by simpa using mine)]
        change (withKey idKey key rest).length + 1 ≤ 1
        rw [none]
        exact Nat.le_refl 1
      · rw [withKey, List.filter_cons_of_neg (by simpa using mine)]
        exact later

theorem heapOf_pages (pageSize : Nat) (tables : Tables) (table : String) :
    (heapOf pageSize tables table).file.pages = pagesOf tables table := by
  rw [heapOf, pagesOf]
  cases tables table <;> rfl

theorem rows_pages (tables : Tables) (table : String) :
    rows tables table = pageRows (pagesOf tables table) := by
  rw [rows, pagesOf]
  cases tables table with
  | none => rfl
  | some heap => exact heap.scan_pageRows

theorem rows_crashed (flushed : String → Nat → Bool) (before after : Tables) (table : String) :
    rows (crashed flushed before after) table =
      pageRows (crashPages (flushed table) 0 (pagesOf before table) (pagesOf after table)) := by
  rw [rows_pages]
  congr 1
  simp only [pagesOf, crashed]
  cases after table with
  | none => rfl
  | some heap => rfl

theorem crashed_paged {flushed : String → Nat → Bool} {before after : Tables}
    (old : Paged pageSize before) (new : Paged pageSize after) :
    Paged pageSize (crashed flushed before after) := by
  intro table heap found
  simp only [crashed] at found
  cases isAfter : after table with
  | none =>
      rw [isAfter] at found
      exact old table heap found
  | some next =>
      rw [isAfter] at found
      cases found
      exact new table next isAfter

/-- A row whose JSON text has 251 bytes. -/
def wideRow (id : Int) : Row :=
  ⟨[("id", .number (.int id)), ("pad", .array (List.replicate 47 .null))],
    List.pairwise_pair.mpr (by decide : "id" < "pad")⟩

/-- Length of the JSON text of a wide row with a one-digit id. -/
def wideBytes (row : Row) : Nat :=
  match row.get "pad" with
  | some (.array items) => 16 + 5 * items.length
  | _ => 8

def twoPageBatch : List RowOp := [.insertBatch "t" [wideRow 1, wideRow 2]]

/-- An empty table with pages of 512 bytes. -/
def emptyTable : Tables := Function.update (fun _ => none) "t" (some ⟨512, []⟩)

theorem rows_emptyTable (table : String) : rows emptyTable table = [] := by
  rw [rows, emptyTable, Function.update_apply]
  split <;> rfl

theorem twoPageBatch_accepted : Accepts wideBytes 512 emptyTable twoPageBatch := by
  refine ⟨by decide +kernel, by decide +kernel, by decide, fun table heap found => ?_⟩
  rw [emptyTable, Function.update_apply] at found
  split at found
  · cases found; rfl
  · cases found

end Tables

end ChuSQL.Storage
