import ChuSQL.Storage.Pager.Repair
import ChuSQL.Library.Fallible
import ChuSQL.Library.Run

/-! The buffer pool over a page file. Whatever is evicted in between, its calls are those
of a growable array of pages. -/

set_option autoImplicit false

namespace ChuSQL.Storage.Pager

open Library
open Library.ByteFile (Change replay window readAt writeAt)

/-- The page file behind its pool. The hash maps are lists of entries. -/
structure PageFile where
  store : Store
  capacity : Nat
  cache : List Image
  lastUsed : List (PageId × Nat)
  clock : Nat
  dirty : List PageId
  hits : Nat
  misses : Nat

/-- Turn the outcome of a call on the journal into a result. -/
def Store.done : Outcome → Except IoError Store
  | (.ok (), store) => .ok store
  | (.error error, _) => .error error

theorem Store.done_ok {outcome : Outcome} {store : Store} (done : Store.done outcome = .ok store) :
    outcome = (.ok (), store) := by
  unfold Store.done at done
  split at done
  · cases done
    rfl
  · cases done

/-- Replace the entry of a key. -/
def insertEntry {Value : Type} (entries : List (PageId × Value)) (id : PageId) (value : Value) :
    List (PageId × Value) :=
  (id, value) :: entries.filter (·.1 ≠ id)

/-- A change of a page in place: the page keeps its length. -/
structure Update (R : Type) where
  change : Bytes → Bytes × R
  keeps : ∀ page, (change page).1.length = page.length

/-- A call on a page file. -/
inductive Call (R : Type) where
  | readPage (id : PageId)
  | withPage (id : PageId) (read : Bytes → R)
  | updatePage (id : PageId) (update : Update R)
  | writePage (id : PageId) (page : Bytes)
  | appendPage
  | numPages
  | flush
  | truncate
  | reopen

inductive Result (R : Type) where
  | page (bytes : Bytes)
  | value (value : R)
  | appended (id : PageId) (bytes : Bytes)
  | count (pages : Nat)
  | done
deriving DecidableEq

namespace PageFile

def open_ (store : Store) (capacity : Nat) : PageFile :=
  ⟨store, capacity, [], [], 0, [], 0, 0⟩

def pageSize (file : PageFile) : Nat := file.store.wal.state.pageSize

def touch (file : PageFile) (id : PageId) : PageFile :=
  { file with clock := file.clock + 1, lastUsed := insertEntry file.lastUsed id (file.clock + 1) }

/-- The images of the dirty pages, in the order in which their hash set hands them out. -/
def images (file : PageFile) (order : List PageId) : List Image :=
  order.filterMap fun id => (file.cache.lookup id).map (id, ·)

/-- Write all dirty pages. -/
def writeDirty (file : PageFile) (order : List PageId) : Except IoError PageFile := do
  let store ← Store.done (file.store.evict (file.images order))
  .ok { file with store, dirty := [] }

def remove (file : PageFile) (id : PageId) : PageFile :=
  { file with
    cache := file.cache.filter (·.1 ≠ id)
    lastUsed := file.lastUsed.filter (·.1 ≠ id) }

/-- Evict the coldest page. If it is dirty, all dirty pages are written. -/
def evictOne (file : PageFile) (order : List PageId) : Except IoError PageFile :=
  match (file.cache.map (·.1)).argmin fun id => (file.lastUsed.lookup id).getD 0 with
  | none => .ok file
  | some victim => do
      let file ← (if victim ∈ file.dirty then file.writeDirty order else .ok file)
      .ok (file.remove victim)

/-- Read a page that is not in the pool into it. -/
def load (file : PageFile) (order : List PageId) (id : PageId) : Except IoError PageFile := do
  let page ← file.store.readRaw id
  let file ← (if file.capacity ≤ file.cache.length then file.evictOne order else .ok file)
  .ok { file with cache := insertEntry file.cache id page }

/-- Bring a page into the pool. -/
def noteAccess (file : PageFile) (order : List PageId) (id : PageId) : Except IoError PageFile :=
  match file.cache.lookup id with
  | some _ => .ok ({ file with hits := file.hits + 1 }.touch id)
  | none => do
      let file ← { file with misses := file.misses + 1 }.load order id
      .ok (file.touch id)

def withPage {R : Type} (file : PageFile) (order : List PageId) (id : PageId) (read : Bytes → R) :
    Except IoError (R × PageFile) := do
  let file ← file.noteAccess order id
  match file.cache.lookup id with
  | some page => .ok (read page, file)
  | none => .error (.ofMessage "cached above")

def readPage (file : PageFile) (order : List PageId) (id : PageId) : Except IoError (Bytes × PageFile) :=
  file.withPage order id fun page => page

def insertDirty (dirty : List PageId) (id : PageId) : List PageId :=
  if id ∈ dirty then dirty else id :: dirty

def updatePage {R : Type} (file : PageFile) (order : List PageId) (id : PageId) (update : Update R) :
    Except IoError (R × PageFile) := do
  let file ← file.noteAccess order id
  match file.cache.lookup id with
  | some page =>
      .ok ((update.change page).2, { file with
        cache := insertEntry file.cache id (update.change page).1
        dirty := insertDirty file.dirty id })
  | none => .error (.ofMessage "cached above")

def writePage (file : PageFile) (order : List PageId) (id : PageId) (page : Bytes) :
    Except IoError PageFile :=
  if page.length ≠ file.pageSize then
    .error ⟨.invalidInput, s!"page has {page.length} bytes, this file uses {file.pageSize}"⟩
  else do
    let file ← (if file.capacity ≤ file.cache.length ∧ file.cache.lookup id = none then
      file.evictOne order else .ok file)
    .ok ({ file with
      cache := insertEntry file.cache id page
      dirty := insertDirty file.dirty id }.touch id)

def numPages (file : PageFile) : Except IoError Nat :=
  let length := file.store.disk.data.content.length
  if length % file.pageSize ≠ 0 then
    .error ⟨.invalidData, s!"file length {length} is not a multiple of page size {file.pageSize} " ++
      "(did page.size change?)"⟩
  else
    let cachedMax := match (file.cache.map (·.1)).max? with
      | some highest => (highest + 1) % 2 ^ 64
      | none => 0
    .ok (max (length / file.pageSize) cachedMax)

def appendPage (file : PageFile) (order : List PageId) : Except IoError (Image × PageFile) := do
  let id ← file.numPages
  let page := List.replicate file.pageSize 0
  let file ← file.writePage order id page
  .ok ((id, page), file)

def flush (file : PageFile) (order : List PageId) : Except IoError PageFile := do
  let store ← Store.done (file.store.flush (file.images order))
  .ok { file with store, dirty := [] }

def truncate (file : PageFile) : Except IoError PageFile := do
  let store ← Store.done file.store.truncate
  .ok { file with store, cache := [], lastUsed := [], dirty := [] }

/-- Dropping the page file flushes it; then it is opened again. -/
def reopen (file : PageFile) (order : List PageId) : Except IoError PageFile := do
  let closed ← file.flush order
  let store ← closed.store.disk.open file.pageSize
  .ok (open_ store file.capacity)

/-- A call with the order in which the hash set of dirty pages is walked during it. -/
def perform {R : Type} (file : PageFile) (order : List PageId) : Call R → Except IoError (Result R × PageFile)
  | .readPage id => do
      let (bytes, file) ← file.readPage order id
      .ok (.page bytes, file)
  | .withPage id read => do
      let (value, file) ← file.withPage order id read
      .ok (.value value, file)
  | .updatePage id update => do
      let (value, file) ← file.updatePage order id update
      .ok (.value value, file)
  | .writePage id page => do
      let file ← file.writePage order id page
      .ok (.done, file)
  | .appendPage => do
      let ((id, bytes), file) ← file.appendPage order
      .ok (.appended id bytes, file)
  | .numPages => do
      let pages ← file.numPages
      .ok (.count pages, file)
  | .flush => do
      let file ← file.flush order
      .ok (.done, file)
  | .truncate => do
      let file ← file.truncate
      .ok (.done, file)
  | .reopen => do
      let file ← file.reopen order
      .ok (.done, file)

/-- A run keeps the results of its calls. -/
def step {R : Type} (state : PageFile × List (Result R)) (action : Call R × List PageId) :
    Except IoError (PageFile × List (Result R)) := do
  let (result, file) ← state.1.perform action.2 action.1
  .ok (file, state.2 ++ [result])

/-- The page that a call creates does not get the id that stands for truncation. -/
def Addressed {R : Type} (file : PageFile) : Call R → Prop
  | .writePage id _ => id < resetPage
  | .appendPage => ∀ id ∈ file.numPages.toOption, id < resetPage
  | _ => True

instance {R : Type} (file : PageFile) : (call : Call R) → Decidable (file.Addressed call)
  | .writePage id _ => inferInstanceAs (Decidable (id < resetPage))
  | .appendPage => inferInstanceAs (Decidable (∀ id ∈ file.numPages.toOption, id < resetPage))
  | .readPage _ | .withPage .. | .updatePage .. | .numPages | .flush | .truncate | .reopen => .isTrue trivial

/-- The order is one of the dirty pages. -/
def Allowed {R : Type} (state : PageFile × List (Result R)) (action : Call R × List PageId) : Prop :=
  action.2.Perm state.1.dirty ∧ Addressed state.1 action.1

instance {R : Type} (state : PageFile × List (Result R)) (action : Call R × List PageId) :
    Decidable (Allowed state action) := inferInstanceAs (Decidable (_ ∧ _))

end PageFile

/-! ### The array of pages -/

/-- A write past the end lengthens the array with zeroed pages. -/
def writeArray (array : Storage.PageFile Bytes) (id : PageId) (page : Bytes) : Storage.PageFile Bytes :=
  let gap := List.replicate (id + 1 - array.numPages) (List.replicate array.pageSize 0)
  { array with pages := (array.pages ++ gap).set id page }

/-- What a call means for an array of pages. -/
def performArray {R : Type} (array : Storage.PageFile Bytes) :
    Call R → Except IoError (Result R × Storage.PageFile Bytes)
  | .readPage id => do
      let bytes ← array.withPage id fun page => page
      .ok (.page bytes, array)
  | .withPage id read => do
      let value ← array.withPage id read
      .ok (.value value, array)
  | .updatePage id update => do
      let value ← array.withPage id fun page => (update.change page).2
      let changed ← array.updatePage id fun page => .ok (update.change page).1
      .ok (.value value, changed)
  | .writePage id page => .ok (.done, writeArray array id page)
  | .appendPage =>
      let zero := List.replicate array.pageSize 0
      let (id, longer) := array.appendPage zero
      .ok (.appended id zero, longer)
  | .numPages => .ok (.count array.numPages, array)
  | .flush | .reopen => .ok (.done, array)
  | .truncate => .ok (.done, array.truncate)

def stepArray {R : Type} (state : Storage.PageFile Bytes × List (Result R)) (call : Call R) :
    Except IoError (Storage.PageFile Bytes × List (Result R)) := do
  let (result, array) ← performArray state.1 call
  .ok (array, state.2 ++ [result])

section Array

variable {array : Storage.PageFile Bytes} {id : Nat} {page : Bytes}

theorem writeArray_length : (writeArray array id page).pages.length = max array.pages.length (id + 1) := by
  simp only [writeArray, List.length_set, List.length_append, List.length_replicate, Storage.PageFile.numPages]
  omega

theorem writeArray_same : (writeArray array id page).pages[id]? = some page := by
  have inside : id < (writeArray array id page).pages.length := by
    rw [writeArray_length]
    omega
  rw [List.getElem?_eq_getElem inside]
  simp [writeArray]

theorem writeArray_other {other : Nat} (apart : other ≠ id) :
    (writeArray array id page).pages.getD other (List.replicate array.pageSize 0) =
      array.pages.getD other (List.replicate array.pageSize 0) := by
  rw [writeArray, List.getD_eq_getElem?_getD, List.getD_eq_getElem?_getD, List.getElem?_set_ne (Ne.symm apart)]
  by_cases inside : other < array.pages.length
  · rw [List.getElem?_append_left inside]
  · have outside : array.pages.length ≤ other := Nat.le_of_not_lt inside
    rw [List.getElem?_append_right outside, List.getElem?_eq_none outside, List.getElem?_replicate]
    split <;> rfl

theorem writeArray_inside (inside : id < array.pages.length) :
    writeArray array id page = { array with pages := array.pages.set id page } := by
  have gap : id + 1 - array.numPages = 0 := Nat.sub_eq_zero_of_le inside
  rw [writeArray, gap, List.replicate_zero, List.append_nil]

theorem writeArray_end (page : Bytes) :
    writeArray array array.numPages page = { array with pages := array.pages ++ [page] } := by
  have gap : array.numPages + 1 - array.numPages = 1 := Nat.add_sub_cancel_left _ _
  rw [writeArray, gap]
  simp [Storage.PageFile.numPages]

end Array

/-! ### Images written over the file -/

section Images

variable {pageSize : Nat} {images : List Image}

/-- Every image shows a page as a function has it. -/
def Consistent (pageSize : Nat) (shown : PageId → Bytes) (images : List Image) : Prop :=
  ∀ image ∈ images, image.2 = shown image.1 ∧ image.1 ≠ resetPage ∧ image.2.length = pageSize

/-- Written pages read as their images, all others as before. -/
theorem replay_window {shown : PageId → Bytes} (consistent : Consistent pageSize shown images) (content : Bytes)
    (id : PageId) :
    window (replay (images.map (imageChange pageSize)) content) (id * pageSize) pageSize =
      if id ∈ images.map (·.1) then shown id else window content (id * pageSize) pageSize := by
  induction images generalizing content with
  | nil => rfl
  | cons image rest ih =>
      obtain ⟨same, isPage, sized⟩ := consistent image List.mem_cons_self
      have later := ih (fun other member => consistent other (List.mem_cons_of_mem _ member))
        ((imageChange pageSize image).apply content)
      rw [List.map_cons, Library.ByteFile.replay_cons, later]
      by_cases inside : id ∈ rest.map (·.1)
      · rw [List.map_cons, if_pos inside, if_pos (List.mem_cons_of_mem _ inside)]
      · rw [if_neg inside]
        by_cases here : image.1 = id
        · subst here
          rw [List.map_cons, if_pos List.mem_cons_self, imageChange, if_neg isPage, ← same]
          conv_lhs => rw [← sized]
          exact Library.ByteFile.window_writeAt_same content _ image.2
        · have absent : id ∉ (image :: rest).map (·.1) := by
            rw [List.map_cons, List.mem_cons, not_or]
            exact ⟨Ne.symm here, inside⟩
          rw [if_neg absent]
          exact window_imageChange sized isPage here content

/-- The file then ends behind its last page or behind the last written one. -/
theorem replay_pages (positive : 0 < pageSize) {shown : PageId → Bytes}
    (consistent : Consistent pageSize shown images) {content : Bytes} {count : Nat}
    (whole : content.length = count * pageSize) :
    (replay (images.map (imageChange pageSize)) content).length =
      (images.map (·.1 + 1)).foldl max count * pageSize := by
  induction images generalizing content count with
  | nil => exact whole
  | cons image rest ih =>
      obtain ⟨same, isPage, sized⟩ := consistent image List.mem_cons_self
      rw [List.map_cons, Library.ByteFile.replay_cons, List.map_cons, List.foldl_cons]
      refine ih (fun other member => consistent other (List.mem_cons_of_mem _ member)) ?_
      have filled : image.2.isEmpty = false := by
        rw [List.isEmpty_eq_false_iff, ← List.length_pos_iff, sized]
        exact positive
      rw [imageChange, if_neg isPage]
      refine (Library.ByteFile.writeAt_length content _ image.2).trans ?_
      rw [Change.stop, filled, whole, sized, ← Nat.mul_max_mul_right, Nat.add_mul, Nat.one_mul]
      rfl

end Images

/-! ### Entries of the hash maps -/

section Entries

variable {Value : Type} {entries : List (PageId × Value)}

theorem lookup_removeEntry (id other : PageId) :
    (entries.filter (·.1 ≠ id)).lookup other = if other = id then none else entries.lookup other := by
  induction entries with
  | nil => simp
  | cons entry rest ih =>
      by_cases removed : entry.1 = id
      · rw [List.filter_cons_of_neg (by simpa using removed), ih]
        by_cases same : other = id
        · rw [if_pos same, if_pos same]
        · have apart : (other == entry.1) = false := by simpa [removed] using same
          rw [if_neg same, if_neg same, List.lookup_cons, apart]
      · rw [List.filter_cons_of_pos (by simpa using removed), List.lookup_cons, List.lookup_cons, ih]
        by_cases same : other = id
        · have apart : (other == entry.1) = false := by simpa [same] using Ne.symm removed
          rw [apart, if_pos same]
        · rw [if_neg same, if_neg same]

theorem lookup_insertEntry (id other : PageId) (value : Value) :
    (insertEntry entries id value).lookup other = if other = id then some value else entries.lookup other := by
  rw [insertEntry, List.lookup_cons, lookup_removeEntry]
  by_cases same : other = id
  · simp [same]
  · have apart : (other == id) = false := by simpa using same
    rw [apart, if_neg same, if_neg same]

theorem lookup_isSome_iff (id : PageId) : (∃ value, entries.lookup id = some value) ↔ id ∈ entries.map (·.1) := by
  induction entries with
  | nil => simp
  | cons entry rest ih =>
      rw [List.lookup_cons, List.map_cons, List.mem_cons, ← ih]
      by_cases same : id = entry.1
      · simp [same]
      · have apart : (id == entry.1) = false := by simpa using same
        simp [apart, same]

end Entries

/-- A maximum that is reached and never exceeded. -/
theorem foldl_max_eq {numbers : List Nat} {start bound : Nat} (below : start ≤ bound)
    (bounded : ∀ number ∈ numbers, number ≤ bound) (reached : start < bound → bound ∈ numbers) :
    numbers.foldl max start = bound := by
  induction numbers generalizing start with
  | nil =>
      by_contra different
      cases reached (Nat.lt_of_le_of_ne below different)
  | cons number rest ih =>
      refine ih (Nat.max_le.mpr ⟨below, bounded number List.mem_cons_self⟩)
        (fun other member => bounded other (List.mem_cons_of_mem _ member)) fun short => ?_
      cases List.mem_cons.mp (reached (by omega)) with
      | inl same => omega
      | inr later => exact later

/-! ### The journal between calls -/

/-- What every successful call leaves of the journal: nothing in it is unpublished. -/
structure Settled (pageSize : Nat) (store : Store) : Prop where
  fresh : store.wal.failed = false
  version : store.wal.state.version = 1
  sized : store.wal.state.pageSize = pageSize
  published : (store.disk.state pageSize).version = 1 ∧ (store.disk.state pageSize).pageSize = pageSize
  cleared : store.wal.pending = false → store.disk.journal = []

namespace Settled

variable {pageSize : Nat} {store next : Store} {images : List Image}

theorem appendAll (settled : Settled pageSize (store.setFailed false))
    (appended : store.appendAll images = (.ok (), next)) :
    Settled pageSize (next.setFailed false) ∧ next.disk.data = store.disk.data := by
  induction images generalizing store with
  | nil =>
      cases appended
      exact ⟨settled, rfl⟩
  | cons image rest ih =>
      rw [Store.appendAll] at appended
      cases found : store.nextFrame image with
      | error error =>
          rw [found] at appended
          cases appended
      | ok frame =>
          rw [found] at appended
          have kept : Settled pageSize ((store.append frame).setFailed false) :=
            ⟨rfl, settled.version, settled.sized, settled.published, fun absurd => by cases absurd⟩
          exact @ih (store.append frame) kept appended

/-- A successful `prepare` changes the journal only, and the images are pages of their size. -/
theorem prepare (settled : Settled pageSize store) (prepared : store.prepare images = (.ok (), next)) :
    Settled pageSize next ∧ next.disk.data = store.disk.data ∧
      ∀ image ∈ images, Store.refuses pageSize image = false := by
  unfold Store.prepare at prepared
  rw [settled.fresh] at prepared
  split at prepared
  · cases prepared
  split at prepared
  · cases prepared
  next accepted =>
  have sized : ∀ image ∈ images, Store.refuses pageSize image = false := by
    intro image member
    rw [settled.sized, Bool.not_eq_true, List.any_eq_false] at accepted
    simpa using accepted image member
  split at prepared
  · cases prepared
    exact ⟨settled, rfl, sized⟩
  · have start : Settled pageSize ((store.setFailed true).setFailed false) :=
      ⟨rfl, settled.version, settled.sized, settled.published, settled.cleared⟩
    cases appended : (store.setFailed true).appendAll images with
    | mk result written =>
        rw [appended] at prepared
        cases result with
        | error error => cases prepared
        | ok value =>
            cases prepared
            exact ⟨(start.appendAll appended).1, (start.appendAll appended).2, sized⟩

/-- Written images are journalled first; then the file holds them. -/
theorem evict (settled : Settled pageSize store) (evicted : store.evict images = (.ok (), next)) :
    Settled pageSize next ∧ (∀ image ∈ images, Store.refuses pageSize image = false) ∧
      next.disk.data.content = replay (images.map (imageChange pageSize)) store.disk.data.content := by
  unfold Store.evict at evicted
  cases prepared : store.prepare images with
  | mk result written =>
      rw [prepared] at evicted
      cases result with
      | error error => cases evicted
      | ok value =>
          cases evicted
          obtain ⟨kept, data, sized⟩ := settled.prepare prepared
          refine ⟨⟨kept.fresh, kept.version, kept.sized, kept.published, kept.cleared⟩, sized, ?_⟩
          show replay _ _ = _
          rw [Store.writeImages, kept.sized, data, Library.ByteFile.replay_append]
          rfl

theorem checkpoint (settled : Settled pageSize store) (checked : store.checkpoint = (.ok (), next)) :
    Settled pageSize next ∧ next.disk.data = store.disk.data ∧ next.disk.journal = [] := by
  unfold Store.checkpoint at checked
  rw [settled.fresh] at checked
  split at checked
  · cases checked
  split at checked
  · next idle =>
      cases checked
      have cleared := settled.cleared (by simpa using idle)
      exact ⟨settled, rfl, cleared⟩
  · cases checked
    exact ⟨⟨settled.fresh, settled.version, settled.sized, ⟨settled.version, settled.sized⟩, fun _ => rfl⟩,
      rfl, rfl⟩

theorem flush (settled : Settled pageSize store) (flushed : store.flush images = (.ok (), next)) :
    Settled pageSize next ∧ (∀ image ∈ images, Store.refuses pageSize image = false) ∧
      next.disk.data = ⟨replay (images.map (imageChange pageSize)) store.disk.data.content, []⟩ ∧
      next.disk.journal = [] := by
  unfold Store.flush at flushed
  cases prepared : store.prepare images with
  | mk result written =>
      rw [prepared] at flushed
      cases result with
      | error error => cases flushed
      | ok value =>
          have evicted : store.evict images = (.ok (), written.writeImages images) := by
            rw [Store.evict, prepared]
          obtain ⟨kept, sized, content⟩ := settled.evict evicted
          have synced : Settled pageSize (written.writeImages images).syncData :=
            ⟨kept.fresh, kept.version, kept.sized, kept.published, kept.cleared⟩
          obtain ⟨settled, data, cleared⟩ := synced.checkpoint flushed
          refine ⟨settled, sized, data.trans ?_, cleared⟩
          exact congrArg (ByteFile.File.mk · []) content

theorem truncate (settled : Settled pageSize store) (truncated : store.truncate = (.ok (), next)) :
    Settled pageSize next ∧ next.disk.data.content = [] := by
  unfold Store.truncate Store.reset at truncated
  cases prepared : store.prepare [(resetPage, [])] with
  | mk result written =>
      rw [prepared] at truncated
      cases result with
      | error error => cases truncated
      | ok value =>
          cases truncated
          obtain ⟨kept, data, _⟩ := settled.prepare prepared
          refine ⟨⟨kept.fresh, kept.version, kept.sized, kept.published, kept.cleared⟩, ?_⟩
          show replay _ _ = _
          rw [Store.writeImages, Library.ByteFile.replay_append]
          rfl

/-- With an empty journal, opening recovers nothing. -/
theorem opened (settled : Settled pageSize store) (cleared : store.disk.journal = [])
    (opened : store.disk.open pageSize = .ok next) : Settled pageSize next ∧ next.disk = store.disk := by
  unfold Disk.open at opened
  split at opened
  · cases opened
  · unfold Store.recover at opened
    have empty : (store.disk.load pageSize).disk.journal.isEmpty = true := by
      rw [List.isEmpty_iff]
      exact cleared
    rw [if_pos empty] at opened
    cases opened
    exact ⟨⟨rfl, settled.published.1, settled.published.2, settled.published, fun _ => cleared⟩, rfl⟩

end Settled

/-! ### The pool against the array -/

/-- The pool shows the pages of an array: cached pages as they are, all but the dirty ones in
the file, and no page behind the file's end unless the last page is dirty. -/
structure Mirrors (file : PageFile) (array : Storage.PageFile Bytes) : Prop where
  positive : 0 < array.pageSize
  settled : Settled array.pageSize file.store
  sized : ∀ page ∈ array.pages, page.length = array.pageSize
  cached : ∀ id page, file.cache.lookup id = some page → array.pages[id]? = some page
  dirty : ∀ id ∈ file.dirty, id ∈ file.cache.map (·.1)
  clean : ∀ id, id ∉ file.dirty → window file.store.disk.data.content (id * array.pageSize) array.pageSize =
    array.pages.getD id (List.replicate array.pageSize 0)
  length : ∃ count, file.store.disk.data.content.length = count * array.pageSize ∧
    count ≤ array.pages.length ∧ (count < array.pages.length → array.pages.length - 1 ∈ file.dirty)
  addressed : array.pages.length ≤ resetPage

namespace Mirrors

variable {file next : PageFile} {array : Storage.PageFile Bytes} {order : List PageId}

theorem pageSize (mirrors : Mirrors file array) : file.pageSize = array.pageSize := mirrors.settled.sized

theorem inside (mirrors : Mirrors file array) {id : Nat} (member : id ∈ file.cache.map (·.1)) :
    id < array.pages.length := by
  obtain ⟨page, found⟩ := (lookup_isSome_iff id).mpr member
  exact (List.getElem?_eq_some_iff.mp (mirrors.cached id page found)).1

theorem mem_images (mirrors : Mirrors file array) (walked : order.Perm file.dirty) {image : Image} :
    image ∈ file.images order ↔ image.1 ∈ file.dirty ∧ array.pages[image.1]? = some image.2 := by
  rw [PageFile.images, List.mem_filterMap]
  constructor
  · rintro ⟨id, member, shown⟩
    obtain ⟨page, found, rfl⟩ := Option.map_eq_some_iff.mp shown
    exact ⟨walked.mem_iff.mp member, mirrors.cached id page found⟩
  · rintro ⟨member, shown⟩
    obtain ⟨page, found⟩ := (lookup_isSome_iff image.1).mpr (mirrors.dirty image.1 member)
    have same := (mirrors.cached image.1 page found).symm.trans shown
    refine ⟨image.1, walked.mem_iff.mpr member, ?_⟩
    rw [found, Option.some.inj same]
    rfl

theorem images_dirty (mirrors : Mirrors file array) (walked : order.Perm file.dirty) (id : PageId) :
    id ∈ (file.images order).map (·.1) ↔ id ∈ file.dirty := by
  rw [List.mem_map]
  constructor
  · rintro ⟨image, member, rfl⟩
    exact ((mirrors.mem_images walked).mp member).1
  · intro member
    obtain ⟨page, found⟩ := (lookup_isSome_iff id).mpr (mirrors.dirty id member)
    exact ⟨(id, page), (mirrors.mem_images walked).mpr ⟨member, mirrors.cached id page found⟩, rfl⟩

theorem consistent (mirrors : Mirrors file array) (walked : order.Perm file.dirty)
    (accepted : ∀ image ∈ file.images order, Store.refuses array.pageSize image = false) :
    Consistent array.pageSize (fun id => array.pages.getD id (List.replicate array.pageSize 0)) (file.images order) := by
  intro image member
  obtain ⟨dirty, shown⟩ := (mirrors.mem_images walked).mp member
  have sized := mirrors.sized _ (List.mem_of_getElem? shown)
  refine ⟨?_, fun isReset => ?_, sized⟩
  · show image.2 = array.pages.getD image.1 _
    rw [List.getD_eq_getElem?_getD, shown, Option.getD_some]
  · rcases accepted_iff.mp (accepted image member) with ⟨_, empty⟩ | ⟨isPage, _⟩
    · rw [empty] at sized
      exact Nat.lt_irrefl _ (sized ▸ mirrors.positive)
    · exact isPage isReset

/-- Once the dirty pages are written, the file holds the whole array. -/
theorem written (mirrors : Mirrors file array) (walked : order.Perm file.dirty)
    (accepted : ∀ image ∈ file.images order, Store.refuses array.pageSize image = false) :
    let content := replay ((file.images order).map (imageChange array.pageSize)) file.store.disk.data.content
    content.length = array.pages.length * array.pageSize ∧
      ∀ id, window content (id * array.pageSize) array.pageSize =
        array.pages.getD id (List.replicate array.pageSize 0) := by
  intro content
  have consistent := mirrors.consistent walked accepted
  constructor
  · obtain ⟨count, whole, below, last⟩ := mirrors.length
    have length := replay_pages mirrors.positive consistent whole
    rw [length]
    refine congrArg (· * array.pageSize) (foldl_max_eq below ?_ ?_)
    · intro stop member
      obtain ⟨image, listed, rfl⟩ := List.mem_map.mp member
      have shown := ((mirrors.mem_images walked).mp listed).2
      exact (List.getElem?_eq_some_iff.mp shown).1
    · intro short
      obtain ⟨image, listed, same⟩ := List.mem_map.mp ((mirrors.images_dirty walked _).mpr (last short))
      refine List.mem_map.mpr ⟨image, listed, ?_⟩
      rw [same]
      omega
  · intro id
    rw [replay_window consistent]
    by_cases dirty : id ∈ file.dirty
    · rw [if_pos ((mirrors.images_dirty walked id).mpr dirty)]
    · rw [if_neg fun listed => dirty ((mirrors.images_dirty walked id).mp listed)]
      exact mirrors.clean id dirty

theorem numPages (mirrors : Mirrors file array) : file.numPages = .ok array.numPages := by
  obtain ⟨count, whole, below, last⟩ := mirrors.length
  have multiple : file.store.disk.data.content.length % array.pageSize = 0 := by
    rw [whole, Nat.mul_mod_left]
  have pages : file.store.disk.data.content.length / array.pageSize = count := by
    rw [whole, Nat.mul_div_cancel _ mirrors.positive]
  simp only [PageFile.numPages, mirrors.pageSize, multiple, pages, ne_eq, not_true, if_false, Storage.PageFile.numPages]
  congr 1
  have addressed := mirrors.addressed
  rw [resetPage] at addressed
  cases highest : (file.cache.map (·.1)).max? with
  | none =>
      have empty := List.max?_eq_none_iff.mp highest
      have full : ¬count < array.pages.length := by
        intro short
        have cached := mirrors.dirty _ (last short)
        rw [empty] at cached
        cases cached
      dsimp only
      omega
  | some top =>
      obtain ⟨member, bounds⟩ := List.max?_eq_some_iff.mp highest
      have inside : Nat.lt top array.pages.length := mirrors.inside member
      rw [Nat.lt_eq] at inside
      have reached : count < array.pages.length → Nat.le (array.pages.length - 1) top :=
        fun short => bounds _ (mirrors.dirty _ (last short))
      rw [Nat.le_eq] at reached
      have wrapped : (top + 1) % 2 ^ 64 = top + 1 := Nat.mod_eq_of_lt (by omega)
      dsimp only
      rw [wrapped]
      omega

/-- Writing the dirty pages changes where pages are kept, not the pages. -/
theorem writeDirty (mirrors : Mirrors file array) (walked : order.Perm file.dirty)
    (wrote : file.writeDirty order = .ok next) :
    Mirrors next array ∧ next.dirty = [] := by
  obtain ⟨store, done, same⟩ := bind_eq_ok.mp wrote
  obtain rfl := Except.ok.inj same
  obtain ⟨settled, accepted, content⟩ := mirrors.settled.evict (Store.done_ok done)
  obtain ⟨length, windows⟩ := mirrors.written walked accepted
  rw [← content] at length windows
  refine ⟨⟨mirrors.positive, settled, mirrors.sized, mirrors.cached, ?_, fun id _ => windows id, ?_,
    mirrors.addressed⟩, rfl⟩
  · exact fun _ absent => by cases absent
  · exact ⟨_, length, le_rfl, fun short => absurd short (Nat.lt_irrefl _)⟩

/-- A page that is not dirty can leave the pool. -/
theorem remove (mirrors : Mirrors file array) {victim : PageId} (saved : victim ∉ file.dirty) :
    Mirrors (file.remove victim) array := by
  have kept := fun id => @lookup_removeEntry _ file.cache victim id
  refine ⟨mirrors.positive, mirrors.settled, mirrors.sized, ?_, ?_, mirrors.clean, mirrors.length, mirrors.addressed⟩
  · intro id page found
    have lookup := (kept id).symm.trans found
    split at lookup
    · cases lookup
    · exact mirrors.cached id page lookup
  · intro id member
    obtain ⟨page, found⟩ := (lookup_isSome_iff id).mpr (mirrors.dirty id member)
    have other : id ≠ victim := fun same => saved (same ▸ member)
    exact (lookup_isSome_iff id).mp ⟨page, (kept id).trans ((if_neg other).trans found)⟩

/-- An eviction changes where pages are kept, not the pages. -/
theorem evictOne (mirrors : Mirrors file array) (walked : order.Perm file.dirty)
    (evicted : file.evictOne order = .ok next) : Mirrors next array := by
  unfold PageFile.evictOne at evicted
  cases chosen : (file.cache.map (·.1)).argmin fun id => (file.lastUsed.lookup id).getD 0 with
  | none =>
      rw [chosen] at evicted
      cases evicted
      exact mirrors
  | some victim =>
      rw [chosen] at evicted
      obtain ⟨saved, wrote, same⟩ := bind_eq_ok.mp evicted
      obtain rfl := Except.ok.inj same
      split at wrote
      · obtain ⟨mirrors, clean⟩ := mirrors.writeDirty walked wrote
        refine mirrors.remove ?_
        rw [clean]
        exact List.not_mem_nil
      · next clean =>
          obtain rfl := Except.ok.inj wrote
          exact mirrors.remove clean

/-- A page of the array can enter the pool. -/
theorem insert (mirrors : Mirrors file array) {id : PageId} {page : Bytes} (shown : array.pages[id]? = some page) :
    Mirrors { file with cache := insertEntry file.cache id page } array := by
  have kept := fun other => @lookup_insertEntry _ file.cache id other page
  refine ⟨mirrors.positive, mirrors.settled, mirrors.sized, ?_, ?_, mirrors.clean, mirrors.length, mirrors.addressed⟩
  · intro other found lookup
    have lookup := (kept other).symm.trans lookup
    split at lookup
    · next same =>
        rw [same, shown]
        exact lookup
    · exact mirrors.cached other found lookup
  · intro other member
    obtain ⟨found, lookup⟩ := (lookup_isSome_iff other).mpr (mirrors.dirty other member)
    refine (lookup_isSome_iff other).mp ?_
    by_cases same : other = id
    · exact ⟨page, (kept other).trans (if_pos same)⟩
    · exact ⟨found, (kept other).trans ((if_neg same).trans lookup)⟩

/-- A page that is read from the file is the page of the array. -/
theorem readRaw (mirrors : Mirrors file array) {id : PageId} {page : Bytes}
    (absent : file.cache.lookup id = none) (read : file.store.readRaw id = .ok page) :
    array.pages[id]? = some page := by
  have clean : id ∉ file.dirty := by
    intro member
    obtain ⟨cached, found⟩ := (lookup_isSome_iff id).mpr (mirrors.dirty id member)
    rw [absent] at found
    cases found
  have shown := mirrors.clean id clean
  obtain ⟨count, whole, below, _⟩ := mirrors.length
  have bytes := readExact_ok.mp read
  rw [mirrors.settled.sized] at bytes
  unfold readAt at bytes
  split at bytes
  · next fits =>
      have inside : id < count := by
        rw [whole] at fits
        have wide : (id + 1) * array.pageSize ≤ count * array.pageSize := by
          rw [Nat.add_mul, Nat.one_mul]
          exact fits
        exact Nat.le_of_mul_le_mul_right wide mirrors.positive
      have member : id < array.pages.length := Nat.lt_of_lt_of_le inside below
      rw [← Option.some.inj bytes, shown, List.getD_eq_getElem _ _ member]
      exact List.getElem?_eq_getElem member
  · cases bytes

theorem touch (mirrors : Mirrors file array) (id : PageId) : Mirrors (file.touch id) array :=
  ⟨mirrors.positive, mirrors.settled, mirrors.sized, mirrors.cached, mirrors.dirty, mirrors.clean, mirrors.length, mirrors.addressed⟩

/-- After an access the page is in the pool. -/
theorem noteAccess (mirrors : Mirrors file array) (walked : order.Perm file.dirty) {id : PageId}
    (accessed : file.noteAccess order id = .ok next) :
    Mirrors next array ∧ ∃ page, next.cache.lookup id = some page ∧ array.pages[id]? = some page := by
  unfold PageFile.noteAccess at accessed
  cases found : file.cache.lookup id with
  | some page =>
      rw [found] at accessed
      cases accessed
      have hit : Mirrors { file with hits := file.hits + 1 } array :=
        ⟨mirrors.positive, mirrors.settled, mirrors.sized, mirrors.cached, mirrors.dirty, mirrors.clean, mirrors.length, mirrors.addressed⟩
      exact ⟨hit.touch id, page, found, mirrors.cached id page found⟩
  | none =>
      rw [found] at accessed
      obtain ⟨loaded, admitted, same⟩ := bind_eq_ok.mp accessed
      obtain rfl := Except.ok.inj same
      obtain ⟨page, read, admitted⟩ := bind_eq_ok.mp admitted
      obtain ⟨evicted, room, same⟩ := bind_eq_ok.mp admitted
      obtain rfl := Except.ok.inj same
      have shown := mirrors.readRaw found read
      have miss : Mirrors { file with misses := file.misses + 1 } array :=
        ⟨mirrors.positive, mirrors.settled, mirrors.sized, mirrors.cached, mirrors.dirty, mirrors.clean, mirrors.length, mirrors.addressed⟩
      have kept : Mirrors evicted array := by
        split at room
        · exact miss.evictOne walked room
        · cases room
          exact miss
      exact ⟨(kept.insert shown).touch id, page, (lookup_insertEntry id id page).trans (if_pos rfl), shown⟩

/-- A page that is written into the pool is written to the array. -/
theorem write (mirrors : Mirrors file array) (id : Nat) {page : Bytes} (sized : page.length = array.pageSize)
    (isPage : id < resetPage) :
    Mirrors { file with cache := insertEntry file.cache id page, dirty := PageFile.insertDirty file.dirty id }
      (writeArray array id page) := by
  have kept := fun other => @lookup_insertEntry _ file.cache id other page
  have marked : ∀ other, other ∈ PageFile.insertDirty file.dirty id ↔ other = id ∨ other ∈ file.dirty := by
    intro other
    unfold PageFile.insertDirty
    split
    · next already => exact ⟨.inr, fun either => either.elim (fun same => same ▸ already) fun member => member⟩
    · exact List.mem_cons
  refine ⟨mirrors.positive, mirrors.settled, ?_, ?_, ?_, ?_, ?_, ?_⟩
  · intro other member
    obtain ⟨position, shown⟩ := List.mem_iff_getElem?.mp member
    by_cases same : position = id
    · rw [same, writeArray_same] at shown
      rw [← Option.some.inj shown]
      exact sized
    · have other_ := @writeArray_other array id page position same
      rw [List.getD_eq_getElem?_getD, shown, Option.getD_some] at other_
      rw [other_, List.getD_eq_getElem?_getD]
      cases before : array.pages[position]? with
      | none => simp [writeArray]
      | some page => exact mirrors.sized page (List.mem_of_getElem? before)
  · intro other found lookup
    have lookup := (kept other).symm.trans lookup
    split at lookup
    · next same =>
        rw [same, writeArray_same]
        exact lookup
    · next apart =>
        have shown := mirrors.cached other found lookup
        have inside := (List.getElem?_eq_some_iff.mp shown).1
        have longer : other < (writeArray array id page).pages.length := by
          rw [writeArray_length]
          exact Nat.lt_of_lt_of_le inside (Nat.le_max_left _ _)
        have same := @writeArray_other array id page other apart
        rw [List.getD_eq_getElem _ _ longer, List.getD_eq_getElem?_getD, shown, Option.getD_some] at same
        rw [List.getElem?_eq_getElem longer, same]
  · intro other member
    refine (lookup_isSome_iff other).mp ?_
    by_cases same : other = id
    · exact ⟨page, (kept other).trans (if_pos same)⟩
    · have before := ((marked other).mp member).resolve_left same
      obtain ⟨found, lookup⟩ := (lookup_isSome_iff other).mpr (mirrors.dirty other before)
      exact ⟨found, (kept other).trans ((if_neg same).trans lookup)⟩
  · intro other clean
    have apart : other ≠ id := fun same => clean ((marked other).mpr (.inl same))
    exact (mirrors.clean other fun member => clean ((marked other).mpr (.inr member))).trans
      (writeArray_other apart).symm
  · obtain ⟨count, whole, below, last⟩ := mirrors.length
    rw [writeArray_length]
    refine ⟨count, whole, below.trans (Nat.le_max_left _ _), fun short => (marked _).mpr ?_⟩
    by_cases longer : array.pages.length ≤ id + 1
    · have same : max array.pages.length (id + 1) - 1 = id := by omega
      exact .inl same
    · have same : max array.pages.length (id + 1) - 1 = array.pages.length - 1 := by omega
      rw [same]
      exact .inr (last (by omega))
  · rw [writeArray_length]
    exact Nat.max_le.mpr ⟨mirrors.addressed, isPage⟩

theorem writePage (mirrors : Mirrors file array) (walked : order.Perm file.dirty) {id : PageId} {page : Bytes}
    (isPage : id < resetPage) (wrote : file.writePage order id page = .ok next) : Mirrors next (writeArray array id page) := by
  unfold PageFile.writePage at wrote
  rw [mirrors.pageSize] at wrote
  split at wrote
  · cases wrote
  next sized =>
  obtain ⟨evicted, room, same⟩ := bind_eq_ok.mp wrote
  obtain rfl := Except.ok.inj same
  have kept : Mirrors evicted array := by
    split at room
    · exact mirrors.evictOne walked room
    · cases room
      exact mirrors
  exact (kept.write id (by simpa using sized) isPage).touch id

theorem flush (mirrors : Mirrors file array) (walked : order.Perm file.dirty)
    (flushed : file.flush order = .ok next) :
    Mirrors next array ∧ next.dirty = [] ∧ next.store.disk.journal = [] ∧ next.store.disk.data.unsynced = [] := by
  obtain ⟨store, done, same⟩ := bind_eq_ok.mp flushed
  obtain rfl := Except.ok.inj same
  obtain ⟨settled, accepted, data, cleared⟩ := mirrors.settled.flush (Store.done_ok done)
  obtain ⟨length, windows⟩ := mirrors.written walked accepted
  have content : store.disk.data.content =
      replay ((file.images order).map (imageChange array.pageSize)) file.store.disk.data.content := by
    rw [data]
    rfl
  rw [← content] at length windows
  refine ⟨⟨mirrors.positive, settled, mirrors.sized, mirrors.cached, ?_, fun id _ => windows id, ?_,
    mirrors.addressed⟩, rfl, cleared, ?_⟩
  · exact fun _ absent => by cases absent
  · exact ⟨_, length, le_rfl, fun short => absurd short (Nat.lt_irrefl _)⟩
  · exact congrArg ByteFile.File.unsynced data

theorem truncate (mirrors : Mirrors file array) (truncated : file.truncate = .ok next) :
    Mirrors next array.truncate := by
  obtain ⟨store, done, same⟩ := bind_eq_ok.mp truncated
  obtain rfl := Except.ok.inj same
  obtain ⟨settled, content⟩ := mirrors.settled.truncate (Store.done_ok done)
  refine ⟨mirrors.positive, settled, ?_, ?_, ?_, ?_, ?_, Nat.zero_le _⟩
  · exact fun _ absent => by cases absent
  · exact fun _ _ absent => by cases absent
  · exact fun _ absent => by cases absent
  · intro id _
    show window store.disk.data.content _ _ = _
    rw [content, Library.ByteFile.window_nil]
    rfl
  · refine ⟨0, ?_, Nat.zero_le _, fun short => absurd short (Nat.lt_irrefl 0)⟩
    show store.disk.data.content.length = _
    rw [content, Nat.zero_mul]
    rfl

/-- A closed file holds the whole array when it is opened again. -/
theorem reopen (mirrors : Mirrors file array) (walked : order.Perm file.dirty)
    (reopened : file.reopen order = .ok next) : Mirrors next array := by
  obtain ⟨closed, flushed, later⟩ := bind_eq_ok.mp reopened
  obtain ⟨store, opened, same⟩ := bind_eq_ok.mp later
  obtain rfl := Except.ok.inj same
  obtain ⟨mirrors', clean, cleared, _⟩ := mirrors.flush walked flushed
  rw [mirrors.pageSize] at opened
  obtain ⟨settled, disk⟩ := mirrors'.settled.opened cleared opened
  have shown := mirrors'.clean
  obtain ⟨count, whole, below, last⟩ := mirrors'.length
  rw [clean] at last shown
  refine ⟨mirrors.positive, settled, mirrors.sized, ?_, ?_, ?_, ?_, mirrors.addressed⟩
  · exact fun _ _ absent => by cases absent
  · exact fun _ absent => by cases absent
  · intro id _
    show window store.disk.data.content _ _ = _
    rw [disk]
    exact shown id List.not_mem_nil
  · refine ⟨count, ?_, below, fun short => absurd (last short) List.not_mem_nil⟩
    show store.disk.data.content.length = _
    rw [disk]
    exact whole

theorem withPage {R : Type} (mirrors : Mirrors file array) (walked : order.Perm file.dirty) {id : PageId}
    {read : Bytes → R} {value : R} (used : file.withPage order id read = .ok (value, next)) :
    Mirrors next array ∧ array.withPage id read = .ok value := by
  obtain ⟨accessed, noted, shown⟩ := bind_eq_ok.mp used
  obtain ⟨kept, page, found, inArray⟩ := mirrors.noteAccess walked noted
  rw [found] at shown
  cases shown
  exact ⟨kept, Storage.PageFile.withPage_of_getElem? inArray read⟩

/-- Every successful call does what it means for the array, with the same result. -/
theorem perform {R : Type} {call : Call R} {result : Result R} (mirrors : Mirrors file array)
    (walked : order.Perm file.dirty) (addressed : file.Addressed call) (performed : file.perform order call = .ok (result, next)) :
    ∃ changed, performArray array call = .ok (result, changed) ∧ Mirrors next changed := by
  cases call with
  | readPage id =>
      obtain ⟨used, read, same⟩ := bind_eq_ok.mp performed
      cases same
      obtain ⟨kept, shown⟩ := mirrors.withPage walked read
      refine ⟨array, ?_, kept⟩
      simp only [performArray, shown, bind, Except.bind]
  | withPage id read =>
      obtain ⟨used, read, same⟩ := bind_eq_ok.mp performed
      cases same
      obtain ⟨kept, shown⟩ := mirrors.withPage walked read
      refine ⟨array, ?_, kept⟩
      simp only [performArray, shown, bind, Except.bind]
  | updatePage id update =>
      obtain ⟨used, updated, same⟩ := bind_eq_ok.mp performed
      cases same
      obtain ⟨accessed, noted, changed⟩ := bind_eq_ok.mp updated
      obtain ⟨kept, page, found, shown⟩ := mirrors.noteAccess walked noted
      rw [found] at changed
      cases changed
      have sized : (update.change page).1.length = array.pageSize :=
        (update.keeps page).trans (mirrors.sized page (List.mem_of_getElem? shown))
      have inside := (List.getElem?_eq_some_iff.mp shown).1
      have written := kept.write id sized (Nat.lt_of_lt_of_le inside kept.addressed)
      rw [writeArray_inside inside] at written
      have changed : array.updatePage id (fun page => .ok (update.change page).1) =
          .ok { array with pages := array.pages.set id (update.change page).1 } :=
        Storage.PageFile.updatePage_of_getElem? shown rfl
      refine ⟨_, ?_, written⟩
      simp only [performArray, Storage.PageFile.withPage_of_getElem? shown, changed, bind, Except.bind]
  | writePage id page =>
      obtain ⟨written, wrote, same⟩ := bind_eq_ok.mp performed
      cases same
      exact ⟨_, rfl, mirrors.writePage walked addressed wrote⟩
  | appendPage =>
      obtain ⟨appended, added, same⟩ := bind_eq_ok.mp performed
      obtain ⟨id, counted, later⟩ := bind_eq_ok.mp added
      obtain ⟨written, wrote, result⟩ := bind_eq_ok.mp later
      cases result
      cases same
      have isPage := addressed
      unfold PageFile.Addressed at isPage
      rw [mirrors.numPages] at counted isPage
      cases counted
      have kept := mirrors.writePage walked (isPage _ rfl) wrote
      rw [mirrors.pageSize, writeArray_end] at kept
      refine ⟨_, ?_, kept⟩
      rw [mirrors.pageSize]
      rfl
  | numPages =>
      obtain ⟨count, counted, same⟩ := bind_eq_ok.mp performed
      cases same
      rw [mirrors.numPages] at counted
      cases counted
      exact ⟨array, rfl, mirrors⟩
  | flush =>
      obtain ⟨flushed, done, same⟩ := bind_eq_ok.mp performed
      cases same
      exact ⟨array, rfl, (mirrors.flush walked done).1⟩
  | truncate =>
      obtain ⟨emptied, done, same⟩ := bind_eq_ok.mp performed
      cases same
      exact ⟨array.truncate, rfl, mirrors.truncate done⟩
  | reopen =>
      obtain ⟨opened, done, same⟩ := bind_eq_ok.mp performed
      cases same
      exact ⟨array, rfl, mirrors.reopen walked done⟩

end Mirrors

/-- A run of successful calls is one of the array, with the same results. -/
theorem run_mirrors {R : Type} {actions : List (Call R × List PageId)} {file last : PageFile}
    {array : Storage.PageFile Bytes} {before results : List (Result R)} (mirrors : Mirrors file array)
    (allowed : Meets PageFile.step PageFile.Allowed (file, before) actions)
    (ran : run PageFile.step (file, before) actions = .ok (last, results)) :
    ∃ reached, run stepArray (array, before) (actions.map (·.1)) = .ok (reached, results) ∧
      Mirrors last reached := by
  induction actions generalizing file array before with
  | nil =>
      cases ran
      exact ⟨array, rfl, mirrors⟩
  | cons action rest ih =>
      obtain ⟨state, stepped, later⟩ := bind_eq_ok.mp ran
      obtain ⟨walked, others⟩ := allowed
      rw [stepped] at others
      obtain ⟨performed, did, same⟩ := bind_eq_ok.mp stepped
      cases same
      obtain ⟨changed, meant, kept⟩ := mirrors.perform walked.1 walked.2 did
      obtain ⟨reached, followed, kept⟩ := ih kept others later
      refine ⟨reached, ?_, kept⟩
      simp only [List.map_cons, run, stepArray, meant, bind, Except.bind]
      exact followed

theorem new_mirrors {pageSize capacity : Nat} {store : Store} (positive : 0 < pageSize)
    (opened : Disk.open ⟨⟨[], []⟩, none, []⟩ pageSize = .ok store) :
    Mirrors (.open_ store capacity) ⟨pageSize, []⟩ := by
  have blank : Settled pageSize (Disk.load ⟨⟨[], []⟩, none, []⟩ pageSize) :=
    ⟨rfl, rfl, rfl, ⟨rfl, rfl⟩, fun _ => rfl⟩
  obtain ⟨settled, disk⟩ := blank.opened rfl opened
  refine ⟨positive, settled, ?_, ?_, ?_, ?_, ?_, Nat.zero_le _⟩
  · exact fun _ absent => by cases absent
  · exact fun _ _ absent => by cases absent
  · exact fun _ absent => by cases absent
  · intro id _
    show window store.disk.data.content _ _ = _
    rw [disk]
    exact Library.ByteFile.window_nil _ _
  · refine ⟨0, ?_, Nat.zero_le _, fun short => absurd short (Nat.lt_irrefl 0)⟩
    show store.disk.data.content.length = _
    rw [disk, Nat.zero_mul]
    rfl

/-- Reverse the bytes of a page. -/
def turned : Update Unit := ⟨fun page => (page.reverse, ()), fun _ => List.length_reverse⟩

/-- Two pages in a pool of one. -/
def crowdedCalls : List (Call Unit × List PageId) :=
  [(.appendPage, []), (.appendPage, [0]), (.writePage 1 [1, 2, 3, 4], [1]), (.readPage 0, [1]),
    (.updatePage 1 turned, []), (.readPage 0, [1]), (.flush, []), (.reopen, []), (.readPage 1, [])]

def smallStore : Store := Disk.load ⟨⟨[], []⟩, none, []⟩ 4

end ChuSQL.Storage.Pager
