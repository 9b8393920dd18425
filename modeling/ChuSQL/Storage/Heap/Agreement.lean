import ChuSQL.Storage.Heap.Indexed

/-! Indexes agree with the heap: pages of bytes store pages of rows, and each
index holds one entry for each stored row with a key. -/

set_option autoImplicit false

namespace ChuSQL.Storage

open BTree SlottedPage

namespace IndexedHeap

variable {serde : Serde}

/-- The library writes the row as some bytes and reads them back. -/
structure Encodable (serde : Serde) (row : Row) : Prop where
  faithful : serde.Faithful row.toJson
  nonempty : serde.toVec row.toJson ≠ []

instance (row : Row) : Decidable (Encodable serde row) :=
  decidable_of_iff (serde.Faithful row.toJson ∧ serde.toVec row.toJson ≠ [])
    ⟨fun both => ⟨both.1, both.2⟩, fun encodable => ⟨encodable.faithful, encodable.nonempty⟩⟩

def rowBytes (serde : Serde) (row : Row) : Nat := (serde.toVec row.toJson).length

/-- The tuples of a page of rows. -/
def encoded (serde : Serde) (page : HeapPage) : SlotMap :=
  page.slots.map (Option.map fun row => serde.toVec row.toJson)

/-- Pages of bytes store pages of rows. -/
structure Stores (serde : Serde) (file : PageFile Bytes) (contents : PageFile HeapPage) : Prop where
  size : contents.pageSize = file.pageSize
  count : contents.pages.length = file.pages.length
  each : ∀ (id : Nat) (bytes : Bytes) (page : HeapPage), file.pages[id]? = some bytes →
    contents.pages[id]? = some page → Represents file.pageSize bytes (encoded serde page)
  rows : ∀ page ∈ contents.pages, ∀ row, some row ∈ page.slots → Encodable serde row

/-! ### Pages -/

theorem encoded_length (page : HeapPage) : (encoded serde page).length = page.slotCount := by
  rw [encoded, List.length_map, HeapPage.slotCount]

theorem encoded_getElem? (page : HeapPage) (slot : Nat) :
    (encoded serde page)[slot]?.join = (page.tuple slot).map fun row => serde.toVec row.toJson := by
  rw [encoded, List.getElem?_map, HeapPage.tuple]
  cases page.slots[slot]? with
  | none => rfl
  | some tuple => rfl

theorem encoded_bytes (page : HeapPage) : (encoded serde page).bytes = page.liveBytes (rowBytes serde) := by
  obtain ⟨slots⟩ := page
  rw [SlotMap.bytes, encoded, HeapPage.liveBytes]
  induction slots with
  | nil => rfl
  | cons tuple slots ih =>
      cases tuple with
      | none => simpa [tupleBytesOf] using ih
      | some row =>
          simp only [List.map_cons, List.sum_cons, Option.map_some, List.filterMap_cons_some (f := id) rfl]
          rw [ih]
          rfl

theorem decodeRow_encoded {row : Row} (encodable : Encodable serde row) (hidden : List String) :
    decodeRow serde hidden (serde.toVec row.toJson) = .ok (row.filter fun column => column ∉ hidden) := by
  rw [decodeRow, show serde.fromSlice (serde.toVec row.toJson) = .ok row.toJson from encodable.faithful]
  simp only [Row.ofJson_toJson]

theorem tuple_mem {page : HeapPage} {slot : Nat} {row : Row} (found : page.tuple slot = some row) :
    some row ∈ page.slots := by
  have entry := Option.join_eq_some_iff.mp found
  exact List.mem_of_getElem? entry

theorem scanSlots_eq {bytes : Bytes} {page : HeapPage} {size : Nat} (hidden : List String) (pageId : Nat)
    (represents : Represents size bytes (encoded serde page))
    (rows : ∀ row, some row ∈ page.slots → Encodable serde row) (among : List Nat) :
    scanSlots serde hidden pageId bytes among =
      .ok (among.filterMap fun slot => (page.tuple slot).map fun row =>
        ((pageId, slot), row.filter fun column => column ∉ hidden)) := by
  induction among with
  | nil => rfl
  | cons slot among ih =>
      have read : tupleBytes bytes slot = (page.tuple slot).map fun row => serde.toVec row.toJson := by
        rw [← encoded_getElem?]
        exact represents.getTuple_eq slot
      rw [scanSlots, read, List.filterMap_cons]
      cases found : page.tuple slot with
      | none => exact ih
      | some row =>
          simp only [Option.map_some, decodeRow_encoded (rows row (tuple_mem found)), ih, bind, Except.bind]

theorem filterMap_range_tuple {α : Type} (slots : List (Option Row)) (entry : Nat → Row → α) :
    ((List.range slots.length).filterMap fun slot => ((⟨slots⟩ : HeapPage).tuple slot).map (entry slot)) =
      slots.zipIdx.filterMap fun indexed => indexed.1.map (entry indexed.2) := by
  have zipped : slots.zipIdx = (List.range slots.length).map fun slot => (slots[slot]?.join, slot) := by
    refine List.ext_getElem (by simp) fun slot inside _ => ?_
    rw [List.length_zipIdx] at inside
    simp [List.getElem_zipIdx, List.getElem?_eq_getElem inside]
  rw [zipped, List.filterMap_map]
  rfl

/-- A scan of the stored pages is the scan of the pages of rows. -/
theorem scanPages_eq {file : PageFile Bytes} {contents : PageFile HeapPage} (hidden : List String)
    (stores : Stores serde file contents) :
    scanPages serde hidden 0 file.pages = .ok (HeapTable.scanPages hidden 0 contents.pages) := by
  have walk : ∀ (pages : List Bytes) (rowPages : List HeapPage) (pageId : Nat),
      rowPages.length = pages.length →
      (∀ (id : Nat) (bytes : Bytes) (page : HeapPage), pages[id]? = some bytes →
        rowPages[id]? = some page → Represents file.pageSize bytes (encoded serde page)) →
      (∀ page ∈ rowPages, ∀ row, some row ∈ page.slots → Encodable serde row) →
      scanPages serde hidden pageId pages = .ok (HeapTable.scanPages hidden pageId rowPages) := by
    intro pages
    induction pages with
    | nil =>
        intro rowPages pageId lengths _ _
        rw [List.length_eq_zero_iff.mp lengths]
        rfl
    | cons bytes pages ih =>
        intro rowPages pageId lengths each rows
        cases rowPages with
        | nil => cases lengths
        | cons page rowPages =>
            have represents := each 0 bytes page rfl rfl
            have here := scanSlots_eq hidden pageId represents (rows page List.mem_cons_self)
              (List.range (slotCount bytes))
            have rest := ih rowPages (pageId + 1) (Nat.succ.inj lengths)
              (fun id bytes page found same => each (id + 1) bytes page found same)
              (fun page member => rows page (List.mem_cons_of_mem _ member))
            rw [represents.count, encoded_length] at here
            have slots := filterMap_range_tuple page.slots fun slot row =>
              ((pageId, slot), row.filter fun column => column ∉ hidden)
            simp only [scanPages, bind, Except.bind, represents.count, encoded_length, here, rest]
            rw [HeapTable.scanPages, HeapPage.slotCount, slots]
  exact walk file.pages contents.pages 0 stores.count stores.each stores.rows

/-! ### Storing a row -/

section Store

variable {file : PageFile Bytes} {contents : PageFile HeapPage}

/-- Change one page on both sides. -/
theorem Stores.set (stores : Stores serde file contents) (id : Nat) {bytes : Bytes} {page : HeapPage}
    (represents : Represents file.pageSize bytes (encoded serde page))
    (rows : ∀ row, some row ∈ page.slots → Encodable serde row) :
    Stores serde { file with pages := file.pages.set id bytes }
      { contents with pages := contents.pages.set id page } where
  size := stores.size
  count := by simp [stores.count]
  each := by
    intro other otherBytes otherPage found same
    rw [List.getElem?_set] at found same
    split at found
    · next here =>
        rw [if_pos here] at same
        split at found
        · split at same
          · cases found
            cases same
            exact represents
          · cases same
        · cases found
    · next distinct =>
        rw [if_neg distinct] at same
        exact stores.each other otherBytes otherPage found same
  rows := by
    intro other member row inside
    rcases List.mem_or_eq_of_mem_set member with old | rfl
    · exact stores.rows other old row inside
    · exact rows row inside

theorem Stores.append (stores : Stores serde file contents) {bytes : Bytes} {page : HeapPage}
    (represents : Represents file.pageSize bytes (encoded serde page))
    (rows : ∀ row, some row ∈ page.slots → Encodable serde row) :
    Stores serde { file with pages := file.pages ++ [bytes] }
      { contents with pages := contents.pages ++ [page] } where
  size := stores.size
  count := by simp [stores.count]
  each := by
    intro other otherBytes otherPage found same
    rcases getElem?_concat found with old | ⟨past, rfl⟩
    · have inside := (List.getElem?_eq_some_iff.mp old).1
      rw [List.getElem?_append_left (by rw [stores.count]; exact inside)] at same
      exact stores.each other otherBytes otherPage old same
    · rw [past, ← stores.count] at same
      rw [List.getElem?_concat_length] at same
      cases same
      exact represents
  rows := by
    intro other member row inside
    rcases List.mem_append.mp member with old | new
    · exact stores.rows other old row inside
    · rw [List.mem_singleton.mp new] at inside
      exact rows row inside

theorem Stores.page (stores : Stores serde file contents) {id : Nat} {bytes : Bytes}
    (found : file.pages[id]? = some bytes) :
    ∃ page, contents.pages[id]? = some page ∧ Represents file.pageSize bytes (encoded serde page) ∧
      ∀ row, some row ∈ page.slots → Encodable serde row := by
  have inside : id < contents.pages.length := by
    rw [stores.count]
    exact (List.getElem?_eq_some_iff.mp found).1
  have same := List.getElem?_eq_getElem inside
  exact ⟨contents.pages[id], same, stores.each id bytes _ found same,
    stores.rows _ (List.getElem_mem inside)⟩

theorem mem_concat_slots {page : HeapPage} {row other : Row}
    (rows : ∀ row, some row ∈ page.slots → Encodable serde row) (encodable : Encodable serde row)
    (member : some other ∈ page.slots ++ [some row]) : Encodable serde other := by
  rcases List.mem_append.mp member with old | new
  · exact rows other old
  · rw [Option.some.inj (List.mem_singleton.mp new)]
    exact encodable

/-- A checked tuple goes into slot 0 of a new page. -/
theorem appendTuple_stores (stores : Stores serde file contents) (high : file.pageSize ≤ maxPageSize)
    {row : Row} (encodable : Encodable serde row)
    (fits : headerSize + SlottedPage.slotSize + (serde.toVec row.toJson).length ≤ file.pageSize) :
    ∃ bytes, appendTuple file (serde.toVec row.toJson) =
        ((file.pages.length, 0), { file with pages := file.pages ++ [bytes] }) ∧
      Stores serde { file with pages := file.pages ++ [bytes] }
        { contents with pages := contents.pages ++ [⟨[some row]⟩] } := by
  have enough : headerSize ≤ file.pageSize := le_trans (by omega) fits
  have empty := represents_zeroed enough
  have room : slotOff (([] : SlotMap).length + 1) + (serde.toVec row.toJson).length ≤
      freeEnd (zeroed file.pageSize) := by
    have free : freeEnd (zeroed file.pageSize) = file.pageSize := by
      rw [freeEnd, empty.count]
      exact empty.length
    rw [free]
    exact fits
  have inserted := represents_insert empty high encodable.nonempty room
  have placed := insertTuple_eq (zeroed file.pageSize) (serde.toVec row.toJson)
  rw [empty.count, if_pos room] at placed
  have rows : ∀ other, some other ∈ (⟨[some row]⟩ : HeapPage).slots → Encodable serde other := by
    intro other member
    rw [Option.some.inj (List.mem_singleton.mp member)]
    exact encodable
  refine ⟨_, ?_, stores.append inserted rows⟩
  rw [appendTuple, placed]
  rfl

/-- Storing a row on slotted pages is storing it on pages of rows. -/
theorem insertReturningPosition_stores {hidden : List String} {indexes : List MapIndex}
    (stores : Stores serde file contents) (high : file.pageSize ≤ maxPageSize) {row : Row}
    (encodable : Encodable serde row)
    (fits : headerSize + SlottedPage.slotSize + (serde.toVec row.toJson).length ≤ file.pageSize) :
    ∃ position next nextContents,
      insertReturningPosition serde ⟨hidden, file, indexes⟩ row =
        (.ok position, ⟨hidden, next, indexes⟩) ∧
      HeapTable.insertReturningPosition (rowBytes serde) ⟨[], contents, []⟩ row =
        .ok (position, ⟨[], nextContents, []⟩) ∧
      Stores serde next nextContents ∧ next.pageSize = file.pageSize := by
  have encodedRow : encodeRow serde row file.pageSize = .ok (serde.toVec row.toJson) := by
    rw [encodeRow, if_neg (not_lt.mpr fits)]
  have accepted : HeapTable.encodeRow (rowBytes serde) contents.pageSize row = .ok () := by
    rw [HeapTable.encodeRow, stores.size]
    exact if_neg (not_lt.mpr fits)
  simp only [insertReturningPosition, HeapTable.insertReturningPosition, encodedRow, accepted, bind,
    Except.bind, PageFile.numPages_eq, stores.count]
  cases found : file.pages[file.pages.length - 1]? with
  | none =>
      have missing : contents.pages[file.pages.length - 1]? = none := by
        rw [List.getElem?_eq_none_iff] at found ⊢
        rw [stores.count]
        exact found
      obtain ⟨bytes, appended, stored⟩ := appendTuple_stores stores high encodable fits
      refine ⟨(file.pages.length, 0), _, _, ?_, ?_, stored, rfl⟩
      · simp only [appended]
      · simp only [missing, Option.bind_none, PageFile.appendPage, PageFile.numPages_eq, stores.count]
  | some bytes =>
      obtain ⟨page, same, represents, rows⟩ := stores.page found
      obtain ⟨compacted, free⟩ := compactPage_spec represents high
      have placed := insertTuple_eq (compactPage bytes).2 (serde.toVec row.toJson)
      have fit := represents.bytes_le
      have low := represents.freeEnd_le
      rw [compacted.count, free, encoded_length] at placed
      have bound := slotOff_eq (page.slotCount + 1)
      by_cases room : slotOff (page.slotCount + 1) + (serde.toVec row.toJson).length ≤
          file.pageSize - (encoded serde page).bytes
      · rw [if_pos room] at placed
        have inserted := represents_insert compacted high encodable.nonempty
          (by rw [encoded_length, free]; exact room)
        rw [encoded_length, free] at inserted
        have concat : encoded serde page ++ [some (serde.toVec row.toJson)] =
            encoded serde ⟨page.slots ++ [some row]⟩ := by simp [encoded]
        rw [concat] at inserted
        have accepts : page.insertTuple (rowBytes serde) contents.pageSize row =
            some (page.slotCount, ⟨page.slots ++ [some row]⟩) := by
          rw [HeapPage.insertTuple, if_neg]
          rw [stores.size, ← encoded_bytes]
          simp only [HeapPage.headerSize, HeapPage.slotSize, rowBytes]
          omega
        refine ⟨(file.pages.length - 1, page.slotCount), _, _, ?_, ?_, stores.set (file.pages.length - 1) inserted fun other member =>
          mem_concat_slots rows encodable member, rfl⟩
        · simp only [placed]
        · simp only [same, Option.bind_some, accepts]
      · rw [if_neg room] at placed
        have refuses : page.insertTuple (rowBytes serde) contents.pageSize row = none := by
          rw [HeapPage.insertTuple, if_pos]
          rw [stores.size, ← encoded_bytes]
          simp only [HeapPage.headerSize, HeapPage.slotSize, rowBytes]
          omega
        have kept : Stores serde { file with
            pages := file.pages.set (file.pages.length - 1) (compactPage bytes).2 } contents := by
          have set : Stores serde
              { file with pages := file.pages.set (file.pages.length - 1) (compactPage bytes).2 }
              { contents with pages := contents.pages.set (file.pages.length - 1) page } :=
            stores.set _ compacted rows
          rwa [set_of_getElem? same] at set
        obtain ⟨bytes, appended, stored⟩ := appendTuple_stores kept high encodable fits
        refine ⟨(file.pages.length, 0), _, _, ?_, ?_, stored, rfl⟩
        · simp only [placed, appended, List.length_set]
        · simp only [same, Option.bind_some, refuses, PageFile.appendPage, PageFile.numPages_eq,
            stores.count]

/-! ### Deleting a row -/

theorem tuple_none_set {page : HeapPage} {slot : Nat} (missing : page.tuple slot = none) :
    page.slots.set slot none = page.slots := by
  rw [HeapPage.tuple] at missing
  by_cases inside : slot < page.slots.length
  · rw [List.getElem?_eq_getElem inside] at missing
    refine set_of_getElem? ?_
    rw [List.getElem?_eq_getElem inside]
    exact congrArg some missing
  · exact List.set_eq_of_length_le (not_lt.mp inside)

/-- Deleting on slotted pages is emptying the slot on pages of rows. -/
theorem deleteAt_stores {hidden : List String} {indexes : List MapIndex}
    (stores : Stores serde file contents) (high : file.pageSize ≤ maxPageSize) {id : Nat} {page : HeapPage}
    (found : contents.pages[id]? = some page) (slot : Nat) :
    ∃ next, Stores serde next
        { contents with pages := contents.pages.set id ⟨page.slots.set slot none⟩ } ∧
      next.pageSize = file.pageSize ∧
      deleteAt serde ⟨hidden, file, indexes⟩ id slot =
        match page.tuple slot with
        | none => (.ok none, ⟨hidden, next, indexes⟩)
        | some row => (.ok (some (row.filter fun column => column ∉ hidden)), ⟨hidden, next,
            removeKeys (row.filter fun column => column ∉ hidden) (packPosition id slot) indexes⟩) := by
  have inside : id < file.pages.length := by
    rw [← stores.count]
    exact (List.getElem?_eq_some_iff.mp found).1
  have foundBytes := List.getElem?_eq_getElem inside
  have represents := stores.each id file.pages[id] page foundBytes found
  have rows := stores.rows page (List.mem_of_getElem? found)
  obtain ⟨existed, deleted⟩ := deleteTuple_spec represents slot
  have read : tupleBytes file.pages[id] slot =
      (page.tuple slot).map fun row => serde.toVec row.toJson := by
    rw [← encoded_getElem?]
    exact represents.getTuple_eq slot
  have emptied : (encoded serde page).set slot none = encoded serde ⟨page.slots.set slot none⟩ := by
    rw [encoded, encoded, List.map_set]
    rfl
  have kept : ∀ row, some row ∈ (⟨page.slots.set slot none⟩ : HeapPage).slots → Encodable serde row := by
    intro row member
    rcases List.mem_or_eq_of_mem_set member with old | new
    · exact rows row old
    · cases new
  rw [encoded_getElem?, Option.isSome_map] at existed
  rw [emptied] at deleted
  simp only [deleteAt, readAt, PageFile.withPage_of_getElem? foundBytes, foundBytes, read, bind, Except.bind]
  cases tuple : page.tuple slot with
  | none =>
      rw [tuple] at existed
      refine ⟨_, stores.set id deleted kept, rfl, ?_⟩
      have gone : (deleteTuple file.pages[id] slot).1 = false := existed
      simp [gone]
  | some row =>
      rw [tuple] at existed
      refine ⟨_, stores.set id (compactIfFragmented_spec deleted high) kept, rfl, ?_⟩
      have there : (deleteTuple file.pages[id] slot).1 = true := existed
      simp [there, decodeRow_encoded (rows row (tuple_mem tuple))]

end Store

/-! ### Entries of an index -/

/-- What an index of the column should hold for some rows. -/
def entriesOf (column : String) (rows : List ((Nat × Nat) × Row)) : List (Key × Nat) :=
  rows.filterMap fun entry =>
    (rowKey entry.2 column).map fun key => (key, packPosition entry.1.1 entry.1.2)

theorem rowKey_filter {hidden : List String} {column : String} (visible : column ∉ hidden) (row : Row) :
    rowKey (row.filter fun column => column ∉ hidden) column = rowKey row column := by
  have fields : ∀ fields : List (String × Json),
      (fields.filter fun field => decide (field.1 ∉ hidden)).lookup column = fields.lookup column := by
    intro fields
    induction fields with
    | nil => rfl
    | cons field fields ih =>
        obtain ⟨name, value⟩ := field
        by_cases same : column = name
        · subst same
          rw [List.filter_cons_of_pos (by simpa using visible), List.lookup_cons_self,
            List.lookup_cons_self]
        · have differs : (column == name) = false := by simpa using same
          rw [List.lookup_cons, differs, List.filter_cons]
          split
          · rw [List.lookup_cons, differs]
            exact ih
          · exact ih
  rw [rowKey, rowKey, Row.get, Row.get, Row.filter, fields]

theorem perm_cons_filter {rows : List ((Nat × Nat) × Row)} (distinct : (rows.map (·.1)).Nodup)
    {position : Nat × Nat} {row : Row} (member : (position, row) ∈ rows) :
    rows.Perm ((position, row) :: rows.filter (·.1 ≠ position)) := by
  induction rows with
  | nil => cases member
  | cons entry rows ih =>
      obtain ⟨fresh, distinct⟩ := List.nodup_cons.mp distinct
      cases member with
      | head =>
          have others : rows.filter (·.1 ≠ position) = rows := by
            refine List.filter_eq_self.mpr fun other inside => ?_
            simp only [ne_eq, decide_not, Bool.not_eq_true', decide_eq_false_iff_not]
            rintro rfl
            exact fresh (List.mem_map.mpr ⟨other, inside, rfl⟩)
          rw [List.filter_cons_of_neg (by simp), others]
      | tail _ later =>
          have differs : entry.1 ≠ position := by
            rintro rfl
            exact fresh (List.mem_map.mpr ⟨_, later, rfl⟩)
          rw [List.filter_cons_of_pos (by simpa using differs)]
          exact ((ih distinct later).cons entry).trans (.swap _ _ _)

theorem mem_scanPages_tuple {pages : List HeapPage} {id slot : Nat} {page : HeapPage} {row : Row}
    (found : pages[id]? = some page) (tuple : page.tuple slot = some row) (pageId : Nat) :
    ((pageId + id, slot), row) ∈ HeapTable.scanPages [] pageId pages := by
  induction pages generalizing id pageId with
  | nil => cases found
  | cons first rest ih =>
      rw [HeapTable.scanPages_cons, List.mem_append]
      cases id with
      | zero =>
          cases found
          have entry := Option.join_eq_some_iff.mp tuple
          refine .inl (List.mem_filterMap.mpr ⟨(some row, slot), ?_, rfl⟩)
          exact List.mem_zipIdx_iff_getElem?.mpr entry
      | succ id =>
          have later := ih found (pageId + 1)
          rw [show pageId + 1 + id = pageId + (id + 1) by omega] at later
          exact .inr later

/-! ### Agreement -/

/-- The heap stores some pages of rows, and every index holds one entry for each
of these rows with a key. Indexes are on visible columns. -/
structure Agrees (serde : Serde) (table : IndexedHeap) (contents : PageFile HeapPage) : Prop where
  short : table.file.pageSize ≤ maxPageSize
  stores : Stores serde table.file contents
  visible : ∀ index ∈ table.indexes, index.column ∉ table.hiddenColumns
  entries : ∀ index ∈ table.indexes,
    index.tree.pairs.Perm (entriesOf index.column (HeapTable.scanPages [] 0 contents.pages))

section Steps

variable {table : IndexedHeap} {contents : PageFile HeapPage}

/-- File a key in one index. -/
def fileKey (row : Row) (position : Nat) (index : MapIndex) : MapIndex :=
  match rowKey row index.column with
  | none => index
  | some key => { index with tree := { index.tree with pairs := (key, position) :: index.tree.pairs } }

theorem fileKey_column (row : Row) (position : Nat) (index : MapIndex) :
    (fileKey row position index).column = index.column := by
  rw [fileKey]
  split <;> rfl

/-- Every key of the row is accepted by the index it goes to. -/
def KeysFit (row : Row) (indexes : List MapIndex) : Prop :=
  ∀ index ∈ indexes, ∀ key ∈ rowKey row index.column, index.tree.validateKey key = .ok ()

theorem KeysFit.tail {row : Row} {index : MapIndex} {indexes : List MapIndex}
    (fit : KeysFit row (index :: indexes)) : KeysFit row indexes :=
  fun other member => fit other (List.mem_cons_of_mem _ member)

theorem addKeys_ok {row : Row} {indexes : List MapIndex} (fit : KeysFit row indexes) (position : Nat) :
    addKeys row position indexes = (.ok (), indexes.map (fileKey row position)) := by
  induction indexes with
  | nil => rfl
  | cons index indexes ih =>
      have valid := fit index List.mem_cons_self
      rw [addKeys, ih fit.tail, List.map_cons, fileKey]
      cases found : rowKey row index.column with
      | none => rfl
      | some key => simp [Multimap.insert, valid key found, bind, Except.bind]

theorem validateKeys_fit {row : Row} {indexes : List MapIndex} (checked : validateKeys row indexes = .ok ()) :
    KeysFit row indexes := by
  induction indexes with
  | nil => exact fun _ member => by cases member
  | cons index indexes ih =>
      rw [validateKeys] at checked
      intro other member key found
      cases keyed : rowKey row index.column with
      | none =>
          rw [keyed] at checked
          cases member with
          | head =>
              rw [keyed] at found
              cases found
          | tail _ later => exact ih checked other later key found
      | some own =>
          simp only [keyed, bind, Except.bind] at checked
          cases valid : index.tree.validateKey own with
          | error error =>
              rw [valid] at checked
              cases checked
          | ok _ =>
              simp only [valid] at checked
              cases member with
              | head =>
                  rw [keyed] at found
                  cases found
                  exact valid
              | tail _ later => exact ih checked other later key found

theorem checkIndexes_fit {row : Row} {indexes : List MapIndex} (checked : checkIndexes row indexes = .ok ()) :
    KeysFit row indexes := by
  refine validateKeys_fit ?_
  induction indexes with
  | nil => rfl
  | cons index indexes ih =>
      rw [checkIndexes] at checked
      rw [validateKeys]
      cases keyed : rowKey row index.column with
      | none =>
          rw [keyed] at checked
          exact ih checked
      | some key =>
          simp only [keyed, bind, Except.bind] at checked ⊢
          cases valid : index.tree.validateKey key with
          | error error =>
              rw [valid] at checked
              cases checked
          | ok _ =>
              simp only [valid] at checked ⊢
              split at checked
              · cases checked
              · exact ih checked

theorem entriesOf_append (column : String) (first second : List ((Nat × Nat) × Row)) :
    entriesOf column (first ++ second) = entriesOf column first ++ entriesOf column second :=
  List.filterMap_append

/-- The index entry of a row stored last. -/
theorem fileKey_entries {rows : List ((Nat × Nat) × Row)} {index : MapIndex}
    (entries : index.tree.pairs.Perm (entriesOf index.column rows)) (row : Row) (position : Nat × Nat) :
    (fileKey row (packPosition position.1 position.2) index).tree.pairs.Perm
      (entriesOf index.column (rows ++ [(position, row)])) := by
  rw [entriesOf_append, fileKey]
  cases found : rowKey row index.column with
  | none => simpa [entriesOf, found] using entries
  | some key =>
      have last : entriesOf index.column [(position, row)] = [(key, packPosition position.1 position.2)] := by
        simp [entriesOf, found]
      rw [last]
      exact (entries.cons _).trans (List.perm_append_singleton _ _).symm

/-- A row whose encoding and keys fit is stored and filed. -/
theorem storeRow_agrees (agrees : Agrees serde table contents) {row : Row} (encodable : Encodable serde row)
    (keys : KeysFit row table.indexes) :
    (∃ error, storeRow serde table row = (.error error, table)) ∨
      ∃ position next nextContents, storeRow serde table row = (.ok position, next) ∧
        Agrees serde next nextContents ∧ next.hiddenColumns = table.hiddenColumns ∧
        next.indexes = table.indexes.map (fileKey row (packPosition position.1 position.2)) := by
  obtain ⟨hidden, file, indexes⟩ := table
  obtain ⟨short, stores, visible, entries⟩ := agrees
  by_cases fits : headerSize + SlottedPage.slotSize + (serde.toVec row.toJson).length ≤ file.pageSize
  · obtain ⟨position, next, nextContents, inserted, abstract, stored, sized⟩ :=
      @insertReturningPosition_stores _ _ _ hidden indexes stores short _ encodable fits
    have scanned := (HeapTable.scan_insertReturningPosition rfl abstract).1
    refine .inr ⟨position,
      ⟨hidden, next, indexes.map (fileKey row (packPosition position.1 position.2))⟩, nextContents, ?_,
      ⟨?_, stored, ?_, ?_⟩, rfl, rfl⟩
    · simp only [storeRow, inserted, addKeys_ok keys, Except.map]
    · exact sized.le.trans short
    · intro index member
      obtain ⟨old, inside, rfl⟩ := List.mem_map.mp member
      rw [fileKey_column]
      exact visible old inside
    · intro index member
      obtain ⟨old, inside, rfl⟩ := List.mem_map.mp member
      have filed := fileKey_entries (entries old inside) row position
      rw [fileKey_column]
      have same : HeapTable.scanPages [] 0 nextContents.pages =
        HeapTable.scanPages [] 0 contents.pages ++ [(position, row)] := scanned
      rw [same]
      exact filed
  · refine .inl ⟨.ofMessage s!"tuple too large: {(serde.toVec row.toJson).length} bytes", ?_⟩
    simp only [storeRow, insertReturningPosition, encodeRow, if_pos (not_le.mp fits)]

/-- A row that is refused changes nothing; one that is stored is filed. -/
theorem insertRow_agrees (agrees : Agrees serde table contents) {row : Row} (encodable : Encodable serde row) :
    (∃ error, insertRow serde table row = (.error error, table)) ∨
      ∃ next nextContents, insertRow serde table row = (.ok (), next) ∧
        Agrees serde next nextContents ∧ next.hiddenColumns = table.hiddenColumns := by
  rw [insertRow, insertRowReturningPosition]
  cases checked : checkIndexes row table.indexes with
  | error error => exact .inl ⟨error, rfl⟩
  | ok _ =>
      rcases storeRow_agrees agrees encodable (checkIndexes_fit checked) with refused | stored
      · obtain ⟨error, refused⟩ := refused
        refine .inl ⟨error, ?_⟩
        simp only [refused, Except.map]
      · obtain ⟨position, next, nextContents, stored, agreesNext, hidden, -⟩ := stored
        refine .inr ⟨next, nextContents, ?_, agreesNext, hidden⟩
        simp only [stored, Except.map]

/-- The indexes agree after the step, whatever it returned. -/
def Keeps (serde : Serde) (table next : IndexedHeap) : Prop :=
  (∃ contents, Agrees serde next contents) ∧ next.hiddenColumns = table.hiddenColumns

theorem Keeps.refl (agrees : Agrees serde table contents) : Keeps serde table table :=
  ⟨⟨contents, agrees⟩, rfl⟩

theorem Keeps.trans {middle next : IndexedHeap} (first : Keeps serde table middle)
    (second : Keeps serde middle next) : Keeps serde table next :=
  ⟨second.1, second.2.trans first.2⟩

theorem insertRows_keeps {rows : List Row} (encodable : ∀ row ∈ rows, Encodable serde row)
    (agrees : Agrees serde table contents) : Keeps serde table (insertRows serde table rows).2 := by
  induction rows generalizing table contents with
  | nil => exact .refl agrees
  | cons row rows ih =>
      rw [insertRows]
      rcases insertRow_agrees agrees (encodable row List.mem_cons_self) with refused | stored
      · obtain ⟨error, refused⟩ := refused
        rw [refused]
        exact .refl agrees
      · obtain ⟨next, nextContents, stored, agreesNext, hidden⟩ := stored
        rw [stored]
        have first : Keeps serde table next := ⟨⟨nextContents, agreesNext⟩, hidden⟩
        exact first.trans (ih (fun other member => encodable other (List.mem_cons_of_mem _ member)) agreesNext)

/-! ### Rewriting the table -/

theorem KeysFit.fileKey {row other : Row} {indexes : List MapIndex} {position : Nat}
    (fit : KeysFit other indexes) : KeysFit other (indexes.map (fileKey row position)) := by
  intro index member key found
  obtain ⟨old, inside, rfl⟩ := List.mem_map.mp member
  rw [fileKey_column] at found
  have valid := fit old inside key found
  rw [IndexedHeap.fileKey]
  split <;> exact valid

theorem KeysFit.clear {row : Row} {indexes : List MapIndex} (fit : KeysFit row indexes) :
    KeysFit row (indexes.map fun index => { index with tree := index.tree.clear }) := by
  intro index member key found
  obtain ⟨old, inside, rfl⟩ := List.mem_map.mp member
  exact fit old inside key found

theorem refill_keeps {rows : List Row} (encodable : ∀ row ∈ rows, Encodable serde row)
    (agrees : Agrees serde table contents) (keys : ∀ row ∈ rows, KeysFit row table.indexes) :
    Keeps serde table (refill serde table rows).2 := by
  induction rows generalizing table contents with
  | nil => exact .refl agrees
  | cons row rows ih =>
      rw [refill]
      rcases storeRow_agrees agrees (encodable row List.mem_cons_self) (keys row List.mem_cons_self)
        with refused | stored
      · obtain ⟨error, refused⟩ := refused
        rw [refused]
        exact .refl agrees
      · obtain ⟨position, next, nextContents, stored, agreesNext, hidden, filed⟩ := stored
        rw [stored]
        have first : Keeps serde table next := ⟨⟨nextContents, agreesNext⟩, hidden⟩
        refine first.trans (ih (fun other member => encodable other (List.mem_cons_of_mem _ member))
          agreesNext fun other member => ?_)
        rw [filed]
        exact (keys other (List.mem_cons_of_mem _ member)).fileKey

theorem checkReplacement_fit {rows : List Row} (checked : checkReplacement serde table rows = .ok ()) :
    ∀ row ∈ rows, KeysFit row table.indexes := by
  induction rows with
  | nil => exact fun _ member => by cases member
  | cons row rows ih =>
      simp only [checkReplacement, bind, Except.bind] at checked
      cases encodes : encodeRow serde row table.file.pageSize with
      | error error =>
          rw [encodes] at checked
          cases checked
      | ok tuple =>
          simp only [encodes] at checked
          cases valid : validateKeys row table.indexes with
          | error error =>
              rw [valid] at checked
              cases checked
          | ok _ =>
              simp only [valid] at checked
              exact List.forall_mem_cons.mpr ⟨validateKeys_fit valid, ih checked⟩

theorem replaceAll_keeps {rows : List Row} (encodable : ∀ row ∈ rows, Encodable serde row)
    (agrees : Agrees serde table contents) : Keeps serde table (replaceAll serde table rows).2 := by
  rw [replaceAll]
  cases checked : checkReplacement serde table rows with
  | error error => exact .refl agrees
  | ok _ =>
      have cleared : Agrees serde { table with
          file := table.file.truncate
          indexes := table.indexes.map fun index => { index with tree := index.tree.clear } }
          { contents with pages := [] } := by
        refine ⟨agrees.short, ⟨agrees.stores.size, rfl, ?_, ?_⟩, ?_, ?_⟩
        · intro id bytes page found
          cases found
        · intro page member
          cases member
        · intro index member
          obtain ⟨old, inside, rfl⟩ := List.mem_map.mp member
          exact agrees.visible old inside
        · intro index member
          obtain ⟨old, inside, rfl⟩ := List.mem_map.mp member
          exact .refl _
      have fit := checkReplacement_fit checked
      exact refill_keeps encodable cleared fun row member => (fit row member).clear

/-! ### Deleting rows -/

theorem removeKeys_entries {rows : List ((Nat × Nat) × Row)} (distinct : (rows.map (·.1)).Nodup)
    {position : Nat × Nat} {row visible : Row} (member : (position, row) ∈ rows) {index : MapIndex}
    (same : rowKey visible index.column = rowKey row index.column)
    (entries : index.tree.pairs.Perm (entriesOf index.column rows)) :
    (removeKey visible (packPosition position.1 position.2) index).tree.pairs.Perm
      (entriesOf index.column (rows.filter (·.1 ≠ position))) := by
  have split : (entriesOf index.column rows).Perm (entriesOf index.column
      ((position, row) :: rows.filter (·.1 ≠ position))) :=
    (perm_cons_filter distinct member).filterMap _
  rw [removeKey, same]
  cases found : rowKey row index.column with
  | none =>
      have rest : entriesOf index.column ((position, row) :: rows.filter (·.1 ≠ position)) =
          entriesOf index.column (rows.filter (·.1 ≠ position)) := by
        simp [entriesOf, found]
      rw [rest] at split
      exact entries.trans split
  | some key =>
      have rest : entriesOf index.column ((position, row) :: rows.filter (·.1 ≠ position)) =
          (key, packPosition position.1 position.2) ::
            entriesOf index.column (rows.filter (·.1 ≠ position)) := by
        simp [entriesOf, found]
      rw [rest] at split
      have erased := (entries.trans split).erase (key, packPosition position.1 position.2)
      rwa [List.erase_cons_head] at erased

theorem removeKey_column (row : Row) (position : Nat) (index : MapIndex) :
    (removeKey row position index).column = index.column := by
  rw [removeKey]
  split <;> rfl

theorem deleteAt_keeps (agrees : Agrees serde table contents) (id slot : Nat) :
    Keeps serde table (deleteAt serde table id slot).2 := by
  obtain ⟨hidden, file, indexes⟩ := table
  obtain ⟨short, stores, visible, entries⟩ := agrees
  cases found : contents.pages[id]? with
  | none =>
      have missing : file.pages[id]? = none := by
        rw [List.getElem?_eq_none_iff] at found ⊢
        rw [← stores.count]
        exact found
      have unchanged : (deleteAt serde ⟨hidden, file, indexes⟩ id slot).2 = ⟨hidden, file, indexes⟩ := by
        simp only [deleteAt, readAt, PageFile.withPage, missing, bind, Except.bind]
      rw [unchanged]
      exact .refl ⟨short, stores, visible, entries⟩
  | some page =>
      obtain ⟨next, stored, sized, deleted⟩ :=
        @deleteAt_stores _ _ _ hidden indexes stores short _ _ found slot
      rw [deleted]
      have scanned := @HeapTable.scanPages_set_none 0 id slot _ _ found
      rw [Nat.zero_add] at scanned
      cases tuple : page.tuple slot with
      | none =>
          rw [tuple_none_set tuple, set_of_getElem? found] at stored
          exact ⟨⟨contents, sized.le.trans short, stored, visible, entries⟩, rfl⟩
      | some row =>
          refine ⟨⟨_, sized.le.trans short, stored, ?_, ?_⟩, rfl⟩
          · intro index member
            obtain ⟨old, inside, rfl⟩ := List.mem_map.mp member
            rw [removeKey_column]
            exact visible old inside
          · intro index member
            obtain ⟨old, inside, rfl⟩ := List.mem_map.mp member
            have present := mem_scanPages_tuple found tuple 0
            rw [Nat.zero_add] at present
            have removed := removeKeys_entries (HeapTable.scanPages_nodup 0 contents.pages) present
              (rowKey_filter (visible old inside) row) (entries old inside)
            rw [removeKey_column, scanned]
            exact removed

theorem deletePositions_keeps {positions : List (Nat × Nat)} (agrees : Agrees serde table contents) :
    Keeps serde table (deletePositions serde table positions).2 := by
  induction positions generalizing table contents with
  | nil => exact .refl agrees
  | cons position positions ih =>
      obtain ⟨id, slot⟩ := position
      have first := deleteAt_keeps agrees id slot
      rw [deletePositions]
      cases deleted : deleteAt serde table id slot with
      | mk result next =>
          rw [deleted] at first
          cases result with
          | error error => exact first
          | ok row =>
              obtain ⟨nextContents, agreesNext⟩ := first.1
              exact first.trans (ih agreesNext)

theorem deleteByKeys_keeps (agrees : Agrees serde table contents) (keys : List Int) :
    Keeps serde table (deleteByKeys serde table keys).2 := by
  rw [deleteByKeys]
  cases positionsOf serde table keys with
  | error error => exact .refl agrees
  | ok positions => exact deletePositions_keeps agrees

/-! ### Building and detaching an index, compacting pages -/

theorem collectEntries_eq {column : String} {pageSize order : Nat} {seen : List Key}
    {rows : List ((Nat × Nat) × Row)} {entries : List (Key × Nat)}
    (collected : collectEntries column pageSize order seen rows = .ok entries) :
    entries = entriesOf column rows ∧
      ∀ entry ∈ entries, DiskBTree.checkKey entry.1 pageSize order = .ok () := by
  induction rows generalizing seen entries with
  | nil =>
      cases collected
      exact ⟨rfl, List.forall_mem_nil _⟩
  | cons entry rows ih =>
      obtain ⟨position, row⟩ := entry
      rw [collectEntries] at collected
      cases found : rowKey row column with
      | none =>
          rw [found] at collected
          obtain ⟨same, checked⟩ := ih collected
          refine ⟨?_, checked⟩
          rw [same, entriesOf, entriesOf, List.filterMap_cons, found]
          rfl
      | some key =>
          simp only [found, bind, Except.bind] at collected
          cases valid : DiskBTree.checkKey key pageSize order with
          | error error =>
              rw [valid] at collected
              cases collected
          | ok _ =>
              simp only [valid] at collected
              split at collected
              · cases collected
              · cases later : collectEntries column pageSize order (key :: seen) rows with
                | error error =>
                    rw [later] at collected
                    cases collected
                | ok rest =>
                    rw [later] at collected
                    cases collected
                    obtain ⟨same, checked⟩ := ih later
                    refine ⟨?_, List.forall_mem_cons.mpr ⟨valid, checked⟩⟩
                    rw [same, entriesOf, entriesOf, List.filterMap_cons, found]
                    rfl

theorem fillTree_ok {entries : List (Key × Nat)} (tree : Multimap)
    (checked : ∀ entry ∈ entries, tree.validateKey entry.1 = .ok ()) :
    ∃ filled, fillTree tree entries = (.ok (), filled) ∧ filled.pairs.Perm (tree.pairs ++ entries) := by
  induction entries generalizing tree with
  | nil => exact ⟨tree, rfl, by rw [List.append_nil]⟩
  | cons entry entries ih =>
      obtain ⟨key, position⟩ := entry
      obtain ⟨valid, later⟩ := List.forall_mem_cons.mp checked
      obtain ⟨filled, done, same⟩ := ih { tree with pairs := (key, position) :: tree.pairs } later
      refine ⟨filled, ?_, same.trans List.perm_middle.symm⟩
      simp only [fillTree, Multimap.insert, valid, bind, Except.bind]
      exact done

theorem entriesOf_visible {hidden : List String} {column : String} (visible : column ∉ hidden)
    (pageId : Nat) (pages : List HeapPage) :
    entriesOf column (HeapTable.scanPages hidden pageId pages) =
      entriesOf column (HeapTable.scanPages [] pageId pages) := by
  induction pages generalizing pageId with
  | nil => rfl
  | cons page pages ih =>
      rw [HeapTable.scanPages, HeapTable.scanPages_cons, entriesOf_append, entriesOf_append, ih]
      congr 1
      rw [entriesOf, entriesOf, HeapTable.pageEntries, List.filterMap_filterMap, List.filterMap_filterMap]
      refine List.filterMap_congr fun indexed _ => ?_
      obtain ⟨tuple, slot⟩ := indexed
      cases tuple with
      | none => rfl
      | some row => simp only [Option.map_some, Option.bind_some, rowKey_filter visible]

theorem buildIndex_keeps (agrees : Agrees serde table contents) {column : String}
    (visible : column ∉ table.hiddenColumns) (pageSize order : Nat) :
    Keeps serde table (buildIndex serde table column pageSize order).2 := by
  rw [buildIndex]
  split
  · exact .refl agrees
  · rw [scanWithPositions, scanPages_eq table.hiddenColumns agrees.stores]
    cases collected : collectEntries column pageSize order []
        (HeapTable.scanPages table.hiddenColumns 0 contents.pages) with
    | error error =>
        simp only [collected]
        exact .refl agrees
    | ok entries =>
        obtain ⟨same, checked⟩ := collectEntries_eq collected
        obtain ⟨filled, done, pairs⟩ := fillTree_ok ⟨pageSize, order, []⟩ checked
        simp only [collected, done]
        refine ⟨⟨contents, agrees.short, agrees.stores, ?_, ?_⟩, rfl⟩
        · intro index member
          rcases List.mem_append.mp member with old | new
          · exact agrees.visible index old
          · rw [List.mem_singleton.mp new]
            exact visible
        · intro index member
          rcases List.mem_append.mp member with old | new
          · exact agrees.entries index old
          · rw [List.mem_singleton.mp new]
            rw [same, entriesOf_visible visible] at pairs
            exact pairs

theorem detachIndex_keeps (agrees : Agrees serde table contents) (column : String) :
    Keeps serde table (detachIndex table column).2 :=
  ⟨⟨contents, agrees.short, agrees.stores,
    fun index member => agrees.visible index (List.mem_of_mem_eraseP member),
    fun index member => agrees.entries index (List.mem_of_mem_eraseP member)⟩, rfl⟩

theorem column_ne_of_mem_eraseP {indexes : List MapIndex} {column : String}
    (single : (indexes.map (·.column)).Nodup) {index : MapIndex}
    (member : index ∈ indexes.eraseP fun index => index.column = column) : index.column ≠ column := by
  induction indexes with
  | nil => cases member
  | cons first rest ih =>
      obtain ⟨fresh, single⟩ := List.nodup_cons.mp single
      by_cases here : first.column = column
      · rw [List.eraseP_cons_of_pos (by simpa using here)] at member
        rintro same
        exact fresh (List.mem_map.mpr ⟨index, member, same.trans here.symm⟩)
      · rw [List.eraseP_cons_of_neg (by simpa using here)] at member
        cases member with
        | head => exact here
        | tail _ later => exact ih single later

/-- Hiding a column keeps the agreement too, since it takes the index off. -/
theorem hideColumn_agrees (agrees : Agrees serde table contents)
    (single : (table.indexes.map (·.column)).Nodup) (column : String) :
    Agrees serde (hideColumn table column) contents where
  short := agrees.short
  stores := agrees.stores
  visible := by
    intro index member
    rw [hideColumn, List.mem_cons, not_or]
    exact ⟨column_ne_of_mem_eraseP single member, agrees.visible index (List.mem_of_mem_eraseP member)⟩
  entries := fun index member => agrees.entries index (List.mem_of_mem_eraseP member)

theorem compactPages_keeps (agrees : Agrees serde table contents) :
    Keeps serde table (compactPages table).2 := by
  refine ⟨⟨contents, agrees.short, ⟨agrees.stores.size, ?_, ?_, agrees.stores.rows⟩, agrees.visible,
    agrees.entries⟩, rfl⟩
  · simp [compactPages, agrees.stores.count]
  · intro id bytes page found same
    simp only [compactPages, List.map_map, List.getElem?_map, Option.map_eq_some_iff] at found
    obtain ⟨old, there, rfl⟩ := found
    have represents := agrees.stores.each id old page there same
    simp only [Function.comp]
    split
    · exact represents
    · exact (compactPage_spec represents agrees.short).1

end Steps

/-! ### Sequences of operations -/

inductive HeapOp where
  | insertRow (row : Row)
  | insertRows (rows : List Row)
  | deleteAt (page slot : Nat)
  | deleteByKeys (keys : List Int)
  | replaceAll (rows : List Row)
  | buildIndex (column : String) (pageSize order : Nat)
  | detachIndex (column : String)
  | compactPages

namespace HeapOp

/-- The table an operation leaves, also when it fails. -/
def apply (serde : Serde) (table : IndexedHeap) : HeapOp → IndexedHeap
  | insertRow row => (IndexedHeap.insertRow serde table row).2
  | insertRows rows => (IndexedHeap.insertRows serde table rows).2
  | deleteAt page slot => (IndexedHeap.deleteAt serde table page slot).2
  | deleteByKeys keys => (IndexedHeap.deleteByKeys serde table keys).2
  | replaceAll rows => (IndexedHeap.replaceAll serde table rows).2
  | buildIndex column pageSize order => (IndexedHeap.buildIndex serde table column pageSize order).2
  | detachIndex column => (IndexedHeap.detachIndex table column).2
  | compactPages => (IndexedHeap.compactPages table).2

/-- The rows an operation brings. -/
def rows : HeapOp → List Row
  | insertRow row => [row]
  | insertRows rows | replaceAll rows => rows
  | _ => []

/-- The column an operation indexes. -/
def indexed : HeapOp → Option String
  | buildIndex column _ _ => some column
  | _ => none

end HeapOp

theorem apply_keeps {table : IndexedHeap} {contents : PageFile HeapPage}
    (agrees : Agrees serde table contents) (op : HeapOp)
    (encodable : ∀ row ∈ op.rows, Encodable serde row)
    (visible : ∀ column ∈ op.indexed, column ∉ table.hiddenColumns) :
    Keeps serde table (op.apply serde table) := by
  cases op with
  | insertRow row =>
      rcases insertRow_agrees agrees (encodable row (List.mem_singleton_self row)) with refused | stored
      · obtain ⟨error, refused⟩ := refused
        rw [HeapOp.apply, refused]
        exact .refl agrees
      · obtain ⟨next, nextContents, stored, agreesNext, hidden⟩ := stored
        rw [HeapOp.apply, stored]
        exact ⟨⟨nextContents, agreesNext⟩, hidden⟩
  | insertRows rows => exact insertRows_keeps encodable agrees
  | deleteAt page slot => exact deleteAt_keeps agrees page slot
  | deleteByKeys keys => exact deleteByKeys_keeps agrees keys
  | replaceAll rows => exact replaceAll_keeps encodable agrees
  | buildIndex column pageSize order => exact buildIndex_keeps agrees (visible column rfl) pageSize order
  | detachIndex column => exact detachIndex_keeps agrees column
  | compactPages => exact compactPages_keeps agrees

theorem foldl_keeps {ops : List HeapOp} {table : IndexedHeap} {contents : PageFile HeapPage}
    (agrees : Agrees serde table contents)
    (encodable : ∀ op ∈ ops, ∀ row ∈ op.rows, Encodable serde row)
    (visible : ∀ op ∈ ops, ∀ column ∈ op.indexed, column ∉ table.hiddenColumns) :
    Keeps serde table (ops.foldl (HeapOp.apply serde) table) := by
  induction ops generalizing table contents with
  | nil => exact .refl agrees
  | cons op ops ih =>
      have first := apply_keeps agrees op (encodable op List.mem_cons_self) (visible op List.mem_cons_self)
      obtain ⟨nextContents, agreesNext⟩ := first.1
      refine first.trans (ih agreesNext (fun other member => encodable other (List.mem_cons_of_mem _ member))
        fun other member column found => ?_)
      rw [first.2]
      exact visible other (List.mem_cons_of_mem _ member) column found

/-- A table opened on an empty file, without indexes. -/
def opened (hidden : List String) (pageSize : Nat) : IndexedHeap := ⟨hidden, ⟨pageSize, []⟩, []⟩

theorem opened_agrees (serde : Serde) (hidden : List String) {pageSize : Nat}
    (short : pageSize ≤ maxPageSize) : Agrees serde (opened hidden pageSize) ⟨pageSize, []⟩ where
  short := short
  stores := ⟨rfl, rfl, fun _ _ _ found => (by cases found), fun _ member => (by cases member)⟩
  visible := fun _ member => by cases member
  entries := fun _ member => by cases member

/-- Slot numbers of a page are small. -/
theorem slot_lt {file : PageFile Bytes} {contents : PageFile HeapPage} (stores : Stores serde file contents)
    (short : file.pageSize ≤ maxPageSize) :
    ∀ entry ∈ HeapTable.scanPages [] 0 contents.pages, entry.1.2 < 2 ^ 16 := by
  have walk : ∀ (pages : List HeapPage) (pageId : Nat), (∀ page ∈ pages, page.slots.length < 2 ^ 16) →
      ∀ entry ∈ HeapTable.scanPages [] pageId pages, entry.1.2 < 2 ^ 16 := by
    intro pages
    induction pages with
    | nil => exact fun _ _ entry member => by cases member
    | cons page pages ih =>
        intro pageId small entry member
        rw [HeapTable.scanPages_cons] at member
        rcases List.mem_append.mp member with here | later
        · obtain ⟨indexed, inside, made⟩ := List.mem_filterMap.mp here
          obtain ⟨tuple, slot⟩ := indexed
          obtain ⟨row, _, rfl⟩ := Option.map_eq_some_iff.mp made
          have bound := List.snd_lt_of_mem_zipIdx inside
          have short := small page List.mem_cons_self
          simp only at bound ⊢
          omega
        · exact ih (pageId + 1) (fun other member => small other (List.mem_cons_of_mem _ member)) entry later
  refine walk contents.pages 0 fun page member => ?_
  obtain ⟨id, inside, same⟩ := List.getElem_of_mem member
  have inFile : id < file.pages.length := stores.count ▸ inside
  have represents := stores.each id _ page (List.getElem?_eq_getElem inFile)
    (same ▸ List.getElem?_eq_getElem inside)
  have directory := represents.directory
  rw [encoded_length, HeapPage.slotCount, slotOff_eq] at directory
  have bounded : file.pageSize ≤ 65536 := short
  omega

theorem entriesOf_nodup {rows : List ((Nat × Nat) × Row)} (distinct : (rows.map (·.1)).Nodup)
    (small : ∀ entry ∈ rows, entry.1.2 < 2 ^ 16) (column : String) : (entriesOf column rows).Nodup := by
  have pairs : rows.Pairwise fun first second =>
      first.1 ≠ second.1 ∧ first.1.2 < 2 ^ 16 ∧ second.1.2 < 2 ^ 16 :=
    (List.pairwise_map.mp distinct).imp_of_mem fun inFirst inSecond differ =>
      ⟨differ, small _ inFirst, small _ inSecond⟩
  refine pairs.filterMap _ fun first second related entry found other foundOther same => ?_
  subst same
  obtain ⟨differ, smallFirst, smallSecond⟩ := related
  obtain ⟨key, _, rfl⟩ := Option.map_eq_some_iff.mp found
  obtain ⟨_, _, equal⟩ := Option.map_eq_some_iff.mp foundOther
  have packed := (Prod.mk.inj equal).2
  simp only [packPosition] at packed
  refine differ (Prod.ext ?_ ?_) <;> omega

theorem insertReturningPosition_indexes (serde : Serde) (table : IndexedHeap) (row : Row) :
    (∃ error, insertReturningPosition serde table row = (.error error, table)) ∨
      ∃ position next, insertReturningPosition serde table row = (.ok position, next) ∧
        next.indexes = table.indexes := by
  rw [insertReturningPosition]
  cases encodeRow serde row table.file.pageSize with
  | error error => exact .inl ⟨error, rfl⟩
  | ok tuple =>
      refine .inr ?_
      simp only
      cases table.file.pages[table.file.numPages - 1]? with
      | none =>
          refine ⟨_, _, rfl, ?_⟩
          rfl
      | some page =>
          simp only
          cases (insertTuple (compactPage page).2 tuple).1 with
          | none =>
              refine ⟨_, _, rfl, ?_⟩
              rfl
          | some slot =>
              refine ⟨_, _, rfl, ?_⟩
              rfl

/-- A row is checked before anything is written. -/
theorem insertRow_error {table next : IndexedHeap} {row : Row} {error : IoError}
    (failed : insertRow serde table row = (.error error, next)) : next = table := by
  rw [insertRow, insertRowReturningPosition] at failed
  cases checked : checkIndexes row table.indexes with
  | error error =>
      rw [checked] at failed
      exact (Prod.mk.inj failed).2.symm
  | ok _ =>
      simp only [checked] at failed
      rcases insertReturningPosition_indexes serde table row with refused | stored
      · obtain ⟨_, refused⟩ := refused
        simp only [storeRow, refused] at failed
        exact (Prod.mk.inj failed).2.symm
      · obtain ⟨position, stored, done, same⟩ := stored
        simp only [storeRow, done, same, addKeys_ok (checkIndexes_fit checked), Except.map] at failed
        cases (Prod.mk.inj failed).1

/-- From a table whose indexes agree with its heap, any operations on visible
columns and encodable rows lead to one whose indexes have exactly one entry for
each live row with a key, whatever failed on the way; and an insert that fails
there changes nothing. -/
theorem indexes_agree {serde : Serde} {start : IndexedHeap} {contents : PageFile HeapPage}
    (agrees : Agrees serde start contents) {ops : List HeapOp}
    (encodable : ∀ op ∈ ops, ∀ row ∈ op.rows, Encodable serde row)
    (visible : ∀ op ∈ ops, ∀ column ∈ op.indexed, column ∉ start.hiddenColumns) :
    (∃ rows, storedRows serde (ops.foldl (HeapOp.apply serde) start) = .ok rows ∧
      ∀ index ∈ (ops.foldl (HeapOp.apply serde) start).indexes,
        index.tree.pairs.Perm (entriesOf index.column rows) ∧ index.tree.pairs.Nodup) ∧
    ∀ (row : Row) (error : IoError) (next : IndexedHeap),
      insertRow serde (ops.foldl (HeapOp.apply serde) start) row = (.error error, next) →
      next = ops.foldl (HeapOp.apply serde) start := by
  obtain ⟨⟨final, agrees⟩, -⟩ := foldl_keeps agrees encodable visible
  refine ⟨⟨HeapTable.scanPages [] 0 final.pages, scanPages_eq [] agrees.stores, fun index member => ?_⟩, ?_⟩
  · have entries := agrees.entries index member
    have distinct := entriesOf_nodup (HeapTable.scanPages_nodup 0 final.pages)
      (slot_lt agrees.stores agrees.short) index.column
    exact ⟨entries, entries.nodup_iff.mpr distinct⟩
  · intro row error next failed
    exact insertRow_error failed

/-- A row of one flag. -/
def flagRow : Row := ⟨[("note", .bool true)], by decide⟩

/-- The library on that row. -/
def flagSerde : Serde where
  toVec := fun _ => utf8 "\x7b\"note\":true\x7d"
  fromSlice := fun _ => .ok flagRow.toJson
  mismatch := fun _ => "invalid type"
  badUtf8 := fun _ => "invalid utf-8"

theorem indexes_agree_flag :
    ∃ rows, storedRows flagSerde
        (([.buildIndex "note" 512 4, .insertRow flagRow] : List HeapOp).foldl (HeapOp.apply flagSerde)
          (opened [] 512)) = .ok rows ∧
      ∀ index ∈ (([.buildIndex "note" 512 4, .insertRow flagRow] : List HeapOp).foldl
          (HeapOp.apply flagSerde) (opened [] 512)).indexes,
        index.tree.pairs.Perm (entriesOf index.column rows) ∧ index.tree.pairs.Nodup :=
  (indexes_agree (opened_agrees flagSerde [] (by decide)) (by decide +kernel) (by decide)).1

/-- An index built on a hidden column takes entries and never gives them back. -/
theorem hidden_index_keeps_entry :
    ¬∀ (serde : Serde) (hidden : List String) (pageSize : Nat) (ops : List HeapOp),
      minPageSize ≤ pageSize → pageSize ≤ maxPageSize →
      (∀ op ∈ ops, ∀ row ∈ op.rows, Encodable serde row) →
      ∀ rows, storedRows serde (ops.foldl (HeapOp.apply serde) (opened hidden pageSize)) = .ok rows →
        ∀ index ∈ (ops.foldl (HeapOp.apply serde) (opened hidden pageSize)).indexes,
          index.tree.pairs.Perm (entriesOf index.column rows) := by
  intro claim
  have agree := claim flagSerde ["note"] 512
    [.buildIndex "note" 512 4, .insertRow flagRow, .deleteAt 0 0] (by decide) (by decide)
    (by decide +kernel) [] (by decide +kernel) ⟨"note", ⟨512, 4, [([1], 0)]⟩⟩ (by decide +kernel)
  have short := agree.length_eq
  cases short

end IndexedHeap

end ChuSQL.Storage
