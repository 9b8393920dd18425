import ChuSQL.Storage.Pager.Journal

/-! What recovery makes of a journal: the frames that follow the published sequence
are written again, and a frame cut off at the end is left out. -/

set_option autoImplicit false

namespace ChuSQL.Storage.Pager

open Library.Framing (littleEndian ofLittleEndian littleEndian_length ofLittleEndian_littleEndian)
open Library.ByteFile (Change File)

theorem field_append {header : Bytes} (rest : Bytes) {start width : Nat}
    (inside : start + width ≤ header.length) : field (header ++ rest) start width = field header start width := by
  rw [field, field, List.drop_append_of_le_length (by omega),
    List.take_append_of_le_length (by rw [List.length_drop]; omega)]

theorem field_at {before number after : Bytes} {start width : Nat} (starts : before.length = start)
    (wide : number.length = width) : field (before ++ (number ++ after)) start width = ofLittleEndian number := by
  rw [field, List.drop_left' starts, List.take_left' wide]

theorem checksum_lt (bytes : Bytes) : checksum bytes < 2 ^ 64 := by
  rw [checksum]
  induction bytes using List.reverseRecOn with
  | nil =>
      rw [List.foldl_nil]
      norm_num
  | append_singleton bytes byte _ =>
      rw [List.foldl_append, List.foldl_cons, List.foldl_nil]
      exact Nat.mod_lt _ (by norm_num)

/-- The images `prepare` accepts. -/
theorem accepted_iff {pageSize : Nat} {image : Image} :
    Store.refuses pageSize image = false ↔
      (image.1 = resetPage ∧ image.2 = [] ∨
        image.1 ≠ resetPage ∧ image.2.length = pageSize ∧ image.1 * pageSize < 2 ^ 64) := by
  by_cases isReset : image.1 = resetPage <;> simp [Store.refuses, isReset]

namespace Frame

/-- A frame that `prepare` writes. -/
structure Fits (pageSize : Nat) (frame : Frame) : Prop where
  sequence : frame.sequence < 2 ^ 64
  lsn : frame.lsn < 2 ^ 64
  page : frame.page < 2 ^ 64
  image : Store.refuses pageSize (frame.page, frame.bytes) = false
  short : frame.bytes.length < 2 ^ 32

def change (pageSize : Nat) (frame : Frame) : Change Byte :=
  imageChange pageSize (frame.page, frame.bytes)

theorem header_length (frame : Frame) : frame.header.length = 32 := by
  simp [header, magic]

theorem encode_length (frame : Frame) : frame.encode.length = headerSize + frame.bytes.length := by
  simp only [encode, List.length_append, header_length, littleEndian_length, headerSize]

section Fields

variable (frame : Frame) (rest : Bytes)

theorem take_magic : (frame.encode ++ rest).take 4 = magic := by
  simp only [encode, header, List.append_assoc]
  exact List.take_left' rfl

theorem take_header : (frame.encode ++ rest).take 32 = frame.header := by
  rw [encode, List.append_assoc, List.append_assoc]
  exact List.take_left' (header_length frame)

theorem drop_header :
    (frame.encode ++ rest).drop headerSize = frame.bytes ++ rest := by
  have width : (frame.header ++ littleEndian 8 (checksum (frame.header ++ frame.bytes))).length =
      headerSize := by
    rw [List.length_append, header_length, littleEndian_length]
    rfl
  rw [encode, List.append_assoc]
  exact List.drop_left' width

theorem drop_frame : (frame.encode ++ rest).drop (headerSize + frame.bytes.length) = rest :=
  List.drop_left' (encode_length frame)

variable {frame} {pageSize : Nat} (fits : frame.Fits pageSize)

include fits

theorem field_sequence : field (frame.encode ++ rest) 4 8 = frame.sequence := by
  have split : frame.encode ++ rest = magic ++ (littleEndian 8 frame.sequence ++
      (littleEndian 8 frame.lsn ++ littleEndian 8 frame.page ++
        littleEndian 4 frame.bytes.length ++
        littleEndian 8 (checksum (frame.header ++ frame.bytes)) ++ frame.bytes ++ rest)) := by
    simp only [encode, header, List.append_assoc]
  rw [split, field_at (by simp [magic]) (littleEndian_length _ _),
    ofLittleEndian_littleEndian fits.sequence]

theorem field_lsn : field (frame.encode ++ rest) 12 8 = frame.lsn := by
  have split : frame.encode ++ rest = (magic ++ littleEndian 8 frame.sequence) ++
      (littleEndian 8 frame.lsn ++ (littleEndian 8 frame.page ++
        littleEndian 4 frame.bytes.length ++
        littleEndian 8 (checksum (frame.header ++ frame.bytes)) ++ frame.bytes ++ rest)) := by
    simp only [encode, header, List.append_assoc]
  rw [split, field_at (by simp [magic]) (littleEndian_length _ _),
    ofLittleEndian_littleEndian fits.lsn]

theorem field_page : field (frame.encode ++ rest) 20 8 = frame.page := by
  have split : frame.encode ++ rest = (magic ++ littleEndian 8 frame.sequence ++
      littleEndian 8 frame.lsn) ++ (littleEndian 8 frame.page ++
        (littleEndian 4 frame.bytes.length ++
        littleEndian 8 (checksum (frame.header ++ frame.bytes)) ++ frame.bytes ++ rest)) := by
    simp only [encode, header, List.append_assoc]
  rw [split, field_at (by simp [magic]) (littleEndian_length _ _),
    ofLittleEndian_littleEndian fits.page]

theorem field_length : field (frame.encode ++ rest) 28 4 = frame.bytes.length := by
  have split : frame.encode ++ rest = (magic ++ littleEndian 8 frame.sequence ++
      littleEndian 8 frame.lsn ++ littleEndian 8 frame.page) ++
        (littleEndian 4 frame.bytes.length ++
        (littleEndian 8 (checksum (frame.header ++ frame.bytes)) ++ frame.bytes ++ rest)) := by
    simp only [encode, header, List.append_assoc]
  rw [split, field_at (by simp [magic]) (littleEndian_length _ _),
    ofLittleEndian_littleEndian fits.short]

omit fits in
theorem field_checksum :
    field (frame.encode ++ rest) 32 8 = checksum (frame.header ++ frame.bytes) := by
  rw [encode, List.append_assoc, List.append_assoc,
    field_at (header_length frame) (littleEndian_length _ _),
    ofLittleEndian_littleEndian (checksum_lt _)]

/-- The header check of recovery accepts the frame. -/
theorem Fits.header {previous : Nat} (later : previous < frame.sequence) :
    ¬(magic ≠ magic ∨ frame.sequence ≤ previous ∨
      (frame.page = resetPage ∧ frame.bytes.length ≠ 0) ∨
      (frame.page ≠ resetPage ∧ frame.bytes.length ≠ pageSize)) := by
  rcases accepted_iff.mp fits.image with ⟨isReset, empty⟩ | ⟨isPage, sized, _⟩
  · rintro (different | early | ⟨_, filled⟩ | ⟨isPage, _⟩)
    · exact different rfl
    · omega
    · exact filled (congrArg List.length empty)
    · exact isPage isReset
  · rintro (different | early | ⟨isReset, _⟩ | ⟨_, other⟩)
    · exact different rfl
    · omega
    · exact isPage isReset
    · exact other sized

end Fields

end Frame

/-- A whole frame is skipped when it is published, else its image is written. -/
theorem recoverFrames_frame {pageSize checkpoint previous : Nat} {frame : Frame}
    (fits : frame.Fits pageSize) (later : previous < frame.sequence) (rest : Bytes)
    (state : State) (data : File Byte) :
    recoverFrames pageSize checkpoint (frame.encode ++ rest) previous state data =
      if frame.sequence ≤ checkpoint then
        recoverFrames pageSize checkpoint rest frame.sequence state data
      else recoverFrames pageSize checkpoint rest frame.sequence (state.record frame)
        (data.change (frame.change pageSize)) := by
  have width : (frame.encode ++ rest).length = headerSize + frame.bytes.length + rest.length := by
    rw [List.length_append, Frame.encode_length]
  rw [recoverFrames, if_neg (by omega)]
  simp only [Frame.field_sequence rest fits, Frame.field_lsn rest fits, Frame.field_page rest fits,
    Frame.field_length rest fits, Frame.field_checksum, Frame.take_magic, Frame.take_header,
    Frame.drop_header, Frame.drop_frame, List.take_left]
  rw [if_neg (fits.header later), if_neg (by omega), if_neg (by simp)]
  by_cases published : frame.sequence ≤ checkpoint
  · rw [if_pos published, if_pos published]
  · rw [if_neg published, if_neg published]
    by_cases isReset : frame.page = resetPage
    · rw [if_pos isReset, Frame.change, imageChange, if_pos isReset]
    · have addressed : frame.page * pageSize < 2 ^ 64 := by
        rcases accepted_iff.mp fits.image with ⟨reset, _⟩ | ⟨_, _, addressed⟩
        · exact absurd reset isReset
        · exact addressed
      rw [if_neg isReset, if_pos addressed, Frame.change, imageChange, if_neg isReset]

theorem field_take {bytes : Bytes} {cut start width : Nat} (inside : start + width ≤ cut) :
    field (bytes.take cut) start width = field bytes start width := by
  rw [field, field, List.drop_take, List.take_take, Nat.min_eq_left (by omega)]

/-- Recovery stops at a frame that is cut off. -/
theorem recoverFrames_cut {pageSize checkpoint previous : Nat} {frame : Frame}
    (fits : frame.Fits pageSize) (later : previous < frame.sequence) {cut : Nat}
    (inside : cut < frame.encode.length) (state : State) (data : File Byte) :
    recoverFrames pageSize checkpoint (frame.encode.take cut) previous state data =
      .ok (state, data) := by
  have width : (frame.encode.take cut).length = cut := by
    rw [List.length_take]
    omega
  rw [recoverFrames]
  by_cases short : (frame.encode.take cut).length < headerSize
  · rw [if_pos short]
  · have sequence := Frame.field_sequence [] fits
    have page := Frame.field_page [] fits
    have length := Frame.field_length [] fits
    have start := Frame.take_magic frame []
    rw [List.append_nil] at sequence page length start
    rw [width, headerSize] at short
    rw [Frame.encode_length] at inside
    simp only [field_take (show 4 + 8 ≤ cut by omega), field_take (show 20 + 8 ≤ cut by omega),
      field_take (show 28 + 4 ≤ cut by omega), sequence, page, length, List.take_take,
      Nat.min_eq_left (show 4 ≤ cut by omega), start, width]
    rw [if_neg (by simpa [headerSize] using short), if_neg (fits.header later), if_pos inside]

/-- The sequence numbers of frames, each above the one before it. -/
def Increasing : Nat → List Frame → Prop
  | _, [] => True
  | previous, frame :: rest => previous < frame.sequence ∧ Increasing frame.sequence rest

def lastSequence (previous : Nat) (frames : List Frame) : Nat :=
  frames.foldl (fun _ frame => frame.sequence) previous

/-- The end of a journal: nothing, or a frame that is cut off. -/
inductive Tail (pageSize previous : Nat) : Bytes → Prop where
  | complete : Tail pageSize previous []
  | cut {frame : Frame} (cut : Nat) (fits : frame.Fits pageSize) (later : previous < frame.sequence)
      (inside : cut < frame.encode.length) : Tail pageSize previous (frame.encode.take cut)

theorem recoverFrames_tail {pageSize checkpoint previous : Nat} {tail : Bytes}
    (torn : Tail pageSize previous tail) (state : State) (data : File Byte) :
    recoverFrames pageSize checkpoint tail previous state data = .ok (state, data) := by
  cases torn with
  | complete =>
      rw [recoverFrames, if_pos (by simp [headerSize])]
  | cut cut fits later inside => exact recoverFrames_cut fits later inside state data

theorem recoverFrames_frames {pageSize checkpoint previous : Nat} {frames : List Frame}
    (fits : ∀ frame ∈ frames, frame.Fits pageSize) (increasing : Increasing previous frames)
    {tail : Bytes} (torn : Tail pageSize (lastSequence previous frames) tail) (state : State)
    (data : File Byte) :
    recoverFrames pageSize checkpoint (frames.flatMap Frame.encode ++ tail) previous state data =
      .ok ((frames.filter (checkpoint < ·.sequence)).foldl State.record state,
        { data with
          unsynced := data.unsynced ++
            (frames.filter (checkpoint < ·.sequence)).map (Frame.change pageSize) }) := by
  induction frames generalizing previous state data with
  | nil =>
      have stops : recoverFrames pageSize checkpoint tail previous state data = .ok (state, data) :=
        recoverFrames_tail torn state data
      simpa using stops
  | cons frame frames ih =>
      have later := ih
        (fun other member => fits other (List.mem_cons_of_mem _ member)) increasing.2 torn
      rw [List.flatMap_cons, List.append_assoc,
        recoverFrames_frame (fits frame List.mem_cons_self) increasing.1, later, later]
      by_cases published : frame.sequence ≤ checkpoint
      · rw [if_pos published, List.filter_cons_of_neg (by simpa using published)]
      · rw [if_neg published, List.filter_cons_of_pos (by simpa using published)]
        simp only [List.foldl_cons, List.map_cons, File.change, List.append_assoc,
          List.singleton_append]

/-- A journal on disk: frames the metadata already covers, then newer ones. -/
structure Journalled (pageSize : Nat) (disk : Disk) (published newer : List Frame) (tail : Bytes) :
    Prop where
  version : (disk.state pageSize).version = 1
  sized : (disk.state pageSize).pageSize = pageSize
  versions : ∀ page, ∀ lsn ∈ (disk.state pageSize).pages page, lsn < 2 ^ 64
  journal : disk.journal = (published ++ newer).flatMap Frame.encode ++ tail
  fits : ∀ frame ∈ published ++ newer, frame.Fits pageSize
  increasing : Increasing 0 (published ++ newer)
  tail : Tail pageSize (lastSequence 0 (published ++ newer)) tail
  below : ∀ frame ∈ published, frame.sequence ≤ (disk.state pageSize).sequence
  above : ∀ frame ∈ newer, (disk.state pageSize).sequence < frame.sequence

namespace State

@[simp] theorem record_version (state : State) (frame : Frame) :
    (state.record frame).version = state.version := rfl

@[simp] theorem record_pageSize (state : State) (frame : Frame) :
    (state.record frame).pageSize = state.pageSize := rfl

@[simp] theorem record_sequence (state : State) (frame : Frame) :
    (state.record frame).sequence = frame.sequence := rfl

theorem record_pages {state : State} {frame : Frame} (isPage : frame.page ≠ resetPage) :
    (state.record frame).pages = Function.update state.pages frame.page (some frame.lsn) :=
  if_neg isPage

theorem foldl_record_version (frames : List Frame) (state : State) :
    (frames.foldl State.record state).version = state.version := by
  induction frames generalizing state with
  | nil => rfl
  | cons frame frames ih => rw [List.foldl_cons, ih, record_version]

theorem foldl_record_pageSize (frames : List Frame) (state : State) :
    (frames.foldl State.record state).pageSize = state.pageSize := by
  induction frames generalizing state with
  | nil => rfl
  | cons frame frames ih => rw [List.foldl_cons, ih, record_pageSize]

theorem foldl_record_sequence (frames : List Frame) (state : State) :
    (frames.foldl State.record state).sequence = lastSequence state.sequence frames := by
  induction frames generalizing state with
  | nil => rfl
  | cons frame frames ih => rw [List.foldl_cons, ih, record_sequence]; rfl

theorem foldl_record_versions {pageSize : Nat} {frames : List Frame} {state : State}
    (fits : ∀ frame ∈ frames, frame.Fits pageSize)
    (versions : ∀ page, ∀ lsn ∈ state.pages page, lsn < 2 ^ 64) :
    ∀ page, ∀ lsn ∈ (frames.foldl State.record state).pages page, lsn < 2 ^ 64 := by
  induction frames generalizing state with
  | nil => exact versions
  | cons frame frames ih =>
      refine ih (fun other member => fits other (List.mem_cons_of_mem _ member)) ?_
      intro page lsn recorded
      by_cases isReset : frame.page = resetPage
      · rw [State.record, if_pos isReset] at recorded
        cases recorded
      · rw [record_pages isReset] at recorded
        by_cases same : page = frame.page
        · rw [same, Function.update_self] at recorded
          cases recorded
          exact (fits frame List.mem_cons_self).lsn
        · rw [Function.update_of_ne same] at recorded
          exact versions page lsn recorded

end State

/-- The store after recovery has written the newer images. -/
def rewritten (pageSize : Nat) (disk : Disk) (newer : List Frame) : Store :=
  { wal := ⟨newer.foldl State.record (disk.state pageSize), 0, true, false⟩
    disk := { disk with
      data := { disk.data with
        unsynced := disk.data.unsynced ++ newer.map (Frame.change pageSize) } } }

section Open

variable {pageSize : Nat} {disk : Disk} {published newer : List Frame} {tail : Bytes}
  (journalled : Journalled pageSize disk published newer tail)

include journalled

theorem Journalled.replayed :
    (disk.load pageSize).replayed = .ok (rewritten pageSize disk newer) := by
  have selected : (published ++ newer).filter
      (fun frame => decide ((disk.state pageSize).sequence < frame.sequence)) = newer := by
    rw [List.filter_append, List.filter_eq_nil_iff.mpr, List.nil_append, List.filter_eq_self]
    · intro frame member
      exact decide_eq_true (journalled.above frame member)
    · intro frame member
      simpa using journalled.below frame member
  have read : recoverFrames pageSize (disk.state pageSize).sequence
      ((published ++ newer).flatMap Frame.encode ++ tail) 0 (disk.state pageSize) disk.data = _ :=
    recoverFrames_frames journalled.fits journalled.increasing journalled.tail _ _
  rw [← journalled.journal, selected] at read
  simp only [Store.replayed, Disk.load, journalled.sized, read]
  rfl

/-- The page file opens, and nothing is left in its journal. -/
theorem Journalled.open :
    disk.open pageSize = .ok (if disk.journal.isEmpty then disk.load pageSize
      else (rewritten pageSize disk newer).syncData.publish.dropJournal) := by
  have supported : ¬((disk.state pageSize).version ≠ 1 ∨ (disk.state pageSize).pageSize ≠ pageSize) := by
    rw [journalled.version, journalled.sized]
    simp
  rw [Disk.open, if_neg supported, Store.recover]
  by_cases empty : disk.journal.isEmpty
  · have unchanged : (disk.load pageSize).disk.journal.isEmpty := empty
    rw [if_pos unchanged, if_pos empty]
  · have kept : ¬(disk.load pageSize).disk.journal.isEmpty := empty
    rw [if_neg kept, if_neg empty, journalled.replayed]
    rfl

end Open

end ChuSQL.Storage.Pager
