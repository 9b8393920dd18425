import ChuSQL.Storage.Page

/-! The page journal. Whole images of dirty pages are appended and synced before the
pages are overwritten, and written again when the page file is opened. -/

set_option autoImplicit false

namespace ChuSQL.Storage.Pager

open Library.Framing (littleEndian ofLittleEndian)
open Library.ByteFile (Change File readAt)

def headerSize : Nat := 40

/-- The page id that stands for truncation. -/
def resetPage : PageId := 2 ^ 64 - 1

structure State where
  version : Nat
  pageSize : Nat
  sequence : Nat
  pages : PageId → Option Nat

structure PageWal where
  state : State
  lsn : Nat
  pending : Bool
  failed : Bool

/-- The page file, the metadata that a rename replaces, and the journal. A journal
that does not exist yet is empty. -/
structure Disk where
  data : File Byte
  metadata : Option State
  journal : Bytes

/-- An open journal and the files it works on. -/
structure Store where
  wal : PageWal
  disk : Disk

/-- What a call returns, and what it leaves behind. -/
abbrev Outcome := Except IoError Unit × Store

abbrev Image := PageId × Bytes

/-- FNV-1a over 64 bits. -/
def checksum (bytes : Bytes) : Nat :=
  bytes.foldl (fun hash byte => (hash ^^^ byte.val) * 0x100000001b3 % 2 ^ 64) 0xcbf29ce484222325

/-- `CPW1` -/
def magic : Bytes := [67, 80, 87, 49]

structure Frame where
  sequence : Nat
  lsn : Nat
  page : PageId
  bytes : Bytes

namespace Frame

def header (frame : Frame) : Bytes :=
  magic ++ littleEndian 8 frame.sequence ++ littleEndian 8 frame.lsn ++
    littleEndian 8 frame.page ++ littleEndian 4 frame.bytes.length

def encode (frame : Frame) : Bytes :=
  frame.header ++ littleEndian 8 (checksum (frame.header ++ frame.bytes)) ++ frame.bytes

end Frame

def State.record (state : State) (frame : Frame) : State :=
  { state with
    sequence := frame.sequence
    pages := if frame.page = resetPage then fun _ => none
      else Function.update state.pages frame.page (some frame.lsn) }

/-- A page lies at its id times the page size. -/
def imageChange (pageSize : Nat) (image : Image) : Change Byte :=
  if image.1 = resetPage then .clear else .write (image.1 * pageSize) image.2

namespace Store

def pageLsn (store : Store) (page : PageId) : Option Nat := store.wal.state.pages page

def setLsn (store : Store) (lsn : Nat) : Store :=
  { store with wal := { store.wal with lsn := lsn } }

def nextFrame (store : Store) (image : Image) : Except IoError Frame :=
  if store.wal.state.sequence + 1 < 2 ^ 64 then
    .ok ⟨store.wal.state.sequence + 1,
      max store.wal.lsn ((store.wal.state.pages image.1).getD 0), image.1, image.2⟩
  else .error (.ofMessage "page write sequence exhausted")

/-- A frame counts once it is written. -/
def append (store : Store) (frame : Frame) : Store :=
  { wal := { store.wal with state := store.wal.state.record frame, pending := true }
    disk := { store.disk with journal := store.disk.journal ++ frame.encode } }

def appendAll : Store → List Image → Outcome
  | store, [] => (.ok (), store)
  | store, image :: rest =>
      match store.nextFrame image with
      | .ok frame => appendAll (store.append frame) rest
      | .error error => (.error error, store)

def setFailed (store : Store) (failed : Bool) : Store :=
  { store with wal := { store.wal with failed := failed } }

def refuses (pageSize : Nat) (image : Image) : Bool :=
  image.1 == resetPage && !image.2.isEmpty ||
    image.1 != resetPage && (image.2.length != pageSize || 2 ^ 64 ≤ image.1 * pageSize)

/-- Append a frame for each page. Data pages may be written once it returned. -/
def prepare (store : Store) (images : List Image) : Outcome :=
  if store.wal.failed then (.error (.ofMessage "page journal requires recovery"), store)
  else if images.any (refuses store.wal.state.pageSize) then
    (.error ⟨.invalidInput, "invalid page image size or offset"⟩, store)
  else if images.isEmpty then (.ok (), store)
  else
    match (store.setFailed true).appendAll images with
    | (.ok (), store) => (.ok (), store.setFailed false)
    | (.error error, store) => (.error error, store)

/-- Truncation is journalled first, so that no older image brings back a page. -/
def reset (store : Store) : Outcome := store.prepare [(resetPage, [])]

/-- The rename of the new metadata over the old. -/
def publish (store : Store) : Store :=
  { store with disk := { store.disk with metadata := some store.wal.state } }

def dropJournal (store : Store) : Store :=
  { wal := { store.wal with pending := false }, disk := { store.disk with journal := [] } }

def checkpoint (store : Store) : Outcome :=
  if store.wal.failed then (.error (.ofMessage "page journal requires recovery"), store)
  else if !store.wal.pending then (.ok (), store)
  else (.ok (), store.publish.dropJournal)

end Store

/-- A little-endian number inside a header. -/
def field (header : Bytes) (start width : Nat) : Nat :=
  ofLittleEndian ((header.drop start).take width)

/-- Read frames and write the images that are newer than the checkpoint. A frame cut
off at the end was never relied upon. -/
def recoverFrames (pageSize checkpoint : Nat) (rest : Bytes) (previous : Nat) (state : State)
    (data : File Byte) : Except IoError (State × File Byte) :=
  if rest.length < headerSize then .ok (state, data)
  else
    let sequence := field rest 4 8
    let lsn := field rest 12 8
    let page := field rest 20 8
    let length := field rest 28 4
    let bytes := (rest.drop headerSize).take length
    let later := rest.drop (headerSize + length)
    if rest.take 4 ≠ magic ∨ sequence ≤ previous ∨ (page = resetPage ∧ length ≠ 0) ∨
        (page ≠ resetPage ∧ length ≠ pageSize) then
      .error ⟨.invalidData, "invalid page image header"⟩
    else if rest.length < headerSize + length then .ok (state, data)
    else if checksum (rest.take 32 ++ bytes) ≠ field rest 32 8 then
      .error ⟨.invalidData, "page image checksum mismatch"⟩
    else if sequence ≤ checkpoint then
      recoverFrames pageSize checkpoint later sequence state data
    else if page = resetPage then
      recoverFrames pageSize checkpoint later sequence
        (state.record ⟨sequence, lsn, page, bytes⟩) (data.change .clear)
    else if page * pageSize < 2 ^ 64 then
      recoverFrames pageSize checkpoint later sequence
        (state.record ⟨sequence, lsn, page, bytes⟩) (data.change (.write (page * pageSize) bytes))
    else .error (.ofMessage "page offset overflow")
termination_by rest.length
decreasing_by all_goals simp only [List.length_drop, headerSize] at *; omega

namespace Store

/-- The data file with all newer images written, not synced yet. -/
def replayed (store : Store) : Except IoError Store := do
  let (state, data) ← recoverFrames store.wal.state.pageSize store.wal.state.sequence
    store.disk.journal 0 store.wal.state store.disk.data
  .ok { wal := { store.wal with state := state, pending := true }
        disk := { store.disk with data := data } }

def syncData (store : Store) : Store :=
  { store with disk := { store.disk with data := store.disk.data.sync } }

def recover (store : Store) : Except IoError Store :=
  if store.disk.journal.isEmpty then .ok store
  else do
    let store ← store.replayed
    match store.syncData.checkpoint with
    | (.ok (), store) => .ok store
    | (.error error, _) => .error error

end Store

def Disk.state (disk : Disk) (pageSize : Nat) : State :=
  disk.metadata.getD ⟨1, pageSize, 0, fun _ => none⟩

/-- The journal as it is before recovery. -/
def Disk.load (disk : Disk) (pageSize : Nat) : Store :=
  ⟨⟨disk.state pageSize, 0, false, false⟩, disk⟩

/-- Open a page file: load the page versions, then finish interrupted writes. -/
def Disk.open (disk : Disk) (pageSize : Nat) : Except IoError Store :=
  if (disk.state pageSize).version ≠ 1 ∨ (disk.state pageSize).pageSize ≠ pageSize then
    .error ⟨.invalidData, "unsupported page LSN metadata"⟩
  else (disk.load pageSize).recover

/-- A read must fill its whole buffer. -/
def readExact : Option Bytes → Except IoError Bytes
  | some bytes => .ok bytes
  | none => .error ⟨.unexpectedEof, "failed to fill whole buffer"⟩

namespace Store

/-! The calls of the page file on its journal. The images are the dirty pages in the
order of their hash set. -/

def writeImages (store : Store) (images : List Image) : Store :=
  { store with
    disk := { store.disk with
      data := { store.disk.data with
        unsynced := store.disk.data.unsynced ++ images.map (imageChange store.wal.state.pageSize) } } }

/-- `evict_one` with a dirty victim. -/
def evict (store : Store) (images : List Image) : Outcome :=
  match store.prepare images with
  | (.ok (), store) => (.ok (), store.writeImages images)
  | (.error error, store) => (.error error, store)

def flush (store : Store) (images : List Image) : Outcome :=
  match store.prepare images with
  | (.ok (), store) => (store.writeImages images).syncData.checkpoint
  | (.error error, store) => (.error error, store)

def truncate (store : Store) : Outcome :=
  match store.reset with
  | (.ok (), store) => (.ok (), store.writeImages [(resetPage, [])])
  | (.error error, store) => (.error error, store)

/-- `read_raw`: a page of the data file. -/
def readRaw (store : Store) (page : PageId) : Except IoError Bytes :=
  readExact (readAt store.disk.data.content (page * store.wal.state.pageSize)
    store.wal.state.pageSize)

end Store

end ChuSQL.Storage.Pager
