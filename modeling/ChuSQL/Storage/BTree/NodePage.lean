import ChuSQL.Storage.BTree.Pages
import ChuSQL.Library.ByteFile

/-! Index nodes at byte level. A page starts with the kind, the number of keys and the
trailer; the slots follow, and the cells are put in from the page end down. -/

set_option autoImplicit false

namespace ChuSQL.Storage.NodePage

open Library Library.ByteFile BTree
open Library.Framing (littleEndian ofLittleEndian littleEndian_length ofLittleEndian_littleEndian)

def offKind : Nat := 0
def offCount : Nat := 1
def offNext : Nat := 3

/-- How an operation on a page fails: with an error, or by an index outside the page. -/
inductive Fault where
  | refused (error : IoError)
  | outside
deriving Repr, DecidableEq

def read (page : Bytes) (offset width : Nat) : Except Fault Bytes :=
  if offset + width ≤ page.length then .ok (window page offset width) else .error .outside

def write (page : Bytes) (offset : Nat) (values : Bytes) : Except Fault Bytes :=
  if offset + values.length ≤ page.length then .ok (writeAt page offset values) else .error .outside

def readU8 (page : Bytes) (offset : Nat) : Except Fault Nat := do
  let bytes ← read page offset 1
  pure (ofLittleEndian bytes)

def writeU8 (page : Bytes) (offset value : Nat) : Except Fault Bytes := write page offset (littleEndian 1 value)

def readU16 (page : Bytes) (offset : Nat) : Except Fault Nat := do
  let bytes ← read page offset 2
  pure (ofLittleEndian bytes)

def writeU16 (page : Bytes) (offset value : Nat) : Except Fault Bytes := write page offset (littleEndian 2 value)

def readU64 (page : Bytes) (offset : Nat) : Except Fault Nat := do
  let bytes ← read page offset 8
  pure (ofLittleEndian bytes)

def writeU64 (page : Bytes) (offset value : Nat) : Except Fault Bytes := write page offset (littleEndian 8 value)

def zero (page : Bytes) : Bytes := List.replicate page.length 0

def kindByte : NodeKind → Nat
  | .leaf => 0
  | .internal => 1

def kindOf : Nat → Option NodeKind
  | 0 => some .leaf
  | 1 => some .internal
  | _ => none

/-- Put the cells in, each right below the one before. A key without a value is an index
outside the values. -/
def putCells : List Key → List Nat → (slot cursor : Nat) → Bytes → Except Fault Bytes
  | [], _, _, _, page => .ok page
  | _ :: _, [], _, _, _ => .error .outside
  | key :: keys, value :: values, slot, cursor, page =>
      if cursor < cellBytes key then .error .outside
      else do
        let cursor := cursor - cellBytes key
        let page ← writeU16 page cursor key.length
        let page ← write page (cursor + 2) key
        let page ← writeU64 page (cursor + 2 + key.length) value
        let page ← writeU16 page (header + slot * slotSize) cursor
        putCells keys values (slot + 1) cursor page

/-- An internal node has one child more than keys; the last one stands where a leaf keeps
its successor. -/
def trailerOf (node : Node) : Nat :=
  match node.kind with
  | .internal => node.values.getLast?.getD 0
  | .leaf => node.next

/-- Write a node into a page. -/
def putNode (page : Bytes) (node : Node) : Except Fault Bytes :=
  if node.keys.length > 2 ^ 16 - 1 ∨ nodeBytes node > page.length then
    .error (.refused ⟨.invalidInput, "index node does not fit in a page"⟩)
  else do
    let page := zero page
    let page ← writeU8 page offKind (kindByte node.kind)
    let page ← writeU16 page offCount node.keys.length
    let page ← writeU64 page offNext (trailerOf node)
    putCells node.keys node.values 0 page.length page

def invalid (message : String) : Fault := .refused ⟨.invalidData, message⟩

/-- Read the cells of the slots, each of which must end where the one before starts or earlier. -/
def getCells (page : Bytes) (slotsEnd : Nat) : (left slot cellEnd : Nat) → Except Fault (List (Key × Nat))
  | 0, _, _ => .ok []
  | left + 1, slot, cellEnd => do
      let off ← readU16 page (header + slot * slotSize)
      if off < slotsEnd ∨ off + cellFixed > page.length then .error (invalid "invalid index cell offset")
      else
        let klen ← readU16 page off
        if klen > maxKeyBytes ∨ off + cellFixed + klen > page.length then
          .error (invalid "invalid index key length")
        else if off + cellFixed + klen > cellEnd then .error (invalid "overlapping index cells")
        else
          let key ← read page (off + 2) klen
          let value ← readU64 page (off + 2 + klen)
          let cells ← getCells page slotsEnd left (slot + 1) off
          pure ((key, value) :: cells)

/-- Read a node from a page. -/
def getNode (page : Bytes) : Except Fault Node :=
  if page.length < header then .error (invalid "truncated index node header")
  else do
    let byte ← readU8 page offKind
    let count ← readU16 page offCount
    let slotsEnd := header + count * slotSize
    match kindOf byte with
    | none => .error (invalid "invalid index node kind or slot count")
    | some kind =>
        if slotsEnd > page.length then .error (invalid "invalid index node kind or slot count")
        else
          let trailer ← readU64 page offNext
          let cells ← getCells page slotsEnd count 0 page.length
          let keys := cells.map (·.1)
          if (keys.zip keys.tail).any (fun pair => pair.1 > pair.2) then
            .error (invalid "index keys are not sorted")
          else
            match kind with
            | .internal =>
                let values := cells.map (·.2) ++ [trailer]
                if values.contains metaPage then .error (invalid "invalid index child page")
                else pure ⟨.internal, 0, keys, values⟩
            | .leaf => pure ⟨.leaf, trailer, keys, cells.map (·.2)⟩

/-! ### Fields -/

section Fields

variable {page : Bytes} {offset : Nat}

theorem read_ok {width : Nat} (inside : offset + width ≤ page.length) :
    read page offset width = .ok (window page offset width) := if_pos inside

theorem write_ok {values : Bytes} (inside : offset + values.length ≤ page.length) :
    write page offset values = .ok (writeAt page offset values) := if_pos inside

theorem readU16_ok (inside : offset + 2 ≤ page.length) :
    readU16 page offset = .ok (ofLittleEndian (window page offset 2)) := by
  rw [readU16, read_ok inside]
  rfl

theorem readU64_ok (inside : offset + 8 ≤ page.length) :
    readU64 page offset = .ok (ofLittleEndian (window page offset 8)) := by
  rw [readU64, read_ok inside]
  rfl

theorem readU8_ok (inside : offset + 1 ≤ page.length) :
    readU8 page offset = .ok (ofLittleEndian (window page offset 1)) := by
  rw [readU8, read_ok inside]
  rfl

theorem writeU16_ok (value : Nat) (inside : offset + 2 ≤ page.length) :
    writeU16 page offset value = .ok (writeAt page offset (littleEndian 2 value)) :=
  write_ok (by rwa [littleEndian_length])

theorem writeU64_ok (value : Nat) (inside : offset + 8 ≤ page.length) :
    writeU64 page offset value = .ok (writeAt page offset (littleEndian 8 value)) :=
  write_ok (by rwa [littleEndian_length])

theorem writeU8_ok (value : Nat) (inside : offset + 1 ≤ page.length) :
    writeU8 page offset value = .ok (writeAt page offset (littleEndian 1 value)) :=
  write_ok (by rwa [littleEndian_length])

theorem ok_bind {Item Result : Type} (item : Item) (rest : Item → Except Fault Result) :
    (Except.ok item >>= rest) = rest item := rfl

/-- A field just written reads back. -/
theorem field_written {width value : Nat} (fits : value < 256 ^ width) :
    ofLittleEndian (window (writeAt page offset (littleEndian width value)) offset width) = value := by
  have same := window_writeAt_same page offset (littleEndian width value)
  rw [littleEndian_length] at same
  rw [same, ofLittleEndian_littleEndian fits]

end Fields

/-! ### Cells that are put in -/

/-- The page with one cell and its slot written. -/
def placeCell (page : Bytes) (slot start : Nat) (key : Key) (value : Nat) : Bytes :=
  let page := writeAt page start (littleEndian 2 key.length)
  let page := writeAt page (start + 2) key
  let page := writeAt page (start + 2 + key.length) (littleEndian 8 value)
  writeAt page (header + slot * slotSize) (littleEndian 2 start)

/-- What the slot and the cell of an entry say. -/
structure CellAt (page : Bytes) (slot start : Nat) (key : Key) (value : Nat) : Prop where
  slot : ofLittleEndian (window page (header + slot * slotSize) 2) = start
  length : ofLittleEndian (window page start 2) = key.length
  bytes : window page (start + 2) key.length = key
  value : ofLittleEndian (window page (start + 2 + key.length) 8) = value

/-- The same bytes below one bound and from another on. -/
structure Kept (page next : Bytes) (low high : Nat) : Prop where
  length : next.length = page.length
  window : ∀ start width, start + width ≤ low ∨ high ≤ start → window next start width = window page start width

theorem Kept.refl (page : Bytes) (low high : Nat) : Kept page page low high := Kept.mk rfl fun _ _ _ => rfl

theorem Kept.trans {page middle next : Bytes} {low high : Nat} (first : Kept page middle low high)
    (second : Kept middle next low high) : Kept page next low high where
  length := second.length.trans first.length
  window start width apart := by
    rw [second.window start width apart, first.window start width apart]

theorem Kept.weaken {page next : Bytes} {low high low' high' : Nat} (kept : Kept page next low high)
    (below : low' ≤ low) (above : high ≤ high') : Kept page next low' high' where
  length := kept.length
  window start width apart := kept.window start width (by omega)

theorem writeAt_kept {page values : Bytes} {offset : Nat} (inside : offset + values.length ≤ page.length) :
    Kept page (writeAt page offset values) offset (offset + values.length) where
  length := writeAt_length_inside inside
  window _ _ apart := window_writeAt_apart page apart

theorem littleEndian_kept {page : Bytes} {offset width : Nat} (value : Nat)
    (inside : offset + width ≤ page.length) :
    Kept page (writeAt page offset (littleEndian width value)) offset (offset + width) := by
  have kept := @writeAt_kept page (littleEndian width value) offset
  rw [littleEndian_length] at kept
  exact kept inside

theorem CellAt.kept {page next : Bytes} {slot start low high : Nat} {key : Key} {value : Nat}
    (cell : CellAt page slot start key value) (kept : Kept page next low high)
    (below : header + (slot + 1) * slotSize ≤ low) (above : high ≤ start) :
    CellAt next slot start key value where
  slot := by
    simp only [header, slotSize] at below ⊢
    rw [kept.window _ _ (.inl (by omega))]
    exact cell.slot
  length := by
    rw [kept.window _ _ (.inr (by omega))]
    exact cell.length
  bytes := by
    rw [kept.window _ _ (.inr (by omega))]
    exact cell.bytes
  value := by
    rw [kept.window _ _ (.inr (by omega))]
    exact cell.value

section Place

variable {page : Bytes} {slot start : Nat} {key : Key} {value : Nat}

/-- The four writes of an entry stay in its cell and its slot. -/
structure Writes (page : Bytes) (slot start : Nat) (key : Key) (value : Nat) : Prop where
  sized : Kept page (writeAt page start (littleEndian 2 key.length)) start (start + 2)
  keyed : Kept (writeAt page start (littleEndian 2 key.length))
    (writeAt (writeAt page start (littleEndian 2 key.length)) (start + 2) key) (start + 2) (start + 2 + key.length)
  filled : Kept (writeAt (writeAt page start (littleEndian 2 key.length)) (start + 2) key)
    (writeAt (writeAt (writeAt page start (littleEndian 2 key.length)) (start + 2) key) (start + 2 + key.length)
      (littleEndian 8 value)) (start + 2 + key.length) (start + 2 + key.length + 8)
  listed : Kept (writeAt (writeAt (writeAt page start (littleEndian 2 key.length)) (start + 2) key)
    (start + 2 + key.length) (littleEndian 8 value)) (placeCell page slot start key value)
    (header + slot * slotSize) (header + slot * slotSize + 2)

theorem writes_of_room (inside : start + cellBytes key ≤ page.length)
    (room : header + (slot + 1) * slotSize ≤ start) : Writes page slot start key value := by
  simp only [cellBytes, cellFixed, header, slotSize] at inside room
  have first := @littleEndian_kept page start 2 key.length (by omega)
  have second := @writeAt_kept (writeAt page start (littleEndian 2 key.length)) key (start + 2)
    (by rw [first.length]; omega)
  have third := @littleEndian_kept (writeAt (writeAt page start (littleEndian 2 key.length)) (start + 2) key)
    (start + 2 + key.length) 8 value (by rw [second.length, first.length]; omega)
  refine Writes.mk first second third (littleEndian_kept start ?_)
  rw [third.length, second.length, first.length]
  simp only [header, slotSize]
  omega

theorem Writes.kept (writes : Writes page slot start key value) (room : header + (slot + 1) * slotSize ≤ start) :
    Kept page (placeCell page slot start key value) (header + slot * slotSize) (start + cellBytes key) := by
  simp only [header, slotSize] at room
  have narrow : ∀ {before after : Bytes} {low high : Nat}, Kept before after low high →
      header + slot * slotSize ≤ low → high ≤ start + cellBytes key →
      Kept before after (header + slot * slotSize) (start + cellBytes key) := Kept.weaken
  have listed := writes.listed
  simp only [header, slotSize, cellBytes, cellFixed] at narrow listed ⊢
  exact (((narrow writes.sized (by omega) (by omega)).trans (narrow writes.keyed (by omega) (by omega))).trans
    (narrow writes.filled (by omega) (by omega))).trans (narrow listed (by omega) (by omega))

theorem Writes.cell (writes : Writes page slot start key value) (room : header + (slot + 1) * slotSize ≤ start)
    (short : key.length ≤ maxKeyBytes) (small : start < 2 ^ 16) (fits : value < 2 ^ 64) :
    CellAt (placeCell page slot start key value) slot start key value := by
  have below : header + slot * slotSize + 2 ≤ start := by
    simp only [slotSize] at room ⊢
    omega
  have short' : key.length < 256 ^ 2 := by
    simp only [maxKeyBytes] at short
    omega
  refine CellAt.mk (field_written (by omega)) ?_ ?_ ?_
  · rw [writes.listed.window _ _ (.inr below), writes.filled.window _ _ (.inl (by omega)),
      writes.keyed.window _ _ (.inl (by omega)), field_written short']
  · rw [writes.listed.window _ _ (.inr (by omega)), writes.filled.window _ _ (.inl (by omega)), window_writeAt_same]
  · rw [writes.listed.window _ _ (.inr (by omega)), field_written (by omega)]

end Place

/-- The entries from a slot on, each cell right below the one before. -/
def CellsAt (page : Bytes) : (slot cellEnd : Nat) → List (Key × Nat) → Prop
  | _, _, [] => True
  | slot, cellEnd, (key, value) :: rest =>
      CellAt page slot (cellEnd - cellBytes key) key value ∧
        CellsAt page (slot + 1) (cellEnd - cellBytes key) rest

theorem putCells_cons {page : Bytes} {slot cursor : Nat} {key : Key} {value : Nat} (keys : List Key)
    (values : List Nat) (inside : cursor ≤ page.length)
    (room : header + (slot + 1) * slotSize + cellBytes key ≤ cursor) :
    putCells (key :: keys) (value :: values) slot cursor page =
      putCells keys values (slot + 1) (cursor - cellBytes key)
        (placeCell page slot (cursor - cellBytes key) key value) := by
  have start : header + (slot + 1) * slotSize ≤ cursor - cellBytes key := by omega
  have writes : Writes page slot (cursor - cellBytes key) key value := writes_of_room (by omega) start
  have cell : cursor - cellBytes key + (2 + 8 + key.length) ≤ page.length := by
    simp only [cellBytes, cellFixed] at room ⊢
    omega
  have listed : header + slot * slotSize + 2 ≤ page.length := by
    simp only [slotSize] at room ⊢
    omega
  rw [putCells, if_neg (by omega)]
  dsimp only
  rw [writeU16_ok _ (by omega), ok_bind, write_ok (by rw [writes.sized.length]; omega),
    ok_bind, writeU64_ok _ (by rw [writes.keyed.length, writes.sized.length]; omega), ok_bind,
    writeU16_ok _ (by rw [writes.filled.length, writes.keyed.length, writes.sized.length]; omega), ok_bind]
  rfl

/-- Bytes of the cells of keys. -/
def cellsBytes (keys : List Key) : Nat := (keys.map cellBytes).sum

theorem CellsAt.kept {page next : Bytes} {low high slot cellEnd : Nat} {cells : List (Key × Nat)}
    (kept : Kept page next low high) (placed : CellsAt page slot cellEnd cells)
    (below : header + (slot + cells.length) * slotSize ≤ low)
    (above : high + cellsBytes (cells.map (·.1)) ≤ cellEnd) : CellsAt next slot cellEnd cells := by
  induction cells generalizing slot cellEnd with
  | nil => trivial
  | cons entry rest ih =>
      obtain ⟨key, value⟩ := entry
      simp only [cellsBytes, List.map_cons, List.sum_cons, List.length_cons] at above below ih
      simp only [slotSize] at below ih
      refine And.intro (placed.1.kept kept ?_ (by omega)) (ih placed.2 (by omega) (by omega))
      simp only [slotSize]
      omega

/-- What putting cells in does to a page with room for them. -/
theorem putCells_spec {page : Bytes} {slot cursor : Nat} {keys : List Key} {values : List Nat}
    (inside : cursor ≤ page.length) (sized : page.length ≤ maxPageSize) (enough : keys.length ≤ values.length)
    (room : header + (slot + keys.length) * slotSize + cellsBytes keys ≤ cursor)
    (short : ∀ key ∈ keys, key.length ≤ maxKeyBytes) (fits : ∀ value ∈ values, value < 2 ^ 64) :
    ∃ next, putCells keys values slot cursor page = .ok next ∧
      Kept page next (header + slot * slotSize) cursor ∧ CellsAt next slot cursor (keys.zip values) := by
  induction keys generalizing page slot cursor values with
  | nil => exact Exists.intro page (And.intro rfl (And.intro (Kept.refl ..) trivial))
  | cons key rest ih =>
      cases values with
      | nil => cases enough
      | cons value others =>
          simp only [cellsBytes, List.map_cons, List.sum_cons, List.length_cons, slotSize] at room enough
          have here : header + (slot + 1) * slotSize ≤ cursor - cellBytes key := by
            simp only [slotSize]
            omega
          have low : cellBytes key ≤ cursor := by omega
          have whole : cursor - cellBytes key + cellBytes key = cursor := by omega
          have positive : 0 < cellBytes key := by
            simp only [cellBytes, cellFixed]
            omega
          have small : cursor - cellBytes key < 2 ^ 16 := by
            simp only [maxPageSize] at sized
            omega
          have writes : Writes page slot (cursor - cellBytes key) key value := writes_of_room (by omega) here
          have first := writes.kept here
          rw [whole] at first
          have cell := writes.cell here (short key List.mem_cons_self) small (fits value List.mem_cons_self)
          obtain ⟨next, put, kept, placed⟩ := @ih (placeCell page slot (cursor - cellBytes key) key value) (slot + 1)
            (cursor - cellBytes key) others (by rw [first.length]; omega) (by rw [first.length]; exact sized)
            (by omega) (by simp only [cellsBytes, slotSize]; omega)
            (fun other member => short other (List.mem_cons_of_mem _ member))
            (fun other member => fits other (List.mem_cons_of_mem _ member))
          refine Exists.intro next (And.intro ?_ (And.intro ?_ (And.intro (cell.kept kept le_rfl le_rfl) placed)))
          · rw [putCells_cons rest others inside (by simp only [slotSize]; omega), put]
          · refine first.trans (kept.weaken ?_ (by omega))
            simp only [slotSize]
            omega

/-- Cells that are in place are read back. -/
theorem getCells_placed {page : Bytes} {slotsEnd slot cellEnd : Nat} {cells : List (Key × Nat)}
    (placed : CellsAt page slot cellEnd cells) (inside : cellEnd ≤ page.length)
    (slots : header + (slot + cells.length) * slotSize ≤ slotsEnd)
    (room : slotsEnd + cellsBytes (cells.map (·.1)) ≤ cellEnd)
    (short : ∀ cell ∈ cells, cell.1.length ≤ maxKeyBytes) :
    getCells page slotsEnd cells.length slot cellEnd = .ok cells := by
  induction cells generalizing slot cellEnd with
  | nil => rfl
  | cons entry rest ih =>
      obtain ⟨key, value⟩ := entry
      have keyShort := short (key, value) List.mem_cons_self
      simp only [cellsBytes, List.map_cons, List.sum_cons, List.length_cons, slotSize] at room slots ih
      have later := ih placed.2 (by omega) (by omega) (by omega)
        (fun other member => short other (List.mem_cons_of_mem _ member))
      have cell := placed.1
      have size : cellBytes key = 2 + 8 + key.length := rfl
      rw [List.length_cons, getCells, readU16_ok (by simp only [slotSize]; omega), ok_bind, cell.slot,
        if_neg (by simp only [cellFixed]; omega), readU16_ok (by omega), ok_bind, cell.length,
        if_neg (by simp only [cellFixed] at keyShort ⊢; omega), if_neg (by simp only [cellFixed]; omega),
        read_ok (by omega), ok_bind, readU64_ok (by omega), ok_bind, cell.bytes, cell.value, later]
      rfl

/-! ### Pages and what they say -/

/-- The bytes of a page whose fields are these. -/
structure Represents (page : Bytes) (kind : NodeKind) (trailer : Nat) (cells : List (Key × Nat)) : Prop where
  kind : ofLittleEndian (window page offKind 1) = kindByte kind
  count : ofLittleEndian (window page offCount 2) = cells.length
  trailer : ofLittleEndian (window page offNext 8) = trailer
  room : header + cells.length * slotSize + cellsBytes (cells.map (·.1)) ≤ page.length
  short : ∀ cell ∈ cells, cell.1.length ≤ maxKeyBytes
  placed : CellsAt page 0 page.length cells

@[simp] theorem kindOf_kindByte (kind : NodeKind) : kindOf (kindByte kind) = some kind := by
  cases kind with
  | leaf => rfl
  | internal => rfl

/-- Reading the bytes is reading the fields. -/
theorem getNode_represents {page : Bytes} {kind : NodeKind} {trailer : Nat} {cells : List (Key × Nat)}
    (represents : Represents page kind trailer cells) :
    getNode page = (BTree.getNode (.cells kind trailer cells)).mapError Fault.refused := by
  have room := represents.room
  have wide : header ≤ page.length := by omega
  have eleven : header = 11 := rfl
  have passes : ¬cells.any (fun cell => cell.1.length > maxKeyBytes) = true := by
    intro long
    obtain ⟨cell, member, exceeds⟩ := List.any_eq_true.mp long
    exact absurd (represents.short cell member) (not_le.mpr (of_decide_eq_true exceeds))
  have read := getCells_placed represents.placed le_rfl (by rw [Nat.zero_add]) room represents.short
  rw [getNode, if_neg (by omega), readU8_ok (by simp only [offKind]; omega), ok_bind,
    readU16_ok (by simp only [offCount]; omega), ok_bind, represents.kind, represents.count]
  dsimp only
  rw [kindOf_kindByte]
  dsimp only
  rw [if_neg (by omega), readU64_ok (by simp only [offNext]; omega), ok_bind, represents.trailer, read, ok_bind,
    BTree.getNode.eq_def]
  dsimp only
  rw [if_neg passes]
  split
  · rfl
  · cases kind with
    | leaf => rfl
    | internal =>
        dsimp only
        split
        · rfl
        · rfl

/-- The page with the header of a node written. -/
def headed (page : Bytes) (node : Node) : Bytes :=
  let page := writeAt (zero page) offKind (littleEndian 1 (kindByte node.kind))
  let page := writeAt page offCount (littleEndian 2 node.keys.length)
  writeAt page offNext (littleEndian 8 (trailerOf node))

section Header

variable {page : Bytes} (node : Node)

theorem kind_kept (wide : 11 ≤ page.length) :
    Kept (zero page) (writeAt (zero page) offKind (littleEndian 1 (kindByte node.kind))) 0 1 :=
  littleEndian_kept _ (by rw [zero, List.length_replicate]; simp only [offKind]; omega)

theorem count_kept (wide : 11 ≤ page.length) :
    Kept (writeAt (zero page) offKind (littleEndian 1 (kindByte node.kind)))
      (writeAt (writeAt (zero page) offKind (littleEndian 1 (kindByte node.kind))) offCount
        (littleEndian 2 node.keys.length)) 1 3 :=
  littleEndian_kept _ (by rw [(kind_kept node wide).length, zero, List.length_replicate]; simp only [offCount]; omega)

theorem next_kept (wide : 11 ≤ page.length) :
    Kept (writeAt (writeAt (zero page) offKind (littleEndian 1 (kindByte node.kind))) offCount
      (littleEndian 2 node.keys.length)) (headed page node) 3 11 :=
  littleEndian_kept _ (by
    rw [(count_kept node wide).length, (kind_kept node wide).length, zero, List.length_replicate]
    simp only [offNext]
    omega)

theorem headed_length (wide : 11 ≤ page.length) : (headed page node).length = page.length := by
  rw [(next_kept node wide).length, (count_kept node wide).length, (kind_kept node wide).length, zero,
    List.length_replicate]

theorem headed_kind (wide : 11 ≤ page.length) :
    ofLittleEndian (window (headed page node) offKind 1) = kindByte node.kind := by
  rw [(next_kept node wide).window _ _ (.inl (by decide)), (count_kept node wide).window _ _ (.inl (by decide)),
    field_written]
  cases node.kind with
  | leaf => decide
  | internal => decide

theorem headed_count (wide : 11 ≤ page.length) (few : node.keys.length < 2 ^ 16) :
    ofLittleEndian (window (headed page node) offCount 2) = node.keys.length := by
  rw [(next_kept node wide).window _ _ (.inl (by decide)), field_written (by omega)]

theorem headed_next (word : trailerOf node < 2 ^ 64) :
    ofLittleEndian (window (headed page node) offNext 8) = trailerOf node :=
  field_written (by omega)

theorem putNode_eq (room : nodeBytes node ≤ page.length) (few : node.keys.length < 2 ^ 16) :
    putNode page node = putCells node.keys node.values 0 page.length (headed page node) := by
  have wide : 11 ≤ page.length := by
    simp only [nodeBytes, header] at room
    omega
  rw [putNode, if_neg (by omega)]
  dsimp only
  rw [writeU8_ok _ (by rw [zero, List.length_replicate]; simp only [offKind]; omega), ok_bind,
    writeU16_ok _ (by rw [(kind_kept node wide).length, zero, List.length_replicate]; simp only [offCount]; omega), ok_bind,
    writeU64_ok _ (by
      rw [(count_kept node wide).length, (kind_kept node wide).length, zero, List.length_replicate]
      simp only [offNext]
      omega), ok_bind]
  exact congrArg (putCells node.keys node.values 0 · (headed page node)) (headed_length node wide)

end Header

theorem trailerOf_lt {node : Node} (next : node.next < 2 ^ 64) (fits : ∀ value ∈ node.values, value < 2 ^ 64) :
    trailerOf node < 2 ^ 64 := by
  obtain ⟨kind, next', keys, values⟩ := node
  cases kind with
  | leaf => exact next
  | internal =>
      rw [trailerOf]
      cases last : values.getLast? with
      | none => exact Nat.two_pow_pos 64
      | some value => exact fits value (List.mem_of_getLast? last)

/-- A node the page has room for is written as the fields say. -/
theorem putNode_represents {page : Bytes} {node : Node} (sized : page.length ≤ maxPageSize)
    (room : nodeBytes node ≤ page.length) (enough : node.keys.length ≤ node.values.length)
    (short : ∀ key ∈ node.keys, key.length ≤ maxKeyBytes) (next : node.next < 2 ^ 64)
    (fits : ∀ value ∈ node.values, value < 2 ^ 64) :
    ∃ written, putNode page node = .ok written ∧
      BTree.putNode page.length node = .ok (.cells node.kind (trailerOf node) (node.keys.zip node.values)) ∧
      Represents written node.kind (trailerOf node) (node.keys.zip node.values) := by
  have size : header + node.keys.length * slotSize + cellsBytes node.keys ≤ page.length := room
  have wide : 11 ≤ page.length := by
    simp only [header] at size
    omega
  have few : node.keys.length < 2 ^ 16 := by
    simp only [slotSize, maxPageSize] at size sized
    omega
  have keys : (node.keys.zip node.values).map (·.1) = node.keys := List.map_fst_zip enough
  have cells : (node.keys.zip node.values).length = node.keys.length := by
    rw [List.length_zip]
    omega
  have length := headed_length node wide
  obtain ⟨written, put, kept, placed⟩ := @putCells_spec (headed page node) 0 page.length _ _
    (by rw [length]) (by rw [length]; exact sized) enough (by rw [Nat.zero_add]; exact size) short fits
  have eleven : header + 0 * slotSize = 11 := rfl
  rw [eleven] at kept
  have whole := kept.length.trans length
  refine Exists.intro written (And.intro ?_ (And.intro ?_ (Represents.mk ?_ ?_ ?_ ?_ ?_ ?_)))
  · rw [putNode_eq node room few]
    exact put
  · rw [BTree.putNode, if_neg (by omega)]
    rfl
  · rw [kept.window _ _ (.inl (by decide)), headed_kind node wide]
  · rw [kept.window _ _ (.inl (by decide)), headed_count node wide few, cells]
  · rw [kept.window _ _ (.inl (by decide)), headed_next node (trailerOf_lt next fits)]
  · rw [cells, keys, whole]
    exact size
  · intro cell member
    exact short cell.1 (List.of_mem_zip member).1
  · rw [whole]
    exact placed

/-! ### Nodes that keep their form -/

/-- Sorted keys of bounded length; a leaf has a value for each key, an internal node has one
child more, none of them the header page. -/
structure Shaped (limit : Nat) (node : Node) : Prop where
  sorted : node.keys.Pairwise (· ≤ ·)
  short : ∀ key ∈ node.keys, key.length ≤ limit
  leaf : node.kind = .leaf → node.values.length = node.keys.length
  internal : node.kind = .internal →
    node.values.length = node.keys.length + 1 ∧ node.next = 0 ∧ metaPage ∉ node.values
  next : node.next < 2 ^ 64
  fits : ∀ value ∈ node.values, value < 2 ^ 64

theorem Shaped.enough {limit : Nat} {node : Node} (shaped : Shaped limit node) :
    node.keys.length ≤ node.values.length := by
  cases kind : node.kind with
  | leaf => exact (shaped.leaf kind).ge
  | internal =>
      rw [(shaped.internal kind).1]
      exact Nat.le_succ _

theorem zip_trailer {keys : List Key} {values : List Nat} (fanout : values.length = keys.length + 1) :
    (keys.zip values).map (·.2) ++ [values.getLast?.getD 0] = values := (zip_getLast fanout).2

theorem adjacent_passes {keys : List Key} (sorted : keys.Pairwise (· ≤ ·)) :
    ¬(keys.zip keys.tail).any (fun pair => pair.1 > pair.2) = true := by
  intro unsorted
  exact Bool.false_ne_true ((adjacent_sorted sorted).symm.trans unsorted)

/-- The fields of a node with a form give it back. -/
theorem getNode_shaped {limit : Nat} {node : Node} (bounded : limit ≤ maxKeyBytes) (shaped : Shaped limit node) :
    BTree.getNode (.cells node.kind (trailerOf node) (node.keys.zip node.values)) = .ok node := by
  have enough := shaped.enough
  have keys : (node.keys.zip node.values).map (·.1) = node.keys := List.map_fst_zip enough
  have passes : ¬(node.keys.zip node.values).any (fun cell => cell.1.length > maxKeyBytes) = true := by
    intro long
    obtain ⟨cell, member, exceeds⟩ := List.any_eq_true.mp long
    have within := (shaped.short cell.1 (List.of_mem_zip member).1).trans bounded
    exact absurd within (not_le.mpr (of_decide_eq_true exceeds))
  rw [BTree.getNode.eq_def]
  dsimp only
  rw [keys, if_neg passes, if_neg (adjacent_passes shaped.sorted)]
  obtain ⟨kind, next, names, values⟩ := node
  cases kind with
  | leaf =>
      have whole : (names.zip values).map (·.2) = values := List.map_snd_zip (shaped.leaf rfl).le
      dsimp only
      rw [whole]
      rfl
  | internal =>
      obtain ⟨fanout, next, nonzero⟩ := shaped.internal rfl
      dsimp only [trailerOf] at fanout next nonzero ⊢
      simp only [zip_trailer fanout]
      rw [if_neg (fun found => nonzero (List.contains_iff_mem.mp found)), next]

/-! ### Pages that hold anything -/

theorem ofLittleEndian_lt (bytes : Bytes) : ofLittleEndian bytes < 256 ^ bytes.length := by
  have small := Nat.ofDigits_lt_base_pow_length (b := 256) (l := bytes.map Fin.val) (by decide) (by
    intro digit member
    obtain ⟨byte, _, same⟩ := List.mem_map.mp member
    exact same ▸ byte.isLt)
  rw [List.length_map] at small
  exact small

/-- What the cells of a page can be, between the slots and a bound. -/
structure Decoded (count low high : Nat) (cells : List (Key × Nat)) : Prop where
  length : cells.length = count
  short : ∀ cell ∈ cells, cell.1.length ≤ maxKeyBytes
  fits : ∀ cell ∈ cells, cell.2 < 2 ^ 64
  room : low + cellsBytes (cells.map (·.1)) ≤ high

/-- Whatever the page holds, its cells are refused or read inside the page. -/
theorem getCells_decoded {page : Bytes} {slotsEnd left slot cellEnd : Nat}
    (slots : header + (slot + left) * slotSize ≤ slotsEnd) (inside : slotsEnd ≤ page.length)
    (room : slotsEnd ≤ cellEnd) :
    (∃ error, getCells page slotsEnd left slot cellEnd = .error (.refused error)) ∨
      ∃ cells, getCells page slotsEnd left slot cellEnd = .ok cells ∧ Decoded left slotsEnd cellEnd cells := by
  induction left generalizing slot cellEnd with
  | zero =>
      exact .inr (Exists.intro [] (And.intro rfl (Decoded.mk rfl (List.forall_mem_nil _) (List.forall_mem_nil _) room)))
  | succ left ih =>
      have listed : header + slot * slotSize + 2 ≤ page.length := by
        simp only [slotSize] at slots ⊢
        omega
      rw [getCells, readU16_ok listed, ok_bind]
      generalize ofLittleEndian (window page (header + slot * slotSize) 2) = off
      split
      · exact .inl (Exists.intro _ rfl)
      · rename_i placed
        have off_inside : off + 10 ≤ page.length := by
          simp only [cellFixed] at placed
          omega
        rw [readU16_ok (by omega), ok_bind]
        generalize ofLittleEndian (window page off 2) = klen
        split
        · exact .inl (Exists.intro _ rfl)
        · rename_i sized
          split
          · exact .inl (Exists.intro _ rfl)
          · rename_i apart
            simp only [cellFixed] at sized apart
            rw [read_ok (by omega), ok_bind, readU64_ok (by omega), ok_bind]
            have value := ofLittleEndian_lt (window page (off + 2 + klen) 8)
            have later := @ih (slot + 1) off (by rw [← Nat.add_right_comm, Nat.add_assoc]; exact slots) (by omega)
            cases later with
            | inl refused =>
                obtain ⟨error, failed⟩ := refused
                rw [failed]
                exact .inl (Exists.intro error rfl)
            | inr decoded =>
                obtain ⟨cells, found, decoded⟩ := decoded
                rw [found]
                refine .inr (Exists.intro _ (And.intro rfl (Decoded.mk ?_ ?_ ?_ ?_)))
                · rw [List.length_cons, decoded.length]
                · refine List.forall_mem_cons.mpr (And.intro ?_ decoded.short)
                  rw [window_length]
                  omega
                · refine List.forall_mem_cons.mpr (And.intro ?_ decoded.fits)
                  rw [window_length] at value
                  exact value
                · have below := decoded.room
                  simp only [cellsBytes, List.map_cons, List.sum_cons, cellBytes, cellFixed, window_length] at below ⊢
                  omega

theorem sorted_of_adjacent {keys : List Key}
    (passes : ¬(keys.zip keys.tail).any (fun pair => pair.1 > pair.2) = true) : keys.Pairwise (· ≤ ·) := by
  induction keys with
  | nil => exact List.Pairwise.nil
  | cons first rest ih =>
      cases rest with
      | nil => exact List.pairwise_singleton ..
      | cons second rest =>
          have split : ¬(decide (first > second) || ((second :: rest).zip rest).any fun pair => pair.1 > pair.2) = true :=
            passes
          rw [Bool.or_eq_true, decide_eq_true_eq, not_or] at split
          have later := ih split.2
          refine List.pairwise_cons.mpr (And.intro (fun key member => ?_) later)
          have near : first ≤ second := not_lt.mp split.1
          cases List.mem_cons.mp member with
          | inl same => exact same ▸ near
          | inr inside => exact near.trans ((List.pairwise_cons.mp later).1 key inside)

/-- Whatever a page holds, it is refused or read, inside the page, as a node with a form that
fits the page. -/
theorem getNode_decoded (page : Bytes) :
    (∃ error, getNode page = .error (.refused error)) ∨
      ∃ node, getNode page = .ok node ∧ Shaped maxKeyBytes node ∧ nodeBytes node ≤ page.length := by
  rw [getNode]
  split
  · exact .inl (Exists.intro _ rfl)
  · rename_i wide
    simp only [header] at wide
    rw [readU8_ok (by simp only [offKind]; omega), ok_bind, readU16_ok (by simp only [offCount]; omega), ok_bind]
    generalize ofLittleEndian (window page offKind 1) = byte
    generalize ofLittleEndian (window page offCount 2) = count
    dsimp only
    cases kindOf byte with
    | none => exact .inl (Exists.intro _ rfl)
    | some kind =>
        dsimp only
        split
        · exact .inl (Exists.intro _ rfl)
        · rename_i slots
          have trailer := ofLittleEndian_lt (window page offNext 8)
          rw [window_length] at trailer
          rw [readU64_ok (by simp only [offNext]; omega), ok_bind]
          generalize ofLittleEndian (window page offNext 8) = next at trailer ⊢
          have cells := @getCells_decoded page (header + count * slotSize) count 0 page.length
            (by rw [Nat.zero_add]) (not_lt.mp slots) (not_lt.mp slots)
          cases cells with
          | inl refused =>
              obtain ⟨error, failed⟩ := refused
              rw [failed]
              exact .inl (Exists.intro error rfl)
          | inr decoded =>
              obtain ⟨cells, found, decoded⟩ := decoded
              rw [found, ok_bind]
              split
              · exact .inl (Exists.intro _ rfl)
              · rename_i passes
                have sorted := sorted_of_adjacent passes
                have short : ∀ key ∈ cells.map (·.1), key.length ≤ maxKeyBytes := by
                  intro key member
                  obtain ⟨cell, inside, same⟩ := List.mem_map.mp member
                  exact same ▸ decoded.short cell inside
                have fits : ∀ value ∈ cells.map (·.2), value < 2 ^ 64 := by
                  intro value member
                  obtain ⟨cell, inside, same⟩ := List.mem_map.mp member
                  exact same ▸ decoded.fits cell inside
                have lengths : (cells.map (·.2)).length = (cells.map (·.1)).length := by
                  rw [List.length_map, List.length_map]
                have bytes : ∀ {kind : NodeKind} {next : Nat} {values : List Nat},
                    nodeBytes ⟨kind, next, cells.map (·.1), values⟩ ≤ page.length := by
                  intro kind next values
                  have room := decoded.room
                  rw [← decoded.length] at room
                  simp only [nodeBytes, List.length_map]
                  exact room
                cases kind with
                | leaf =>
                    refine .inr (Exists.intro _ (And.intro rfl (And.intro ?_ bytes)))
                    exact Shaped.mk sorted short (fun _ => lengths) NodeKind.noConfusion trailer fits
                | internal =>
                    dsimp only
                    split
                    · exact .inl (Exists.intro _ rfl)
                    · rename_i nonzero
                      refine .inr (Exists.intro _ (And.intro rfl (And.intro ?_ bytes)))
                      refine Shaped.mk sorted short NodeKind.noConfusion (fun _ => And.intro ?_ (And.intro rfl ?_))
                        (Nat.two_pow_pos 64) ?_
                      · rw [List.length_append, lengths]
                        rfl
                      · exact fun member => nonzero (List.contains_iff_mem.mpr member)
                      · intro value member
                        cases List.mem_append.mp member with
                        | inl inside => exact fits value inside
                        | inr last => exact List.mem_singleton.mp last ▸ trailer

/-- The codec of index nodes: every node an order allows survives its page, and every page is
refused or gives a node with a form that fits it. -/
theorem node_page_codec (page : Bytes) (order : Nat) :
    (minPageSize ≤ page.length → page.length ≤ maxPageSize → fitsInPage page.length order = true →
      ∀ node : Node, Shaped (keyLimit page.length order) node → node.keys.length ≤ maxKeys order →
        ∃ written, putNode page node = .ok written ∧ getNode written = .ok node) ∧
    ((∃ error, getNode page = .error (.refused error)) ∨
      ∃ node, getNode page = .ok node ∧ Shaped maxKeyBytes node ∧ nodeBytes node ≤ page.length) := by
  refine And.intro (fun _ sized fits node shaped count => ?_) (getNode_decoded page)
  have room := nodeBytes_fits fits node count shaped.short
  have enough := shaped.enough
  have bounded := keyLimit_le page.length order
  obtain ⟨written, put, _, represents⟩ := putNode_represents sized room enough
    (fun key member => (shaped.short key member).trans bounded) shaped.next shaped.fits
  refine Exists.intro written (And.intro put ?_)
  rw [getNode_represents represents, getNode_shaped bounded shaped]
  rfl

/-- A page holds two keys where the order allows one, and an internal node loses a successor. -/
theorem node_page_unbounded :
    fitsInPage 512 2 = true ∧ maxKeys 2 = 1 ∧
      putNode (List.replicate 512 0) ⟨.leaf, 0, [[1], [2]], [3, 4]⟩ >>= getNode =
        .ok ⟨.leaf, 0, [[1], [2]], [3, 4]⟩ ∧
      putNode (List.replicate 512 0) ⟨.internal, 5, [], [3]⟩ >>= getNode = .ok ⟨.internal, 0, [], [3]⟩ := by
  decide +kernel

theorem node_page_small : ∃ written, putNode (List.replicate 512 0) ⟨.internal, 0, [[1]], [3, 4]⟩ = .ok written ∧
    getNode written = .ok ⟨.internal, 0, [[1]], [3, 4]⟩ :=
  (node_page_codec (List.replicate 512 0) 2).1 (by decide +kernel) (by decide +kernel) (by decide +kernel) _
    (Shaped.mk (by decide) (by decide +kernel) NodeKind.noConfusion (fun _ => by decide) (by decide) (by decide)) (by decide)

end ChuSQL.Storage.NodePage
