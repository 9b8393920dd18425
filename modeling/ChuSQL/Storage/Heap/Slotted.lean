import ChuSQL.Storage.Page

/-! Slotted pages at byte level. A page starts with the number of its slots and
the slot directory, eight bytes a slot; tuples are put in from the page end down. -/

set_option autoImplicit false

namespace ChuSQL.Storage.SlottedPage

open Library.ByteFile
open Library.Framing (littleEndian ofLittleEndian littleEndian_length ofLittleEndian_littleEndian)

def headerSize : Nat := 2
def slotSize : Nat := 8
def slotDirStart : Nat := headerSize

def readU16 (page : Bytes) (offset : Nat) : Nat := ofLittleEndian (window page offset 2)
def writeU16 (page : Bytes) (offset value : Nat) : Bytes := writeAt page offset (littleEndian 2 value)
def readU32 (page : Bytes) (offset : Nat) : Nat := ofLittleEndian (window page offset 4)
def writeU32 (page : Bytes) (offset value : Nat) : Bytes := writeAt page offset (littleEndian 4 value)

/-- A new page, all zero. -/
def zeroed (size : Nat) : Bytes := List.replicate size 0

def slotCount (page : Bytes) : Nat := readU16 page 0

def setSlotCount (page : Bytes) (count : Nat) : Bytes := writeU16 page 0 count

/-- Where the directory entry of a slot lies. -/
def slotOff (slot : Nat) : Nat := slotDirStart + slot * slotSize

def tupleOff (page : Bytes) (slot : Nat) : Nat := readU32 page (slotOff slot)
def tupleLen (page : Bytes) (slot : Nat) : Nat := readU32 page (slotOff slot + 4)

/-- Lower bound of the free space. -/
def freeStart (page : Bytes) : Nat := slotOff (slotCount page)

/-- The lowest offset of a live slot among the first slots. -/
def lowest (page : Bytes) : Nat → Nat
  | 0 => page.length
  | slot + 1 =>
      if 0 < tupleLen page slot ∧ tupleOff page slot < lowest page slot then tupleOff page slot
      else lowest page slot

/-- Upper bound of the free space. -/
def freeEnd (page : Bytes) : Nat := lowest page (slotCount page)

/-- Put a tuple in, `none` if it does not fit. -/
def insertTuple (page : Bytes) (tuple : Bytes) : Option Nat × Bytes :=
  let count := slotCount page
  if freeStart page + slotSize + tuple.length > freeEnd page then (none, page)
  else
    let start := freeEnd page - tuple.length
    let page := writeAt page start tuple
    let page := writeU32 page (slotOff count) start
    let page := writeU32 page (slotOff count + 4) tuple.length
    (some count, setSlotCount page (count + 1))

/-- Delete a slot: only its length becomes zero. -/
def deleteTuple (page : Bytes) (slot : Nat) : Bool × Bytes :=
  if slotCount page ≤ slot then (false, page)
  else if tupleLen page slot = 0 then (false, page)
  else (true, writeU32 page (slotOff slot + 4) 0)

def tupleBytes (page : Bytes) (slot : Nat) : Option Bytes :=
  if slotCount page ≤ slot then none
  else if tupleLen page slot = 0 then none
  else some (window page (tupleOff page slot) (tupleLen page slot))

def getTuple (page : Bytes) (slot : Nat) : Option Bytes := tupleBytes page slot

def liveBytes (page : Bytes) : Nat := ((List.range (slotCount page)).map (tupleLen page)).sum

/-- Bytes of the tuple area that no live slot takes. -/
def deadBytes (page : Bytes) : Nat := page.length - freeEnd page - liveBytes page

/-- Collect the live tuples and zero the offsets of the dead slots. -/
def collectLive : List Nat → Bytes → List (Nat × Bytes) × Bytes
  | [], page => ([], page)
  | slot :: rest, page =>
      if 0 < tupleLen page slot then
        let bytes := window page (tupleOff page slot) (tupleLen page slot)
        let (live, page) := collectLive rest page
        ((slot, bytes) :: live, page)
      else collectLive rest (writeU32 page (slotOff slot) 0)

/-- Put collected tuples back, each right below the one before. -/
def placeLive : List (Nat × Bytes) → Nat → Bytes → Bytes
  | [], _, page => page
  | (slot, bytes) :: rest, stop, page =>
      let start := stop - bytes.length
      placeLive rest start (writeU32 (writeAt page start bytes) (slotOff slot) start)

/-- Move the live tuples to the page end; slot numbers stay. Returns the number
of bytes reclaimed. -/
def compactPage (page : Bytes) : Nat × Bytes :=
  let reclaimed := deadBytes page
  if reclaimed = 0 then (0, page)
  else
    let (live, cleared) := collectLive (List.range (slotCount page)) page
    (reclaimed, placeLive live page.length cleared)

/-- Compact once a quarter of the page is dead. -/
def compactIfFragmented (page : Bytes) : Nat × Bytes :=
  if page.length ≤ deadBytes page * 4 then compactPage page else (0, page)

/-! ### Fields -/

theorem slotOff_eq (slot : Nat) : slotOff slot = 2 + slot * 8 := rfl

theorem readU32_writeU32 (page : Bytes) (offset : Nat) {value : Nat} (fits : value < 2 ^ 32) :
    readU32 (writeU32 page offset value) offset = value := by
  have same := window_writeAt_same page offset (littleEndian 4 value)
  rw [littleEndian_length] at same
  rw [readU32, writeU32, same, ofLittleEndian_littleEndian fits]

theorem readU32_writeAt {page values : Bytes} {offset start : Nat}
    (apart : start + 4 ≤ offset ∨ offset + values.length ≤ start) :
    readU32 (writeAt page offset values) start = readU32 page start := by
  rw [readU32, window_writeAt_apart page apart, readU32]

theorem readU16_writeAt {page values : Bytes} {offset start : Nat}
    (apart : start + 2 ≤ offset ∨ offset + values.length ≤ start) :
    readU16 (writeAt page offset values) start = readU16 page start := by
  rw [readU16, window_writeAt_apart page apart, readU16]

theorem writeU32_length {page : Bytes} {offset : Nat} (value : Nat) (inside : offset + 4 ≤ page.length) :
    (writeU32 page offset value).length = page.length :=
  writeAt_length_inside (by rwa [littleEndian_length])

section Directory

variable (page : Bytes) (slot other value : Nat)

@[simp] theorem slotCount_writeU32_off : slotCount (writeU32 page (slotOff slot) value) = slotCount page :=
  readU16_writeAt (.inl (by rw [slotOff_eq]; omega))

@[simp] theorem slotCount_writeU32_len :
    slotCount (writeU32 page (slotOff slot + 4) value) = slotCount page :=
  readU16_writeAt (.inl (by rw [slotOff_eq]; omega))

@[simp] theorem tupleLen_writeU32_off :
    tupleLen (writeU32 page (slotOff slot) value) other = tupleLen page other := by
  refine readU32_writeAt ?_
  simp only [slotOff_eq, littleEndian_length]
  omega

@[simp] theorem tupleOff_writeU32_len :
    tupleOff (writeU32 page (slotOff slot + 4) value) other = tupleOff page other := by
  refine readU32_writeAt ?_
  simp only [slotOff_eq, littleEndian_length]
  omega

theorem tupleOff_writeU32 (fits : value < 2 ^ 32) :
    tupleOff (writeU32 page (slotOff slot) value) other =
      if other = slot then value else tupleOff page other := by
  split
  · next same => rw [tupleOff, same, readU32_writeU32 page _ fits]
  · next distinct =>
      refine readU32_writeAt ?_
      simp only [slotOff_eq, littleEndian_length]
      omega

theorem tupleLen_writeU32 (fits : value < 2 ^ 32) :
    tupleLen (writeU32 page (slotOff slot + 4) value) other =
      if other = slot then value else tupleLen page other := by
  split
  · next same => rw [tupleLen, same, readU32_writeU32 page _ fits]
  · next distinct =>
      refine readU32_writeAt ?_
      simp only [slotOff_eq, littleEndian_length]
      omega

@[simp] theorem tupleOff_setSlotCount : tupleOff (setSlotCount page value) other = tupleOff page other := by
  unfold tupleOff setSlotCount writeU16
  refine readU32_writeAt (.inr ?_)
  simp only [slotOff_eq, littleEndian_length]
  omega

@[simp] theorem tupleLen_setSlotCount : tupleLen (setSlotCount page value) other = tupleLen page other := by
  unfold tupleLen setSlotCount writeU16
  refine readU32_writeAt (.inr ?_)
  simp only [slotOff_eq, littleEndian_length]
  omega

theorem slotCount_setSlotCount (fits : value < 2 ^ 16) : slotCount (setSlotCount page value) = value := by
  have same := window_writeAt_same page 0 (littleEndian 2 value)
  rw [littleEndian_length] at same
  rw [slotCount, setSlotCount, writeU16, readU16, same, ofLittleEndian_littleEndian fits]

end Directory

section Tuples

variable {page : Bytes} {start : Nat} (values : Bytes)

theorem slotCount_writeAt (behind : 2 ≤ start) : slotCount (writeAt page start values) = slotCount page :=
  readU16_writeAt (.inl behind)

theorem tupleOff_writeAt {slot : Nat} (behind : slotOff (slot + 1) ≤ start) :
    tupleOff (writeAt page start values) slot = tupleOff page slot := by
  refine readU32_writeAt (.inl ?_)
  simp only [slotOff_eq] at behind ⊢
  omega

theorem tupleLen_writeAt {slot : Nat} (behind : slotOff (slot + 1) ≤ start) :
    tupleLen (writeAt page start values) slot = tupleLen page slot := by
  refine readU32_writeAt (.inl ?_)
  simp only [slotOff_eq] at behind ⊢
  omega

end Tuples

/-! ### What a page stands for -/

/-- The tuple of each slot; a deleted one has none. -/
abbrev SlotMap := List (Option Bytes)

/-- The bytes of a live slot: they lie between a bound and the page end. -/
structure Placed (page : Bytes) (low slot : Nat) (tuple : Bytes) : Prop where
  nonempty : tuple ≠ []
  len : tupleLen page slot = tuple.length
  above : low ≤ tupleOff page slot
  inside : tupleOff page slot + tuple.length ≤ page.length
  bytes : window page (tupleOff page slot) tuple.length = tuple

/-- Two slots share no byte. -/
def Apart (page : Bytes) (first second : Nat) : Prop :=
  tupleOff page first + tupleLen page first ≤ tupleOff page second ∨
    tupleOff page second + tupleLen page second ≤ tupleOff page first

structure Represents (size : Nat) (page : Bytes) (slots : SlotMap) : Prop where
  length : page.length = size
  count : slotCount page = slots.length
  directory : slotOff slots.length ≤ size
  dead : ∀ slot, slots[slot]? = some none → tupleLen page slot = 0
  live : ∀ slot tuple, slots[slot]? = some (some tuple) → Placed page (slotOff slots.length) slot tuple
  apart : ∀ first second, first ≠ second → (∃ tuple, slots[first]? = some (some tuple)) →
    (∃ tuple, slots[second]? = some (some tuple)) → Apart page first second

def tupleBytesOf (entry : Option Bytes) : Nat := (entry.map List.length).getD 0

/-- Bytes of all live tuples. -/
def SlotMap.bytes (slots : SlotMap) : Nat := (slots.map tupleBytesOf).sum

theorem lowest_le_length (page : Bytes) (count : Nat) : lowest page count ≤ page.length := by
  induction count with
  | zero => exact le_rfl
  | succ count ih =>
      rw [lowest]
      split
      · next lower => exact lower.2.le.trans ih
      · exact ih

theorem lowest_le {page : Bytes} {slot count : Nat} (within : slot < count)
    (live : 0 < tupleLen page slot) : lowest page count ≤ tupleOff page slot := by
  induction count with
  | zero => omega
  | succ count ih =>
      rw [lowest]
      rcases Nat.lt_succ_iff_lt_or_eq.mp within with before | rfl
      · split
        · next lower => exact lower.2.le.trans (ih before)
        · exact ih before
      · split
        · exact le_rfl
        · next higher => exact not_lt.mp fun lower => higher ⟨live, lower⟩

theorem le_lowest {page : Bytes} {bound count : Nat} (short : bound ≤ page.length)
    (bounds : ∀ slot < count, 0 < tupleLen page slot → bound ≤ tupleOff page slot) :
    bound ≤ lowest page count := by
  induction count with
  | zero => exact short
  | succ count ih =>
      rw [lowest]
      split
      · next lower => exact bounds count (Nat.lt_succ_self _) lower.1
      · exact ih fun slot within => bounds slot (Nat.lt_succ_of_lt within)

namespace Represents

variable {size : Nat} {page : Bytes} {slots : SlotMap}

theorem tupleLen_eq (represents : Represents size page slots) {slot : Nat}
    (within : slot < slots.length) : tupleLen page slot = tupleBytesOf slots[slot] := by
  have found := List.getElem?_eq_getElem within
  cases entry : slots[slot] with
  | none =>
      rw [entry] at found
      exact represents.dead slot found
  | some tuple =>
      rw [entry] at found
      exact (represents.live slot tuple found).len

theorem live_iff (represents : Represents size page slots) {slot : Nat} (within : slot < slots.length) :
    0 < tupleLen page slot ↔ ∃ tuple, slots[slot]? = some (some tuple) := by
  rw [represents.tupleLen_eq within, List.getElem?_eq_getElem within]
  constructor
  · intro long
    cases entry : slots[slot] with
    | none =>
        rw [entry] at long
        exact absurd long (lt_irrefl 0)
    | some tuple => exact ⟨tuple, rfl⟩
  · rintro ⟨tuple, same⟩
    have nonempty := (represents.live slot tuple (by rw [List.getElem?_eq_getElem within, same])).nonempty
    rw [Option.some.inj same]
    exact List.length_pos_iff.mpr nonempty

/-- What a read of a slot returns. -/
theorem getTuple_eq (represents : Represents size page slots) (slot : Nat) :
    getTuple page slot = slots[slot]?.join := by
  rw [getTuple, tupleBytes, represents.count]
  split
  · next past => rw [List.getElem?_eq_none past, Option.join_none]
  · next within =>
      rw [not_le] at within
      split
      · next empty =>
          cases entry : slots[slot]? with
          | none => rfl
          | some tuple =>
              cases tuple with
              | none => rfl
              | some tuple =>
                  have long := (represents.live_iff within).mpr ⟨tuple, entry⟩
                  omega
      · next long =>
          obtain ⟨tuple, found⟩ := (represents.live_iff within).mp (Nat.pos_of_ne_zero long)
          have placed := represents.live slot tuple found
          rw [found, placed.len, placed.bytes, Option.join_some]

theorem freeEnd_le (represents : Represents size page slots) : freeEnd page ≤ size :=
  represents.length ▸ lowest_le_length page _

/-- All live tuples lie above the free space. -/
theorem freeEnd_le_tupleOff (represents : Represents size page slots) {slot : Nat} {tuple : Bytes}
    (found : slots[slot]? = some (some tuple)) : freeEnd page ≤ tupleOff page slot := by
  have within := (List.getElem?_eq_some_iff.mp found).1
  exact lowest_le (represents.count ▸ within) ((represents.live_iff within).mpr ⟨tuple, found⟩)

/-- The slot directory ends below the free space. -/
theorem directory_le_freeEnd (represents : Represents size page slots) :
    slotOff slots.length ≤ freeEnd page := by
  refine le_lowest (represents.length ▸ represents.directory) fun slot within long => ?_
  obtain ⟨tuple, found⟩ := (represents.live_iff (represents.count ▸ within)).mp long
  exact (represents.live slot tuple found).above

theorem liveBytes_eq (represents : Represents size page slots) : liveBytes page = slots.bytes := by
  rw [liveBytes, SlotMap.bytes, represents.count]
  refine congrArg List.sum (List.ext_getElem (by simp) fun slot inRange inSlots => ?_)
  rw [List.length_map] at inSlots
  simp only [List.getElem_map, List.getElem_range]
  exact represents.tupleLen_eq inSlots

/-- The live tuples fit between the free space and the page end. -/
theorem bytes_le (represents : Represents size page slots) : slots.bytes ≤ size - freeEnd page := by
  have fits := disjoint_windows_fit (Finset.range slots.length) (tupleOff page) (tupleLen page)
    (freeEnd page) size ?_ ?_
  · rw [← represents.liveBytes_eq, liveBytes, represents.count]
    exact fits
  · intro slot member long
    rw [Finset.mem_range] at member
    obtain ⟨tuple, found⟩ := (represents.live_iff member).mp long
    have placed := represents.live slot tuple found
    refine ⟨represents.freeEnd_le_tupleOff found, ?_⟩
    rw [placed.len, ← represents.length]
    exact placed.inside
  · intro first inFirst second inSecond distinct longFirst longSecond
    rw [Finset.mem_range] at inFirst inSecond
    exact represents.apart first second distinct ((represents.live_iff inFirst).mp longFirst)
      ((represents.live_iff inSecond).mp longSecond)

theorem deadBytes_eq (represents : Represents size page slots) :
    deadBytes page = size - freeEnd page - slots.bytes := by
  rw [deadBytes, represents.length, represents.liveBytes_eq]

end Represents

/-! ### Inserting and deleting -/

theorem represents_zeroed {size : Nat} (enough : headerSize ≤ size) : Represents size (zeroed size) [] where
  length := List.length_replicate
  count := by
    rw [slotCount, readU16, zeroed, window_zeros]
    rfl
  directory := enough
  dead := fun _ found => by cases found
  live := fun _ _ found => by cases found
  apart := fun _ _ _ found => by
    obtain ⟨_, found⟩ := found
    cases found

section Steps

variable {size : Nat} {page : Bytes} {slots : SlotMap}

/-- The directory entry written for a new tuple. -/
def register (page : Bytes) (slot start length : Nat) : Bytes :=
  setSlotCount (writeU32 (writeU32 page (slotOff slot) start) (slotOff slot + 4) length) (slot + 1)

section Register

variable {slot start length : Nat}

theorem register_length (room : slotOff (slot + 1) ≤ page.length) :
    (register page slot start length).length = page.length := by
  rw [slotOff_eq] at room
  have offset : (writeU32 page (slotOff slot) start).length = page.length :=
    writeU32_length start (by rw [slotOff_eq]; omega)
  have entry : (writeU32 (writeU32 page (slotOff slot) start) (slotOff slot + 4) length).length =
      page.length := by
    rw [writeU32_length length (by rw [offset, slotOff_eq]; omega), offset]
  rw [register, setSlotCount, writeU16, writeAt_length_inside, entry]
  rw [entry, littleEndian_length]
  omega

theorem window_register {offset : Nat} (width : Nat) (behind : slotOff (slot + 1) ≤ offset) :
    window (register page slot start length) offset width = window page offset width := by
  rw [slotOff_eq] at behind
  unfold register setSlotCount writeU16 writeU32
  rw [window_writeAt_apart, window_writeAt_apart, window_writeAt_apart] <;>
    simp only [littleEndian_length, slotOff_eq] <;> omega

theorem slotCount_register (fits : slot + 1 < 2 ^ 16) :
    slotCount (register page slot start length) = slot + 1 :=
  slotCount_setSlotCount _ _ fits

theorem tupleOff_register (fits : start < 2 ^ 32) (other : Nat) :
    tupleOff (register page slot start length) other =
      if other = slot then start else tupleOff page other := by
  rw [register, tupleOff_setSlotCount, tupleOff_writeU32_len, tupleOff_writeU32 _ _ _ _ fits]

theorem tupleLen_register (fits : length < 2 ^ 32) (other : Nat) :
    tupleLen (register page slot start length) other =
      if other = slot then length else tupleLen page other := by
  rw [register, tupleLen_setSlotCount, tupleLen_writeU32 _ _ _ _ fits, tupleLen_writeU32_off]

end Register

theorem insertTuple_eq (page tuple : Bytes) :
    insertTuple page tuple =
      if slotOff (slotCount page + 1) + tuple.length ≤ freeEnd page then
        (some (slotCount page),
          register (writeAt page (freeEnd page - tuple.length) tuple) (slotCount page)
            (freeEnd page - tuple.length) tuple.length)
      else (none, page) := by
  have next : freeStart page + slotSize = slotOff (slotCount page + 1) := by
    simp only [freeStart, slotSize, slotOff_eq]
    omega
  rw [insertTuple, next]
  by_cases fits : slotOff (slotCount page + 1) + tuple.length ≤ freeEnd page
  · rw [if_neg (not_lt.mpr fits), if_pos fits]
    rfl
  · rw [if_pos (not_le.mp fits), if_neg fits]

/-- A slot keeps its tuple when its entry stays and nothing is written over it. -/
theorem Placed.of_kept {page next : Bytes} {low bound slot : Nat} {tuple : Bytes}
    (placed : Placed page low slot tuple) (lengths : next.length = page.length)
    (offset : tupleOff next slot = tupleOff page slot) (length : tupleLen next slot = tupleLen page slot)
    (above : bound ≤ tupleOff page slot)
    (kept : window next (tupleOff page slot) tuple.length = window page (tupleOff page slot) tuple.length) :
    Placed next bound slot tuple where
  nonempty := placed.nonempty
  len := length.trans placed.len
  above := offset ▸ above
  inside := by
    rw [offset, lengths]
    exact placed.inside
  bytes := by rw [offset, kept, placed.bytes]

theorem getElem?_concat {α : Type} {items : List α} {item found : α} {index : Nat}
    (at_ : (items ++ [item])[index]? = some found) :
    items[index]? = some found ∨ index = items.length ∧ item = found := by
  by_cases before : index < items.length
  · rw [List.getElem?_append_left before] at at_
    exact .inl at_
  · rw [List.getElem?_append_right (not_lt.mp before), List.getElem?_singleton] at at_
    split at at_
    · next zero => exact .inr ⟨by omega, Option.some.inj at_⟩
    · cases at_

theorem set_of_getElem? {α : Type} {items : List α} {item : α} {index : Nat}
    (found : items[index]? = some item) : items.set index item = items := by
  obtain ⟨inside, rfl⟩ := List.getElem?_eq_some_iff.mp found
  exact List.set_getElem_self inside

/-- An insert that fits takes the next slot number. -/
theorem represents_insert (represents : Represents size page slots) (short : size ≤ maxPageSize)
    {tuple : Bytes} (nonempty : tuple ≠ [])
    (fits : slotOff (slots.length + 1) + tuple.length ≤ freeEnd page) :
    Represents size
      (register (writeAt page (freeEnd page - tuple.length) tuple) slots.length
        (freeEnd page - tuple.length) tuple.length)
      (slots ++ [some tuple]) := by
  have low := represents.freeEnd_le
  have long := List.length_pos_iff.mpr nonempty
  have bounded : size ≤ 65536 := short
  have sized := represents.length
  have next := slotOff_eq (slots.length + 1)
  obtain ⟨start, start_eq⟩ : ∃ start, start = freeEnd page - tuple.length := ⟨_, rfl⟩
  have stop : start + tuple.length = freeEnd page := by omega
  rw [← start_eq]
  have written : (writeAt page start tuple).length = page.length := writeAt_length_inside (by omega)
  have oldOff : ∀ slot < slots.length,
      tupleOff (register (writeAt page start tuple) slots.length start tuple.length) slot =
        tupleOff page slot := by
    intro slot within
    rw [tupleOff_register (by omega), if_neg within.ne, tupleOff_writeAt]
    rw [slotOff_eq]
    omega
  have oldLen : ∀ slot < slots.length,
      tupleLen (register (writeAt page start tuple) slots.length start tuple.length) slot =
        tupleLen page slot := by
    intro slot within
    rw [tupleLen_register (by omega), if_neg within.ne, tupleLen_writeAt]
    rw [slotOff_eq]
    omega
  have newOff : tupleOff (register (writeAt page start tuple) slots.length start tuple.length)
      slots.length = start := by
    rw [tupleOff_register (by omega), if_pos rfl]
  have newLen : tupleLen (register (writeAt page start tuple) slots.length start tuple.length)
      slots.length = tuple.length := by
    rw [tupleLen_register (by omega), if_pos rfl]
  have lengths : (register (writeAt page start tuple) slots.length start tuple.length).length =
      page.length := by
    rw [register_length, written]
    omega
  have separate : ∀ slot, (∃ old, slots[slot]? = some (some old)) →
      Apart (register (writeAt page start tuple) slots.length start tuple.length) slots.length slot := by
    rintro slot ⟨old, found⟩
    have above := represents.freeEnd_le_tupleOff found
    rw [Apart, newOff, newLen, oldOff slot (List.getElem?_eq_some_iff.mp found).1]
    omega
  refine ⟨lengths.trans sized, ?_, ?_, ?_, ?_, ?_⟩
  · rw [slotCount_register (by omega), List.length_append, List.length_singleton]
  · rw [List.length_append, List.length_singleton]
    omega
  · intro slot found
    rcases getElem?_concat found with old | new
    · rw [oldLen slot (List.getElem?_eq_some_iff.mp old).1]
      exact represents.dead slot old
    · cases new.2
  · intro slot other found
    rw [List.length_append, List.length_singleton]
    rcases getElem?_concat found with old | new
    · have within := (List.getElem?_eq_some_iff.mp old).1
      have above := represents.freeEnd_le_tupleOff old
      refine (represents.live slot other old).of_kept lengths (oldOff slot within) (oldLen slot within)
        (by omega) ?_
      rw [window_register _ (by omega), window_writeAt_apart _ (.inr (by omega))]
    · obtain ⟨rfl, same⟩ := new
      cases same
      refine ⟨nonempty, newLen, ?_, ?_, ?_⟩
      · rw [newOff]
        omega
      · rw [newOff, lengths]
        omega
      · rw [newOff, window_register _ (by omega), window_writeAt_same]
  · rintro first second distinct ⟨firstTuple, foundFirst⟩ ⟨secondTuple, foundSecond⟩
    rcases getElem?_concat foundFirst with oldFirst | newFirst
    · rcases getElem?_concat foundSecond with oldSecond | newSecond
      · have old := represents.apart first second distinct ⟨_, oldFirst⟩ ⟨_, oldSecond⟩
        have withinFirst := (List.getElem?_eq_some_iff.mp oldFirst).1
        have withinSecond := (List.getElem?_eq_some_iff.mp oldSecond).1
        rw [Apart, oldOff first withinFirst, oldOff second withinSecond, oldLen first withinFirst,
          oldLen second withinSecond]
        exact old
      · rw [newSecond.1]
        exact (separate first ⟨_, oldFirst⟩).symm
    · rcases getElem?_concat foundSecond with oldSecond | newSecond
      · rw [newFirst.1]
        exact separate second ⟨_, oldSecond⟩
      · exact absurd (newFirst.1.trans newSecond.1.symm) distinct

theorem slotOff_le {slot count : Nat} (within : slot < count) : slotOff slot + 8 ≤ slotOff count := by
  simp only [slotOff_eq]
  omega

theorem getElem?_set_none {slots : SlotMap} {slot other : Nat} {tuple : Bytes}
    (found : (slots.set slot none)[other]? = some (some tuple)) :
    other ≠ slot ∧ slots[other]? = some (some tuple) := by
  rw [List.getElem?_set] at found
  split at found
  · split at found
    · cases Option.some.inj found
    · cases found
  · next distinct => exact ⟨Ne.symm distinct, found⟩

theorem represents_delete (represents : Represents size page slots) {slot : Nat}
    (within : slot < slots.length) :
    Represents size (writeU32 page (slotOff slot + 4) 0) (slots.set slot none) := by
  have entry := slotOff_le within
  have directory := represents.directory
  have sized := represents.length
  have lengths : (writeU32 page (slotOff slot + 4) 0).length = page.length :=
    writeU32_length 0 (by omega)
  have emptied : ∀ other, tupleLen (writeU32 page (slotOff slot + 4) 0) other =
      if other = slot then 0 else tupleLen page other :=
    fun other => tupleLen_writeU32 page slot other 0 (by decide)
  refine ⟨lengths.trans sized, ?_, ?_, ?_, ?_, ?_⟩
  · rw [slotCount_writeU32_len, represents.count, List.length_set]
  · rw [List.length_set]
    exact directory
  · intro other found
    rw [emptied]
    split
    · rfl
    · next distinct =>
        rw [List.getElem?_set, if_neg (Ne.symm distinct)] at found
        exact represents.dead other found
  · intro other tuple found
    obtain ⟨distinct, found⟩ := getElem?_set_none found
    have placed := represents.live other tuple found
    have above := placed.above
    rw [List.length_set]
    refine placed.of_kept lengths (tupleOff_writeU32_len ..) ?_ above ?_
    · rw [emptied, if_neg distinct]
    · rw [writeU32, window_writeAt_apart]
      rw [littleEndian_length]
      omega
  · rintro first second distinct ⟨firstTuple, foundFirst⟩ ⟨secondTuple, foundSecond⟩
    obtain ⟨notFirst, foundFirst⟩ := getElem?_set_none foundFirst
    obtain ⟨notSecond, foundSecond⟩ := getElem?_set_none foundSecond
    rw [Apart, tupleOff_writeU32_len, tupleOff_writeU32_len, emptied, emptied, if_neg notFirst,
      if_neg notSecond]
    exact represents.apart first second distinct ⟨_, foundFirst⟩ ⟨_, foundSecond⟩

theorem deleteTuple_spec (represents : Represents size page slots) (slot : Nat) :
    (deleteTuple page slot).1 = (slots[slot]?.join).isSome ∧
      Represents size (deleteTuple page slot).2 (slots.set slot none) := by
  rw [deleteTuple, represents.count]
  split
  · next past =>
      rw [List.getElem?_eq_none past, List.set_eq_of_length_le past]
      exact ⟨rfl, represents⟩
  · next inside =>
      have within := not_le.mp inside
      split
      · next empty =>
          have dead : slots[slot]? = some none := by
            cases entry : slots[slot] with
            | none => rw [List.getElem?_eq_getElem within, entry]
            | some tuple =>
                have long := (represents.live_iff within).mpr
                  ⟨tuple, by rw [List.getElem?_eq_getElem within, entry]⟩
                omega
          rw [dead, set_of_getElem? dead]
          exact ⟨rfl, represents⟩
      · next long =>
          obtain ⟨tuple, found⟩ := (represents.live_iff within).mp (Nat.pos_of_ne_zero long)
          rw [found]
          exact ⟨rfl, represents_delete represents within⟩

end Steps

end ChuSQL.Storage.SlottedPage
