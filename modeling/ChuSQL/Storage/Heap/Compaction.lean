import ChuSQL.Storage.Heap.Slotted

/-! Compaction of slotted pages, and what a page stands for after any sequence
of operations. -/

set_option autoImplicit false

namespace ChuSQL.Storage.SlottedPage

open Library.ByteFile
open Library.Framing (littleEndian littleEndian_length)

variable {size : Nat} {page : Bytes} {slots : SlotMap}

/-- The offset of a dead slot means nothing. -/
theorem represents_clear (represents : Represents size page slots) {slot : Nat}
    (dead : slots[slot]? = some none) : Represents size (writeU32 page (slotOff slot) 0) slots := by
  have within := (List.getElem?_eq_some_iff.mp dead).1
  have entry := slotOff_le within
  have directory := represents.directory
  have sized := represents.length
  have lengths : (writeU32 page (slotOff slot) 0).length = page.length := writeU32_length 0 (by omega)
  have kept : ∀ other, (∃ tuple, slots[other]? = some (some tuple)) →
      tupleOff (writeU32 page (slotOff slot) 0) other = tupleOff page other := by
    rintro other ⟨tuple, found⟩
    rw [tupleOff_writeU32 _ _ _ _ (by decide), if_neg]
    rintro rfl
    rw [dead] at found
    cases Option.some.inj found
  refine ⟨lengths.trans sized, ?_, directory, ?_, ?_, ?_⟩
  · rw [slotCount_writeU32_off, represents.count]
  · intro other found
    rw [tupleLen_writeU32_off]
    exact represents.dead other found
  · intro other tuple found
    have placed := represents.live other tuple found
    have above := placed.above
    refine placed.of_kept lengths (kept other ⟨tuple, found⟩) (tupleLen_writeU32_off ..) above ?_
    rw [writeU32, window_writeAt_apart]
    rw [littleEndian_length]
    omega
  · intro first second distinct liveFirst liveSecond
    rw [Apart, kept first liveFirst, kept second liveSecond, tupleLen_writeU32_off, tupleLen_writeU32_off]
    exact represents.apart first second distinct liveFirst liveSecond

/-- The live tuples of some slots. -/
def SlotMap.entries (slots : SlotMap) (among : List Nat) : List (Nat × Bytes) :=
  among.filterMap fun slot => (slots[slot]?.join).map fun tuple => (slot, tuple)

theorem collectLive_spec {among : List Nat} (within : ∀ slot ∈ among, slot < slots.length)
    (represents : Represents size page slots) :
    (collectLive among page).1 = slots.entries among ∧
      Represents size (collectLive among page).2 slots := by
  induction among generalizing page with
  | nil => exact ⟨rfl, represents⟩
  | cons slot among ih =>
      have inside := within slot List.mem_cons_self
      have later : ∀ other ∈ among, other < slots.length :=
        fun other member => within other (List.mem_cons_of_mem _ member)
      rw [collectLive]
      split
      · next long =>
          obtain ⟨tuple, found⟩ := (represents.live_iff inside).mp long
          have placed := represents.live slot tuple found
          obtain ⟨live, cleared⟩ := ih later represents
          refine ⟨?_, cleared⟩
          rw [placed.len, placed.bytes, SlotMap.entries, List.filterMap_cons, found]
          exact congrArg ((slot, tuple) :: ·) live
      · next empty =>
          have dead : slots[slot]? = some none := by
            cases entry : slots[slot] with
            | none => rw [List.getElem?_eq_getElem inside, entry]
            | some tuple =>
                refine absurd ((represents.live_iff inside).mpr ⟨tuple, ?_⟩) empty
                rw [List.getElem?_eq_getElem inside, entry]
          obtain ⟨live, cleared⟩ := ih later (represents_clear represents dead)
          refine ⟨?_, cleared⟩
          rw [live, SlotMap.entries, SlotMap.entries, List.filterMap_cons, dead]
          rfl

def entryBytes (live : List (Nat × Bytes)) : Nat := (live.map fun entry => entry.2.length).sum

/-- What placing tuples below a bound does: they lie one below the other, and
nothing at the bound or above it changes. -/
structure PlacedBelow (page next : Bytes) (live : List (Nat × Bytes)) (stop : Nat) : Prop where
  length : next.length = page.length
  count : slotCount next = slotCount page
  lens : ∀ slot < slotCount page, tupleLen next slot = tupleLen page slot
  offs : ∀ slot < slotCount page, slot ∉ live.map (·.1) → tupleOff next slot = tupleOff page slot
  kept : ∀ start width, stop ≤ start → window next start width = window page start width
  above : ∀ entry ∈ live, stop - entryBytes live ≤ tupleOff next entry.1
  below : ∀ entry ∈ live, tupleOff next entry.1 + entry.2.length ≤ stop
  bytes : ∀ entry ∈ live, window next (tupleOff next entry.1) entry.2.length = entry.2
  stacked : live.Pairwise fun first second =>
    tupleOff next second.1 + second.2.length ≤ tupleOff next first.1

theorem placeLive_spec {live : List (Nat × Bytes)} {stop : Nat}
    (slotsWithin : ∀ entry ∈ live, entry.1 < slotCount page) (distinct : (live.map (·.1)).Nodup)
    (room : slotOff (slotCount page) + entryBytes live ≤ stop) (inside : stop ≤ page.length)
    (short : page.length ≤ maxPageSize) : PlacedBelow page (placeLive live stop page) live stop := by
  induction live generalizing page stop with
  | nil =>
      exact
        { length := rfl
          count := rfl
          lens := fun _ _ => rfl
          offs := fun _ _ _ => rfl
          kept := fun _ _ _ => rfl
          above := List.forall_mem_nil _
          below := List.forall_mem_nil _
          bytes := List.forall_mem_nil _
          stacked := .nil }
  | cons entry live ih =>
      obtain ⟨slot, bytes⟩ := entry
      obtain ⟨fresh, distinct⟩ := List.nodup_cons.mp distinct
      have within : slot < slotCount page := slotsWithin _ List.mem_cons_self
      have bounded : page.length ≤ 65536 := short
      have total : entryBytes ((slot, bytes) :: live) = bytes.length + entryBytes live := by
        simp [entryBytes]
      rw [total] at room
      obtain ⟨start, start_eq⟩ : ∃ start, start = stop - bytes.length := ⟨_, rfl⟩
      have ending : start + bytes.length = stop := by omega
      have entry := slotOff_le within
      obtain ⟨middle, middle_eq⟩ :
        ∃ middle, middle = writeU32 (writeAt page start bytes) (slotOff slot) start := ⟨_, rfl⟩
      have unfolded : placeLive ((slot, bytes) :: live) stop page = placeLive live start middle := by
        rw [placeLive, ← start_eq, ← middle_eq]
      have written : (writeAt page start bytes).length = page.length := writeAt_length_inside (by omega)
      have length : middle.length = page.length := by
        rw [middle_eq, writeU32_length _ (by omega), written]
      have count : slotCount middle = slotCount page := by
        rw [middle_eq, slotCount_writeU32_off, slotCount_writeAt]
        rw [slotOff_eq] at entry
        omega
      have lens : ∀ other < slotCount page, tupleLen middle other = tupleLen page other := by
        intro other inPage
        rw [middle_eq, tupleLen_writeU32_off, tupleLen_writeAt]
        have bound := slotOff_le inPage
        simp only [slotOff_eq] at bound room ⊢
        omega
      have offs : ∀ other < slotCount page, tupleOff middle other =
          if other = slot then start else tupleOff page other := by
        intro other inPage
        rw [middle_eq, tupleOff_writeU32 _ _ _ _ (by omega), tupleOff_writeAt]
        have bound := slotOff_le inPage
        simp only [slotOff_eq] at bound room ⊢
        omega
      have behind : ∀ offset width, slotOff (slotCount page) ≤ offset →
          window middle offset width = window (writeAt page start bytes) offset width := by
        intro offset width past
        rw [middle_eq, writeU32, window_writeAt_apart]
        rw [littleEndian_length]
        omega
      have rest : PlacedBelow middle (placeLive live start middle) live start := ih
        (fun other member => count ▸ slotsWithin other (List.mem_cons_of_mem _ member)) distinct
        (by rw [count]; omega) (by omega) (by omega)
      have own : tupleOff (placeLive live start middle) slot = start := by
        rw [rest.offs slot (count ▸ within) fresh, offs slot within, if_pos rfl]
      rw [unfolded]
      exact
        { length := rest.length.trans length
          count := rest.count.trans count
          lens := fun other inPage => (rest.lens other (count ▸ inPage)).trans (lens other inPage)
          offs := by
            intro other inPage missing
            rw [List.map_cons, List.mem_cons, not_or] at missing
            rw [rest.offs other (count ▸ inPage) missing.2, offs other inPage, if_neg missing.1]
          kept := by
            intro offset width past
            rw [rest.kept offset width (by omega), behind offset width (by omega),
              window_writeAt_apart _ (.inr (by omega))]
          above := by
            rw [total]
            refine List.forall_mem_cons.mpr ⟨?_, fun other member => ?_⟩
            · rw [own]
              omega
            · exact le_trans (by omega) (rest.above other member)
          below := by
            refine List.forall_mem_cons.mpr ⟨?_, fun other member => ?_⟩
            · rw [own]
              exact ending.le
            · exact (rest.below other member).trans (by omega)
          bytes := by
            refine List.forall_mem_cons.mpr ⟨?_, rest.bytes⟩
            rw [own, rest.kept start bytes.length le_rfl, behind start _ (by omega), window_writeAt_same]
          stacked := by
            refine List.pairwise_cons.mpr ⟨fun other member => ?_, rest.stacked⟩
            rw [own]
            exact rest.below other member }

theorem mem_entries {among : List Nat} {entry : Nat × Bytes} :
    entry ∈ slots.entries among ↔ entry.1 ∈ among ∧ slots[entry.1]? = some (some entry.2) := by
  obtain ⟨slot, tuple⟩ := entry
  rw [SlotMap.entries, List.mem_filterMap]
  constructor
  · rintro ⟨other, member, found⟩
    cases present : slots[other]?.join with
    | none =>
        rw [present] at found
        cases found
    | some bytes =>
        rw [present] at found
        cases found
        exact ⟨member, Option.join_eq_some_iff.mp present⟩
  · rintro ⟨member, found⟩
    exact ⟨slot, member, by rw [found]; rfl⟩

theorem entries_nodup {among : List Nat} (distinct : among.Nodup) :
    ((slots.entries among).map (·.1)).Nodup := by
  have sub : ((slots.entries among).map (·.1)).Sublist among := by
    induction among with
    | nil => exact .slnil
    | cons slot among ih =>
        have rest := ih (List.nodup_cons.mp distinct).2
        rw [SlotMap.entries, List.filterMap_cons]
        cases slots[slot]?.join with
        | none => exact rest.cons _
        | some tuple => exact rest.cons_cons _
  exact distinct.sublist sub

theorem entryBytes_entries (slots : SlotMap) :
    entryBytes (slots.entries (List.range slots.length)) = slots.bytes := by
  have among : ∀ among : List Nat, entryBytes (slots.entries among) =
      (among.map fun slot => tupleBytesOf slots[slot]?.join).sum := by
    intro among
    induction among with
    | nil => rfl
    | cons slot among ih =>
        rw [List.map_cons, List.sum_cons, ← ih, SlotMap.entries, List.filterMap_cons]
        cases slots[slot]?.join with
        | none => exact (Nat.zero_add _).symm
        | some tuple => rfl
  rw [among, SlotMap.bytes]
  refine congrArg List.sum (List.ext_getElem (by simp) fun slot _ inSlots => ?_)
  rw [List.length_map] at inSlots
  simp [List.getElem?_eq_getElem inSlots]

def EntriesApart (page : Bytes) (first second : Nat × Bytes) : Prop :=
  tupleOff page first.1 + first.2.length ≤ tupleOff page second.1 ∨
    tupleOff page second.1 + second.2.length ≤ tupleOff page first.1

instance (page : Bytes) : Std.Symm (EntriesApart page) := ⟨fun _ _ => Or.symm⟩

/-- Live tuples put back from the page end down make a page of the same slots. -/
theorem represents_placed {next : Bytes} (represents : Represents size page slots)
    (placed : PlacedBelow page next (slots.entries (List.range slots.length)) size)
    (room : slotOff slots.length + slots.bytes ≤ size) : Represents size next slots := by
  have member : ∀ slot tuple, slots[slot]? = some (some tuple) →
      (slot, tuple) ∈ slots.entries (List.range slots.length) := fun slot tuple found =>
    mem_entries.mpr ⟨List.mem_range.mpr (List.getElem?_eq_some_iff.mp found).1, found⟩
  have lens : ∀ slot < slots.length, tupleLen next slot = tupleLen page slot :=
    fun slot within => placed.lens slot (represents.count ▸ within)
  have liveLen : ∀ slot tuple, slots[slot]? = some (some tuple) → tupleLen next slot = tuple.length :=
    fun slot tuple found => (lens slot (List.getElem?_eq_some_iff.mp found).1).trans
      (represents.live slot tuple found).len
  refine ⟨placed.length.trans represents.length, placed.count.trans represents.count,
    represents.directory, ?_, ?_, ?_⟩
  · intro slot found
    rw [lens slot (List.getElem?_eq_some_iff.mp found).1]
    exact represents.dead slot found
  · intro slot tuple found
    have above : size - entryBytes (slots.entries (List.range slots.length)) ≤ tupleOff next slot :=
      placed.above (slot, tuple) (member slot tuple found)
    rw [entryBytes_entries] at above
    have below : tupleOff next slot + tuple.length ≤ size :=
      placed.below (slot, tuple) (member slot tuple found)
    refine ⟨(represents.live slot tuple found).nonempty, liveLen slot tuple found, by omega, ?_,
      placed.bytes (slot, tuple) (member slot tuple found)⟩
    rwa [placed.length, represents.length]
  · rintro first second distinct ⟨firstTuple, foundFirst⟩ ⟨secondTuple, foundSecond⟩
    have stacked : (slots.entries (List.range slots.length)).Pairwise (EntriesApart next) :=
      placed.stacked.imp fun below => .inr below
    have apart := stacked.forall (member first firstTuple foundFirst)
      (member second secondTuple foundSecond) fun same => distinct (congrArg Prod.fst same)
    rw [Apart, liveLen first firstTuple foundFirst, liveLen second secondTuple foundSecond]
    exact apart

/-- Compaction keeps every tuple, and leaves all free bytes in one piece. -/
theorem compactPage_spec (represents : Represents size page slots) (short : size ≤ maxPageSize) :
    Represents size (compactPage page).2 slots ∧ freeEnd (compactPage page).2 = size - slots.bytes := by
  have fit := represents.bytes_le
  have low := represents.freeEnd_le
  have directory := represents.directory_le_freeEnd
  rw [compactPage]
  split
  · next packed =>
      refine ⟨represents, ?_⟩
      rw [represents.deadBytes_eq] at packed
      show freeEnd page = _
      omega
  · have within : ∀ slot ∈ List.range slots.length, slot < slots.length :=
      fun slot member => List.mem_range.mp member
    obtain ⟨live, cleared⟩ := collectLive_spec within represents
    have placed : PlacedBelow (collectLive (List.range slots.length) page).2
        (placeLive (slots.entries (List.range slots.length)) size
          (collectLive (List.range slots.length) page).2)
        (slots.entries (List.range slots.length)) size := by
      refine placeLive_spec ?_ (entries_nodup List.nodup_range) ?_ ?_ ?_
      · intro entry member
        rw [cleared.count]
        exact List.mem_range.mp (mem_entries.mp member).1
      · rw [cleared.count, entryBytes_entries]
        omega
      · exact cleared.length.ge
      · exact cleared.length.le.trans short
    have kept := represents_placed cleared placed (by omega)
    show Represents size (placeLive (collectLive (List.range (slotCount page)) page).1 page.length
        (collectLive (List.range (slotCount page)) page).2) slots ∧
      freeEnd (placeLive (collectLive (List.range (slotCount page)) page).1 page.length
        (collectLive (List.range (slotCount page)) page).2) = size - slots.bytes
    rw [represents.count, represents.length, live]
    refine ⟨kept, le_antisymm ?_ ?_⟩
    · have fitNow := kept.bytes_le
      have lowNow := kept.freeEnd_le
      omega
    · refine le_lowest (by rw [kept.length]; exact Nat.sub_le _ _) fun slot within long => ?_
      obtain ⟨tuple, found⟩ := (kept.live_iff (kept.count ▸ within)).mp long
      have member : (slot, tuple) ∈ slots.entries (List.range slots.length) := mem_entries.mpr
        ⟨List.mem_range.mpr (List.getElem?_eq_some_iff.mp found).1, found⟩
      have above := placed.above (slot, tuple) member
      rwa [entryBytes_entries] at above

theorem compactIfFragmented_spec (represents : Represents size page slots) (short : size ≤ maxPageSize) :
    Represents size (compactIfFragmented page).2 slots := by
  rw [compactIfFragmented]
  split
  · exact (compactPage_spec represents short).1
  · exact represents

/-- On a page just compacted an insert succeeds exactly when the tuple fits
beside the live ones. -/
theorem insertTuple_compacted (represents : Represents size page slots) (short : size ≤ maxPageSize)
    (tuple : Bytes) :
    (insertTuple (compactPage page).2 tuple).1 =
      if slotOff (slots.length + 1) + tuple.length + slots.bytes ≤ size then some slots.length
      else none := by
  obtain ⟨compacted, free⟩ := compactPage_spec represents short
  rw [insertTuple_eq, compacted.count, free]
  have fit := represents.bytes_le
  have positive := slotOff_eq (slots.length + 1)
  by_cases fits : slotOff (slots.length + 1) + tuple.length + slots.bytes ≤ size
  · rw [if_pos fits, if_pos (by omega)]
  · rw [if_neg fits, if_neg (by omega)]

/-! ### Sequences of operations -/

inductive Op where
  | insert (tuple : Bytes)
  | delete (slot : Nat)
  | compact
  | compactIfFragmented
deriving DecidableEq

inductive Answer where
  | inserted (slot : Option Nat)
  | deleted (existed : Bool)
  | reclaimed (bytes : Nat)
deriving DecidableEq

def Op.apply (page : Bytes) : Op → Answer × Bytes
  | insert tuple => ((insertTuple page tuple).map .inserted id)
  | delete slot => ((deleteTuple page slot).map .deleted id)
  | compact => ((compactPage page).map .reclaimed id)
  | compactIfFragmented => ((SlottedPage.compactIfFragmented page).map .reclaimed id)

def pageAfter (page : Bytes) (ops : List Op) : Bytes := ops.foldl (fun page op => (op.apply page).2) page

/-- The operations with what each returned. -/
def history : Bytes → List Op → List (Op × Answer)
  | _, [] => []
  | page, op :: rest => (op, (op.apply page).1) :: history (op.apply page).2 rest

/-- What the operations mean for the slot map: an insert that is not refused
takes the next number, a delete empties its slot, compaction does nothing. -/
inductive SlotMap.Takes : SlotMap → Op → Answer → SlotMap → Prop where
  | inserted {slots : SlotMap} {tuple : Bytes} :
      Takes slots (.insert tuple) (.inserted (some slots.length)) (slots ++ [some tuple])
  | refused {slots : SlotMap} {tuple : Bytes} : Takes slots (.insert tuple) (.inserted none) slots
  | deleted {slots : SlotMap} {slot : Nat} :
      Takes slots (.delete slot) (.deleted (slots[slot]?.join).isSome) (slots.set slot none)
  | compacted {slots : SlotMap} {bytes : Nat} : Takes slots .compact (.reclaimed bytes) slots
  | compactedIfFragmented {slots : SlotMap} {bytes : Nat} :
      Takes slots .compactIfFragmented (.reclaimed bytes) slots

inductive SlotMap.Run : SlotMap → List (Op × Answer) → SlotMap → Prop where
  | nil {slots : SlotMap} : Run slots [] slots
  | cons {slots middle final : SlotMap} {op : Op} {answer : Answer} {rest : List (Op × Answer)} :
      Takes slots op answer middle → Run middle rest final → Run slots ((op, answer) :: rest) final

/-- Inserts are of tuples with at least one byte. -/
def Op.Permitted (op : Op) : Prop := ∀ tuple, op = .insert tuple → tuple ≠ []

theorem apply_spec (represents : Represents size page slots) (short : size ≤ maxPageSize) {op : Op}
    (permitted : op.Permitted) :
    ∃ next, slots.Takes op (op.apply page).1 next ∧ Represents size (op.apply page).2 next := by
  cases op with
  | insert tuple =>
      simp only [Op.apply, insertTuple_eq, represents.count]
      split
      · next fits =>
          exact ⟨_, .inserted, represents_insert represents short (permitted tuple rfl) fits⟩
      · exact ⟨slots, .refused, represents⟩
  | delete slot =>
      obtain ⟨existed, deleted⟩ := deleteTuple_spec represents slot
      refine ⟨slots.set slot none, ?_, deleted⟩
      simp only [Op.apply, Prod.map, existed]
      exact .deleted
  | compact => exact ⟨slots, .compacted, (compactPage_spec represents short).1⟩
  | compactIfFragmented =>
      exact ⟨slots, .compactedIfFragmented, compactIfFragmented_spec represents short⟩

theorem run_spec (represents : Represents size page slots) (short : size ≤ maxPageSize) {ops : List Op}
    (permitted : ∀ op ∈ ops, op.Permitted) :
    ∃ final, slots.Run (history page ops) final ∧ Represents size (pageAfter page ops) final := by
  induction ops generalizing page slots with
  | nil => exact ⟨slots, .nil, represents⟩
  | cons op ops ih =>
      obtain ⟨middle, takes, next⟩ := apply_spec represents short (permitted op List.mem_cons_self)
      obtain ⟨final, later, ends⟩ := ih next fun other member =>
        permitted other (List.mem_cons_of_mem _ member)
      exact ⟨final, .cons takes later, ends⟩

/-- A slot once given keeps its number and its tuple, or is empty for good. -/
def SlotMap.Keeps (slots next : SlotMap) : Prop :=
  slots.length ≤ next.length ∧
    ∀ slot < slots.length, next[slot]?.join = slots[slot]?.join ∨ next[slot]?.join = none

theorem SlotMap.Takes.keeps {next : SlotMap} {op : Op} {answer : Answer} (takes : slots.Takes op answer next) :
    slots.Keeps next := by
  cases takes with
  | inserted =>
      refine ⟨by simp, fun slot within => .inl ?_⟩
      rw [List.getElem?_append_left within]
  | deleted =>
      refine ⟨by simp, fun slot within => ?_⟩
      rw [List.getElem?_set]
      split
      · next same =>
          subst same
          exact .inr (by simp [within])
      · exact .inl rfl
  | refused => exact ⟨le_rfl, fun _ _ => .inl rfl⟩
  | compacted => exact ⟨le_rfl, fun _ _ => .inl rfl⟩
  | compactedIfFragmented => exact ⟨le_rfl, fun _ _ => .inl rfl⟩

theorem SlotMap.Run.keeps {next : SlotMap} {log : List (Op × Answer)} (run : slots.Run log next) :
    slots.Keeps next := by
  induction run with
  | nil => exact ⟨le_rfl, fun _ _ => .inl rfl⟩
  | cons takes _ ih =>
      obtain ⟨longer, kept⟩ := takes.keeps
      refine ⟨longer.trans ih.1, fun slot within => ?_⟩
      rcases ih.2 slot (within.trans_le longer) with same | gone
      · rcases kept slot within with kept | gone
        · exact .inl (same.trans kept)
        · exact .inr (same.trans gone)
      · exact .inr gone

theorem Represents.apart_of_isSome (represents : Represents size page slots) {first second : Nat}
    (distinct : first ≠ second) (liveFirst : (getTuple page first).isSome)
    (liveSecond : (getTuple page second).isSome) : Apart page first second := by
  rw [represents.getTuple_eq] at liveFirst liveSecond
  obtain ⟨firstTuple, foundFirst⟩ := Option.isSome_iff_exists.mp liveFirst
  obtain ⟨secondTuple, foundSecond⟩ := Option.isSome_iff_exists.mp liveSecond
  exact represents.apart first second distinct ⟨_, Option.join_eq_some_iff.mp foundFirst⟩
    ⟨_, Option.join_eq_some_iff.mp foundSecond⟩

theorem Represents.inside_of_isSome (represents : Represents size page slots) {slot : Nat}
    (live : (getTuple page slot).isSome) :
    slotOff (slotCount page) ≤ tupleOff page slot ∧ tupleOff page slot + tupleLen page slot ≤ size := by
  rw [represents.getTuple_eq] at live
  obtain ⟨tuple, found⟩ := Option.isSome_iff_exists.mp live
  have placed := represents.live slot tuple (Option.join_eq_some_iff.mp found)
  rw [represents.count, placed.len, ← represents.length]
  exact ⟨placed.above, placed.inside⟩

theorem pageAfter_append (page : Bytes) (first second : List Op) :
    pageAfter page (first ++ second) = pageAfter (pageAfter page first) second := List.foldl_append

/-- A page refines its slot map over any sequence of operations on a zeroed page:
live slots share no byte and lie behind the directory, reads return what the slot
map has, slot numbers stay, compaction changes no read, and an insert after
compaction succeeds exactly when the tuple fits beside the live ones. -/
theorem slotted_page_refines {size : Nat} (low : minPageSize ≤ size) (high : size ≤ maxPageSize)
    {ops : List Op} (permitted : ∀ op ∈ ops, op.Permitted) :
    ∃ slots, SlotMap.Run [] (history (zeroed size) ops) slots ∧
      slotCount (pageAfter (zeroed size) ops) = slots.length ∧
      (∀ slot, getTuple (pageAfter (zeroed size) ops) slot = slots[slot]?.join) ∧
      (∀ slot, (getTuple (pageAfter (zeroed size) ops) slot).isSome →
        slotOff slots.length ≤ tupleOff (pageAfter (zeroed size) ops) slot ∧
        tupleOff (pageAfter (zeroed size) ops) slot + tupleLen (pageAfter (zeroed size) ops) slot ≤
          size) ∧
      (∀ first second, first ≠ second → (getTuple (pageAfter (zeroed size) ops) first).isSome →
        (getTuple (pageAfter (zeroed size) ops) second).isSome →
        Apart (pageAfter (zeroed size) ops) first second) ∧
      (∀ slot, getTuple (compactPage (pageAfter (zeroed size) ops)).2 slot =
          getTuple (pageAfter (zeroed size) ops) slot ∧
        getTuple (compactIfFragmented (pageAfter (zeroed size) ops)).2 slot =
          getTuple (pageAfter (zeroed size) ops) slot) ∧
      (∀ earlier later, ops = earlier ++ later →
        slotCount (pageAfter (zeroed size) earlier) ≤ slots.length ∧
        ∀ slot < slotCount (pageAfter (zeroed size) earlier),
          getTuple (pageAfter (zeroed size) ops) slot =
            getTuple (pageAfter (zeroed size) earlier) slot ∨
          getTuple (pageAfter (zeroed size) ops) slot = none) ∧
      ∀ tuple, (insertTuple (compactPage (pageAfter (zeroed size) ops)).2 tuple).1 =
        if slotOff (slots.length + 1) + tuple.length + slots.bytes ≤ size then some slots.length
        else none := by
  have enough : headerSize ≤ size := le_trans (by decide) low
  obtain ⟨slots, run, represents⟩ := run_spec (represents_zeroed enough) high permitted
  refine ⟨slots, run, represents.count, represents.getTuple_eq, ?_, ?_, ?_, ?_, ?_⟩
  · intro slot live
    rw [← represents.count]
    exact represents.inside_of_isSome live
  · intro first second distinct liveFirst liveSecond
    exact represents.apart_of_isSome distinct liveFirst liveSecond
  · intro slot
    rw [(compactPage_spec represents high).1.getTuple_eq,
      (compactIfFragmented_spec represents high).getTuple_eq, represents.getTuple_eq]
    exact ⟨rfl, rfl⟩
  · intro earlier later split
    obtain ⟨middle, -, before⟩ := run_spec (represents_zeroed enough) high fun op member =>
      permitted op (split ▸ List.mem_append_left later member)
    obtain ⟨final, more, after⟩ := run_spec before high fun op member =>
      permitted op (split ▸ List.mem_append_right earlier member)
    rw [← pageAfter_append, ← split] at after
    obtain ⟨longer, kept⟩ := more.keeps
    rw [before.count, ← represents.count, after.count]
    refine ⟨longer, fun slot within => ?_⟩
    rw [after.getTuple_eq, before.getTuple_eq]
    exact kept slot within
  · exact insertTuple_compacted represents high

theorem slotted_page_refines_one : getTuple (pageAfter (zeroed 512) [.insert [7]]) 0 = some [7] := by
  have small : ∀ op ∈ [Op.insert [7]], op.Permitted := by
    intro op member tuple same
    rw [List.mem_singleton.mp member] at same
    cases same
    exact List.cons_ne_nil _ _
  have sized : minPageSize ≤ 512 ∧ 512 ≤ maxPageSize := by decide
  obtain ⟨slots, run, -, reads, -⟩ := slotted_page_refines sized.1 sized.2 small
  have placed : (history (zeroed 512) [.insert [7]]) = [(.insert [7], .inserted (some 0))] := by
    decide +kernel
  rw [placed] at run
  rw [reads]
  cases run with
  | cons takes rest =>
      cases rest
      cases takes
      rfl

/-- On a page that was not compacted a tuple may be refused although the live
tuples leave room for it: nothing is moved by an insert. -/
theorem fragmented_insert_refused :
    ¬∀ (size : Nat) (ops : List Op) (tuple : Bytes), minPageSize ≤ size → size ≤ maxPageSize →
      (∀ op ∈ ops, op.Permitted) → tuple ≠ [] →
      slotOff (slotCount (pageAfter (zeroed size) ops) + 1) + tuple.length +
        liveBytes (pageAfter (zeroed size) ops) ≤ size →
      (insertTuple (pageAfter (zeroed size) ops) tuple).1.isSome := by
  intro claim
  have nonempty : ∀ op ∈ [Op.insert (List.replicate 200 1), .insert (List.replicate 200 2), .delete 0],
      op.Permitted := by
    intro op member tuple same
    subst same
    simp only [List.mem_cons, List.not_mem_nil, or_false, Op.insert.injEq, reduceCtorEq] at member
    rcases member with rfl | rfl <;> simp
  have accepted := claim 512 _ (List.replicate 150 3) (by decide) (by decide) nonempty (by simp)
    (by decide +kernel)
  revert accepted
  decide +kernel

end ChuSQL.Storage.SlottedPage
