import ChuSQL.Library.RedoRun

/-! A file of values with writes that a crash may lose, keep or tear, and redo of
those writes from a log. Positions past the end read as zero. -/

set_option autoImplicit false

namespace Library.ByteFile

variable {α : Type}

inductive Change (α : Type) where
  | write (offset : Nat) (values : List α)
  | clear

namespace Change

def Covers (position : Nat) : Change α → Prop
  | write offset values => offset ≤ position ∧ position < offset + values.length
  | clear => False

/-- Where the written part ends. -/
def stop : Change α → Nat
  | write offset values => if values.isEmpty then 0 else offset + values.length
  | clear => 0

end Change

/-- The longest a file can be with some of the changes made. -/
def reach (length : Nat) : List (Change α) → Nat
  | [] => length
  | change :: rest => max change.stop (reach length rest)

theorem le_reach (length : Nat) (changes : List (Change α)) : length ≤ reach length changes := by
  induction changes with
  | nil => exact le_rfl
  | cons change changes ih => exact ih.trans (le_max_right _ _)

theorem stop_le_reach (length : Nat) {change : Change α} {changes : List (Change α)}
    (member : change ∈ changes) : change.stop ≤ reach length changes := by
  induction changes with
  | nil => cases member
  | cons other changes ih =>
      cases member with
      | head => exact le_max_left _ _
      | tail _ later => exact (ih later).trans (le_max_right _ _)

theorem reach_le {length bound : Nat} {changes : List (Change α)} (long : length ≤ bound)
    (stops : ∀ change ∈ changes, change.stop ≤ bound) : reach length changes ≤ bound := by
  induction changes with
  | nil => exact long
  | cons change changes ih =>
      exact max_le (stops change List.mem_cons_self)
        (ih fun other member => stops other (List.mem_cons_of_mem _ member))

variable [Zero α]

/-- Overwrite from an offset on; a gap behind the end is filled with zeros, and an
empty write changes nothing. -/
def writeAt (file : List α) (offset : Nat) (values : List α) : List α :=
  if values.isEmpty then file
  else (file ++ List.replicate (offset - file.length) 0).take offset ++ values ++
    file.drop (offset + values.length)

def Change.apply (file : List α) : Change α → List α
  | write offset values => writeAt file offset values
  | clear => []

def replay (changes : List (Change α)) (file : List α) : List α := changes.foldl Change.apply file

/-- The values from an offset on, continued with zeros. -/
def window (file : List α) (offset length : Nat) : List α :=
  (List.range length).map fun index => file.getD (offset + index) 0

def readAt (file : List α) (offset length : Nat) : Option (List α) :=
  if offset + length ≤ file.length then some (window file offset length) else none

/-- A file and the changes made since its last sync. -/
structure File (α : Type) where
  synced : List α
  unsynced : List (Change α)

namespace File

def content (file : File α) : List α := replay file.unsynced file.synced

def change (file : File α) (change : Change α) : File α :=
  { file with unsynced := file.unsynced ++ [change] }

def sync (file : File α) : File α := ⟨file.content, []⟩

end File

/-- What a crash may leave of changes to a synced file: outside the written parts
the synced values, inside anything, and any length in between. A file that was
cleared may hold anything. -/
def Torn (synced : List α) (changes : List (Change α)) (crashed : List α) : Prop :=
  .clear ∈ changes ∨
    synced.length ≤ crashed.length ∧
    crashed.length ≤ reach synced.length changes ∧
    ∀ position, (∀ change ∈ changes, ¬change.Covers position) →
      crashed.getD position 0 = synced.getD position 0

theorem writeAt_length (file : List α) (offset : Nat) (values : List α) :
    (writeAt file offset values).length = max file.length (Change.write offset values).stop := by
  unfold writeAt
  cases values with
  | nil => simp [Change.stop]
  | cons value rest => simp [Change.stop]; omega

theorem writeAt_getD (file : List α) (offset : Nat) (values : List α) (position : Nat) :
    (writeAt file offset values).getD position 0 =
      if offset ≤ position ∧ position < offset + values.length then values.getD (position - offset) 0
      else file.getD position 0 := by
  unfold writeAt
  cases values with
  | nil =>
      have outside : ¬(offset ≤ position ∧ position < offset + ([] : List α).length) := by
        rw [List.length_nil]
        omega
      rw [if_neg outside, List.isEmpty_nil, if_pos rfl]
  | cons value rest =>
      rw [if_neg (by simp)]
      have width : ((file ++ List.replicate (offset - file.length) 0).take offset).length = offset := by
        simp
        omega
      by_cases before : position < offset
      · rw [if_neg (by omega), List.append_assoc, List.getD_append _ _ _ _ (by omega)]
        simp only [List.getD_eq_getElem?_getD, List.getElem?_take_of_lt before]
        by_cases inside : position < file.length
        · rw [List.getElem?_append_left inside]
        · rw [List.getElem?_append_right (by omega), List.getElem?_eq_none (by omega : file.length ≤ position),
            List.getElem?_replicate_of_lt (by omega)]
          rfl
      · by_cases inside : position < offset + (value :: rest).length
        · rw [if_pos ⟨by omega, inside⟩, List.append_assoc,
            List.getD_append_right _ _ _ _ (by omega), width,
            List.getD_append _ _ _ _ (by omega)]
        · rw [if_neg (by omega), List.getD_append_right _ _ _ _ (by rw [List.length_append, width]; omega)]
          simp only [List.getD_eq_getElem?_getD, List.getElem?_drop, List.length_append, width]
          congr 2
          omega

theorem ext_getD {first second : List α} (lengths : first.length = second.length)
    (values : ∀ position, first.getD position 0 = second.getD position 0) : first = second := by
  apply List.ext_getElem lengths
  intro position inFirst inSecond
  have same := values position
  rwa [List.getD_eq_getElem _ _ inFirst, List.getD_eq_getElem _ _ inSecond] at same

@[simp] theorem replay_nil (file : List α) : replay [] file = file := rfl

@[simp] theorem replay_cons (change : Change α) (changes : List (Change α)) (file : List α) :
    replay (change :: changes) file = replay changes (change.apply file) := rfl

theorem replay_append (first second : List (Change α)) (file : List α) :
    replay (first ++ second) file = replay second (replay first file) := by
  rw [replay, List.foldl_append]
  rfl

/-- One change made again on a torn file leaves less of it torn. -/
theorem Torn.step {synced crashed : List α} {change : Change α} {changes : List (Change α)}
    (torn : Torn synced (change :: changes) crashed) :
    Torn (change.apply synced) changes (change.apply crashed) := by
  cases change with
  | clear =>
      refine .inr ⟨le_rfl, ?_, fun _ _ => rfl⟩
      exact Nat.zero_le _
  | write offset values =>
      rcases torn with cleared | ⟨long, short, outside⟩
      · refine .inl ?_
        cases cleared with
        | tail _ later => exact later
      · refine .inr ⟨?_, ?_, ?_⟩
        · simp only [Change.apply, writeAt_length]
          omega
        · simp only [Change.apply, writeAt_length]
          have own := (le_max_right synced.length (Change.write offset values).stop).trans
            (le_reach _ changes)
          have kept := reach_le ((le_max_left _ _).trans (le_reach
            (max synced.length (Change.write offset values).stop) changes))
            fun other member => stop_le_reach _ member
          rw [reach] at short
          exact max_le (short.trans (max_le own kept)) own
        · intro position uncovered
          simp only [Change.apply, writeAt_getD]
          split
          · rfl
          · rename_i apart
            refine outside position ?_
            intro other member
            cases member with
            | head => exact apart
            | tail _ later => exact uncovered other later

/-- Redo of all changes since the sync repairs the file, whatever a crash left. -/
theorem replay_torn {synced crashed : List α} {changes : List (Change α)}
    (torn : Torn synced changes crashed) : replay changes crashed = replay changes synced := by
  induction changes generalizing synced crashed with
  | nil =>
      rcases torn with cleared | ⟨long, short, outside⟩
      · cases cleared
      · refine ext_getD (le_antisymm short long) fun position => outside position ?_
        intro change member
        cases member
  | cons change changes ih => exact ih torn.step

theorem length_le_apply {change : Change α} (kept : change ≠ .clear) (file : List α) :
    file.length ≤ (change.apply file).length := by
  cases change with
  | clear => exact absurd rfl kept
  | write offset values =>
      rw [Change.apply, writeAt_length]
      exact le_max_left _ _

/-- Outside the written parts a file keeps its values and never gets shorter. -/
theorem replay_kept {changes : List (Change α)} (kept : .clear ∉ changes) (file : List α) :
    file.length ≤ (replay changes file).length ∧
      (replay changes file).length ≤ reach file.length changes ∧
      ∀ position, (∀ change ∈ changes, ¬change.Covers position) →
        (replay changes file).getD position 0 = file.getD position 0 := by
  induction changes generalizing file with
  | nil => exact ⟨le_rfl, le_rfl, fun _ _ => rfl⟩
  | cons change changes ih =>
      rw [List.mem_cons, not_or] at kept
      obtain ⟨long, short, outside⟩ := ih kept.2 (change.apply file)
      cases change with
      | clear => exact absurd rfl kept.1
      | write offset values =>
          rw [replay_cons]
          refine ⟨(length_le_apply (Ne.symm kept.1) file).trans long, short.trans ?_, ?_⟩
          · refine reach_le ?_ fun other member =>
              stop_le_reach _ (List.mem_cons_of_mem _ member)
            rw [Change.apply, writeAt_length]
            exact max_le (le_reach _ _) (le_max_left _ _)
          · intro position uncovered
            have apart : ¬(offset ≤ position ∧ position < offset + values.length) :=
              uncovered _ List.mem_cons_self
            rw [outside position fun other member =>
              uncovered other (List.mem_cons_of_mem _ member), Change.apply, writeAt_getD,
              if_neg apart]

/-- All changes made is one of the states a crash may leave. -/
theorem torn_replay (synced : List α) (changes : List (Change α)) :
    Torn synced changes (replay changes synced) := by
  by_cases cleared : .clear ∈ changes
  · exact .inl cleared
  · exact .inr (replay_kept cleared synced)

theorem Torn.append {synced crashed : List α} {changes : List (Change α)}
    (torn : Torn synced changes crashed) (more : List (Change α)) :
    Torn synced (changes ++ more) crashed := by
  rcases torn with cleared | ⟨long, short, outside⟩
  · exact .inl (List.mem_append_left _ cleared)
  · refine .inr ⟨long, short.trans ?_, ?_⟩
    · exact reach_le (le_reach _ _) fun change member =>
        stop_le_reach _ (List.mem_append_left _ member)
    · intro position uncovered
      exact outside position fun change member => uncovered change (List.mem_append_left _ member)

/-- A crash while the changes are made again on a torn file. -/
theorem Torn.trans {synced crashed again : List α} {changes : List (Change α)}
    (torn : Torn synced changes crashed) (next : Torn crashed changes again) :
    Torn synced changes again := by
  rcases torn with cleared | ⟨long, short, outside⟩
  · exact .inl cleared
  rcases next with cleared | ⟨longer, shorter, outsideNext⟩
  · exact .inl cleared
  refine .inr ⟨long.trans longer, shorter.trans ?_, ?_⟩
  · exact reach_le short fun change member => stop_le_reach _ member
  · intro position uncovered
    rw [outsideNext position uncovered, outside position uncovered]

@[simp] theorem window_length (file : List α) (offset length : Nat) :
    (window file offset length).length = length := by
  simp [window]

theorem window_congr {first second : List α} {offset length : Nat}
    (same : ∀ index < length, first.getD (offset + index) 0 = second.getD (offset + index) 0) :
    window first offset length = window second offset length := by
  refine List.map_congr_left fun index member => same index (List.mem_range.mp member)

theorem window_nil (offset length : Nat) : window [] offset length = List.replicate length (0 : α) := by
  simp [window]

theorem window_writeAt_same (file : List α) (offset : Nat) (values : List α) :
    window (writeAt file offset values) offset values.length = values := by
  refine ext_getD (window_length _ _ _) fun position => ?_
  by_cases inside : position < values.length
  · rw [List.getD_eq_getElem _ _ (by rwa [window_length])]
    simp only [window, List.getElem_map, List.getElem_range]
    rw [writeAt_getD, if_pos ⟨by omega, by omega⟩, Nat.add_sub_cancel_left]
  · rw [List.getD_eq_default _ _ (by rw [window_length]; omega), List.getD_eq_default _ _ (by omega)]

theorem window_writeAt_apart (file : List α) {offset length start : Nat} {values : List α}
    (apart : start + length ≤ offset ∨ offset + values.length ≤ start) :
    window (writeAt file offset values) start length = window file start length := by
  refine window_congr fun index inside => ?_
  rw [writeAt_getD, if_neg (by omega)]

theorem window_zeros (size offset length : Nat) :
    window (List.replicate size (0 : α)) offset length = List.replicate length 0 := by
  rw [← window_nil offset length]
  refine window_congr fun index _ => ?_
  by_cases inside : offset + index < size <;> simp [List.getD, inside]

/-- A write inside the file keeps its length. -/
theorem writeAt_length_inside {file : List α} {offset : Nat} {values : List α}
    (inside : offset + values.length ≤ file.length) : (writeAt file offset values).length = file.length := by
  rw [writeAt_length, Change.stop]
  split <;> omega

/-- Windows without a common position have no more values together than the
part of the file they lie in. -/
theorem disjoint_windows_fit (windows : Finset Nat) (start length : Nat → Nat) (low high : Nat)
    (within : ∀ index ∈ windows, 0 < length index →
      low ≤ start index ∧ start index + length index ≤ high)
    (apart : ∀ first ∈ windows, ∀ second ∈ windows, first ≠ second →
      0 < length first → 0 < length second →
      start first + length first ≤ start second ∨ start second + length second ≤ start first) :
    windows.sum length ≤ high - low := by
  have disjoint : (windows : Set Nat).PairwiseDisjoint fun index =>
      Finset.Ico (start index) (start index + length index) := by
    intro first inFirst second inSecond distinct
    refine Finset.disjoint_left.mpr fun position holdsFirst holdsSecond => ?_
    rw [Finset.mem_Ico] at holdsFirst holdsSecond
    have separate := apart first inFirst second inSecond distinct (by omega) (by omega)
    omega
  calc windows.sum length
      = (windows.biUnion fun index => Finset.Ico (start index) (start index + length index)).card := by
        rw [Finset.card_biUnion disjoint]
        exact Finset.sum_congr rfl fun index _ => by rw [Nat.card_Ico, Nat.add_sub_cancel_left]
    _ ≤ (Finset.Ico low high).card := by
        refine Finset.card_le_card fun position covered => ?_
        obtain ⟨index, member, holds⟩ := Finset.mem_biUnion.mp covered
        rw [Finset.mem_Ico] at holds
        have bounds := within index member (by omega)
        exact Finset.mem_Ico.mpr ⟨bounds.1.trans holds.1, holds.2.trans_le bounds.2⟩
    _ = high - low := Nat.card_Ico low high

end Library.ByteFile
