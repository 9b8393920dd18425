import ChuSQL.Storage.Wal.Codec
import ChuSQL.Library.Run

/-! Log sequence numbers over appends, checkpoints, truncation from both ends and
reopening: what the file and the checkpoint keep together is enough to go on above
every number that was returned. -/

set_option autoImplicit false

namespace ChuSQL.Storage

open Library Library.Framing WalOp

namespace WalOp

variable {serde : Serde} {op : WalOp}

/-- The LSN of a frame and whether it is a commit mark are read as written, whatever else is. -/
theorem decodeBody_keys {lsn : Nat} {read : Nat × WalOp} (small : lsn < 2 ^ 64)
    (decoded : decodeBody serde (op.encodeBody serde lsn) = .ok read) :
    read.1 = lsn ∧ (read.2 = .commit ↔ op = .commit) := by
  have lsnRead : ofLittleEndian ((op.encodeBody serde lsn).take 8) = lsn := by
    rw [encodeBody, List.take_left' (littleEndian_length 8 lsn)]
    exact ofLittleEndian_littleEndian (by simpa using small)
  have typeRead : (op.encodeBody serde lsn).getD 8 0 = op.opType := by
    rw [encodeBody, List.getD_eq_getElem?_getD, List.getElem?_append_right (by simp)]
    simp
  unfold decodeBody at decoded
  split at decoded
  · cases decoded
  dsimp only at decoded
  split at decoded
  · cases decoded
  split at decoded
  · cases decoded
  obtain ⟨readOp, decodedOp, same⟩ := bind_eq_ok.mp decoded
  obtain rfl := Except.ok.inj same
  refine ⟨lsnRead, ?_⟩
  rw [← opType_commit, ← opType_commit, (decodeOp_frame decodedOp).2.1, typeRead]

end WalOp

namespace Wal

variable (serde : Serde)

/-- Append one operation without a commit mark. -/
def append (wal : Wal) (op : WalOp) : Except String Wal := do
  let (lsn, wal) ← takeLsn serde wal
  .ok { wal with file := wal.file ++ encode serde op lsn }

/-- Where the first frame above a bound starts. -/
def firstAbove (lsn : Nat) (frames : List (Record × Nat × Nat)) : Option Nat :=
  (frames.find? fun frame => lsn < frame.1.1).map (·.2.1)

/-- Drop the frames up to a bound. -/
def truncateBefore (wal : Wal) (lsn : Nat) : Except String Wal := do
  let (frames, goodLen) ← parse serde wal.file
  match firstAbove lsn frames with
  | none => .ok { wal with file := [] }
  | some 0 => .ok wal
  | some start => .ok { wal with file := (wal.file.take goodLen).drop start }

/-- Drop the frames above a bound. -/
def truncateAfter (wal : Wal) (lsn : Nat) : Except String Wal := do
  let (frames, goodLen) ← parse serde wal.file
  let keep := (firstAbove lsn frames).getD goodLen
  .ok { wal with file := wal.file.take (min keep goodLen) }

/-- Open the log after a crash: an unfinished frame at the end is cut off. -/
def reopenCut (wal : Wal) : Except String Wal := do
  let scan ← readAll serde wal
  .ok { wal with file := wal.file.take scan.goodLen, nextLsn := 0 }

/-- A log in use and the LSNs that `append_group` has returned. -/
structure Session where
  wal : Wal
  returned : List Nat
deriving DecidableEq

/-- A new log. -/
def Session.new : Session := ⟨⟨[], 0, none⟩, []⟩

inductive Call where
  | appendGroup (ops : List WalOp)
  | append (op : WalOp)
  /-- An append that fails behind some operations, before it writes. -/
  | refused (ops : List WalOp)
  /-- An append cut short by a crash behind some bytes; the log is opened again. -/
  | interrupted (ops : List WalOp) (reached : Nat)
  | writeCheckpoint (lsn : Nat)
  | truncateBefore
  | truncateAfter
  | reopen

def perform (session : Session) : Call → Except String Session
  | .appendGroup ops => do
      let (lsn, wal) ← Wal.appendGroup serde session.wal ops
      .ok ⟨wal, session.returned ++ [lsn]⟩
  | .append op => do
      let wal ← Wal.append serde session.wal op
      .ok { session with wal }
  | .refused ops => do
      let (_, wal) ← encodeAll serde session.wal ops
      .ok { session with wal }
  | .interrupted ops reached => do
      let (_, wal) ← Wal.appendGroup serde session.wal ops
      let wal ← reopenCut serde { wal with file := wal.file.take (session.wal.file.length + reached) }
      .ok { session with wal }
  | .writeCheckpoint lsn => .ok { session with wal := { session.wal with checkpoint := some lsn } }
  | .truncateBefore => do
      let wal ← Wal.truncateBefore serde session.wal (session.wal.checkpoint.getD 0)
      .ok { session with wal }
  | .truncateAfter => do
      let wal ← Wal.truncateAfter serde session.wal (session.wal.checkpoint.getD 0)
      .ok { session with wal }
  | .reopen => .ok { session with wal := { session.wal with nextLsn := 0 } }

/-- The records that can be read. -/
def shown (wal : Wal) : List Record :=
  match readAll serde wal with
  | .ok scan => scan.records
  | .error _ => []

/-- No commit mark lies above the checkpoint, as recovery has found when it drops the tail. -/
def Uncommitted (wal : Wal) : Prop :=
  ∀ record ∈ shown serde wal, record.2 = .commit → record.1 ≤ wal.checkpoint.getD 0

/-- The frame of the operation fits its length field. -/
def Framed (op : WalOp) : Prop := (op.encodeBody serde 0).length < 2 ^ 32

/-- A checkpoint does not go back and is not above the numbers of the open log; only an
uncommitted tail is dropped. -/
def Allowed (session : Session) : Call → Prop
  | .appendGroup ops | .refused ops | .interrupted ops _ => ∀ op ∈ ops, Framed serde op
  | .append op => Framed serde op
  | .writeCheckpoint lsn => session.wal.checkpoint.getD 0 ≤ lsn ∧
      (session.wal.nextLsn = 0 ∨ lsn < session.wal.nextLsn)
  | .truncateAfter => Uncommitted serde session.wal
  | .truncateBefore | .reopen => True

/-- What a log in use keeps: its frames in order of their LSNs, a known next LSN above
them and above the checkpoint, and every returned LSN below the checkpoint or still marked
in the file. -/
structure Ordered (session : Session) (records : List Record) : Prop where
  file : session.wal.file = records.flatMap (encodeRecord serde)
  increasing : records.Pairwise fun earlier later => earlier.1 < later.1
  bounded : ∀ record ∈ records, record.1 < 2 ^ 64
  framed : ∀ record ∈ records, (record.2.encodeBody serde record.1).length < 256 ^ 4
  next : session.wal.nextLsn = 0 ∨ session.wal.checkpoint.getD 0 < session.wal.nextLsn ∧
    ∀ record ∈ records, record.1 < session.wal.nextLsn
  returned : ∀ lsn ∈ session.returned,
    lsn ≤ session.wal.checkpoint.getD 0 ∨ (lsn, .commit) ∈ records

/-- Records under increasing LSNs from a first one on, each fit to be written. -/
structure Numbered (lsn : Nat) (added : List Record) : Prop where
  increasing : added.Pairwise fun earlier later => earlier.1 < later.1
  start : ∀ record ∈ added, lsn ≤ record.1
  bounded : ∀ record ∈ added, record.1 < 2 ^ 64
  framed : ∀ record ∈ added, (record.2.encodeBody serde record.1).length < 256 ^ 4

variable {serde} {wal : Wal} {session : Session} {records : List Record}

instance (op : WalOp) : Decidable (Framed serde op) := inferInstanceAs (Decidable (_ < _))

instance : Decidable (Uncommitted serde wal) :=
  inferInstanceAs (Decidable (∀ record ∈ shown serde wal, record.2 = .commit → record.1 ≤ wal.checkpoint.getD 0))

instance : (call : Call) → Decidable (Allowed serde session call)
  | .appendGroup ops | .refused ops | .interrupted ops _ =>
      inferInstanceAs (Decidable (∀ op ∈ ops, Framed serde op))
  | .append op => inferInstanceAs (Decidable (Framed serde op))
  | .writeCheckpoint lsn => inferInstanceAs (Decidable (session.wal.checkpoint.getD 0 ≤ lsn ∧
      (session.wal.nextLsn = 0 ∨ lsn < session.wal.nextLsn)))
  | .truncateAfter => inferInstanceAs (Decidable (Uncommitted serde session.wal))
  | .truncateBefore | .reopen => .isTrue trivial

theorem Framed.body {op : WalOp} (framed : Framed serde op) (lsn : Nat) :
    (op.encodeBody serde lsn).length < 256 ^ 4 := by
  rw [Framed, encodeBody_length] at framed
  rw [encodeBody_length]
  exact framed

theorem commit_framed : Framed serde .commit := commit_writable.body 0

theorem numbered_increasing (lsn : Nat) (ops : List WalOp) :
    (numbered lsn ops).Pairwise fun earlier later => earlier.1 < later.1 := by
  induction ops generalizing lsn with
  | nil => exact .nil
  | cons op rest ih =>
      refine List.pairwise_cons.mpr ⟨fun record member => ?_, ih (lsn + 1)⟩
      exact (mem_numbered member).1

/-- The records of a group whose LSNs are not exhausted. -/
theorem group_numbered {lsn : Nat} {ops : List WalOp} (framed : ∀ op ∈ ops, Framed serde op)
    (bounded : lsn + ops.length < 2 ^ 64) : Numbered serde lsn (Group.mk lsn ops).records := by
  refine ⟨?_, ?_, ?_, ?_⟩
  · refine List.pairwise_append.mpr ⟨numbered_increasing lsn ops, List.pairwise_singleton _ _, ?_⟩
    intro earlier member later last
    rw [List.mem_singleton.mp last]
    exact (mem_numbered member).2.1
  all_goals
    intro record member
    rcases List.mem_append.mp member with op | commit
  · exact (mem_numbered op).1
  · rw [List.mem_singleton.mp commit, Group.commitLsn]
    exact Nat.le_add_right _ _
  · exact (mem_numbered op).2.1.trans bounded
  · rw [List.mem_singleton.mp commit]
    exact bounded
  · exact (framed record.2 (mem_numbered op).2.2).body record.1
  · rw [List.mem_singleton.mp commit]
    exact commit_framed.body _

theorem Numbered.leading {lsn : Nat} {added kept : List Record} (numbers : Numbered serde lsn added)
    (within : kept <+: added) : Numbered serde lsn kept where
  increasing := numbers.increasing.sublist within.sublist
  start := fun record member => numbers.start record (within.subset member)
  bounded := fun record member => numbers.bounded record (within.subset member)
  framed := fun record member => numbers.framed record (within.subset member)

/-! ### What a scan of the file finds -/

/-- What every scan keeps of a record. -/
def keyed (record : Record) : Nat × Bool := (record.1, record.2 = .commit)

theorem keyed_read {record read : Record} (small : record.1 < 2 ^ 64)
    (decoded : decodeBody serde (record.2.encodeBody serde record.1) = .ok read) :
    keyed read = keyed record := by
  obtain ⟨lsn, commit⟩ := decodeBody_keys small decoded
  simp only [keyed, lsn, commit]

/-- A scan of written frames and an unfinished one finds the frames where they are. -/
theorem parse_keys {torn : Bytes} {frames : List (Record × Nat × Nat)} {goodLen : Nat}
    (bounded : ∀ record ∈ records, record.1 < 2 ^ 64)
    (framed : ∀ record ∈ records, (record.2.encodeBody serde record.1).length < 256 ^ 4)
    (incomplete : Incomplete torn)
    (scanned : parse serde (records.flatMap (encodeRecord serde) ++ torn) = .ok (frames, goodLen)) :
    frames.map (fun located => (keyed located.1, located.2)) =
        (located (frameSize serde) 0 records).map (fun located => (keyed located.1, located.2)) ∧
      goodLen = (records.map (frameSize serde)).sum := by
  have found := scan_keys (fun record member read => keyed_read (bounded record member))
    framed [] incomplete scanned
  exact ⟨found.1, found.2.trans (Nat.zero_add _)⟩

theorem firstAbove_keyed (lsn : Nat) {first second : List (Record × Nat × Nat)}
    (same : first.map (fun located => (keyed located.1, located.2)) =
      second.map fun located => (keyed located.1, located.2)) :
    firstAbove lsn first = firstAbove lsn second := by
  have found : ∀ frames : List (Record × Nat × Nat), firstAbove lsn frames =
      ((frames.map fun located => (keyed located.1, located.2)).find? fun located => lsn < located.1.1).map
        (·.2.1) := by
    intro frames
    rw [List.find?_map, Option.map_map]
    rfl
  rw [found, found, same]

theorem sizes_length (records : List Record) :
    (records.flatMap (encodeRecord serde)).length = (records.map (frameSize serde)).sum := by
  rw [List.length_flatMap]
  exact congrArg (fun size => (records.map size).sum) (funext encodeRecord_length)

/-- Frames from the first one above a bound on. -/
def above (lsn : Nat) (records : List Record) : List Record :=
  records.dropWhile fun record => !decide (lsn < record.1)

/-- Frames before the first one above a bound. -/
def upTo (lsn : Nat) (records : List Record) : List Record :=
  records.takeWhile fun record => !decide (lsn < record.1)

theorem upTo_above (lsn : Nat) (records : List Record) : upTo lsn records ++ above lsn records = records :=
  List.takeWhile_append_dropWhile

theorem mem_upTo {lsn : Nat} {record : Record} (member : record ∈ upTo lsn records) : record.1 ≤ lsn := by
  have low := List.mem_takeWhile_imp member
  simpa using low

theorem above_nil {lsn : Nat} (none_above : records.any (lsn < ·.1) = false) : above lsn records = [] := by
  rw [above, List.dropWhile_eq_nil_iff]
  intro record member
  have low := List.any_eq_false.mp none_above record member
  simpa using low

theorem upTo_all {lsn : Nat} (none_above : records.any (lsn < ·.1) = false) : upTo lsn records = records := by
  have split := upTo_above lsn records
  rwa [above_nil none_above, List.append_nil] at split

theorem frames_empty {records : List Record}
    (nothing : (records.flatMap (encodeRecord serde)).length = 0) : records = [] := by
  cases records with
  | nil => rfl
  | cons record rest =>
      rw [sizes_length, List.map_cons, List.sum_cons, frameSize] at nothing
      omega

theorem firstAbove_frames {frames : List (Record × Nat × Nat)} (lsn : Nat)
    (same : frames.map (fun located => (keyed located.1, located.2)) =
      (located (frameSize serde) 0 records).map fun located => (keyed located.1, located.2)) :
    firstAbove lsn frames = if records.any (lsn < ·.1) then
      some ((upTo lsn records).flatMap (encodeRecord serde)).length else none := by
  have found := find_located (frameSize serde) 0 (fun record : Record => decide (lsn < record.1)) records
  rw [Nat.zero_add] at found
  rw [firstAbove_keyed lsn same, sizes_length, upTo, ← found]
  rfl

theorem checkedNext_ok {lsn next : Nat} (chosen : checkedNext lsn = .ok next) :
    next = lsn + 1 ∧ next < 2 ^ 64 := by
  unfold checkedNext at chosen
  split at chosen
  · cases chosen
    exact ⟨rfl, by assumption⟩
  · cases chosen

theorem le_last {lsns : List Nat} {last : Nat} (increasing : lsns.Pairwise (· < ·))
    (highest : lsns.getLast? = some last) : ∀ lsn ∈ lsns, lsn ≤ last := by
  obtain ⟨front, rfl⟩ := List.getLast?_eq_some_iff.mp highest
  rw [List.pairwise_append] at increasing
  intro lsn member
  cases List.mem_append.mp member with
  | inl before => exact Nat.le_of_lt (increasing.2.2 lsn before last (List.mem_singleton_self _))
  | inr same => exact Nat.le_of_eq (List.mem_singleton.mp same)

/-- A log opened after a crash holds its whole frames. -/
theorem reopenCut_frames {torn : Bytes} {next : Wal} (bounded : ∀ record ∈ records, record.1 < 2 ^ 64)
    (framed : ∀ record ∈ records, (record.2.encodeBody serde record.1).length < 256 ^ 4)
    (incomplete : Incomplete torn) (file : wal.file = records.flatMap (encodeRecord serde) ++ torn)
    (opened : reopenCut serde wal = .ok next) :
    next = { wal with nextLsn := 0, file := records.flatMap (encodeRecord serde) } := by
  obtain ⟨scan, scanned, same⟩ := bind_eq_ok.mp opened
  obtain ⟨result, parsed, counted⟩ := bind_eq_ok.mp scanned
  obtain ⟨frames, goodLen⟩ := result
  obtain rfl := Except.ok.inj counted
  obtain rfl := Except.ok.inj same
  rw [file] at parsed
  obtain ⟨_, rfl⟩ := parse_keys bounded framed incomplete parsed
  simp only [file, ← sizes_length, List.take_left]

theorem takeLsn_ok {lsn : Nat} {next : Wal} (taken : takeLsn serde wal = .ok (lsn, next)) :
    firstLsn serde wal = .ok lsn ∧ lsn < 2 ^ 64 ∧ next = { wal with nextLsn := lsn + 1 } := by
  obtain ⟨first, found, counted⟩ := bind_eq_ok.mp taken
  obtain ⟨after, chosen, same⟩ := bind_eq_ok.mp counted
  cases same
  obtain ⟨rfl, small⟩ := checkedNext_ok chosen
  exact ⟨found, by omega, rfl⟩

/-- Encoding operations uses up LSNs and nothing else. -/
theorem encodeAll_ok {ops : List WalOp} {bytes : Bytes} {next : Wal}
    (encoded : encodeAll serde wal ops = .ok (bytes, next)) :
    next = wal ∨ ∃ lsn count, firstLsn serde wal = .ok lsn ∧ next = { wal with nextLsn := lsn + count } := by
  cases ops with
  | nil =>
      cases encoded
      exact .inl rfl
  | cons op rest =>
      obtain ⟨result, taken, later⟩ := bind_eq_ok.mp encoded
      obtain ⟨lsn, counted⟩ := result
      obtain ⟨result, others, same⟩ := bind_eq_ok.mp later
      obtain ⟨first, _, rfl⟩ := takeLsn_ok taken
      obtain ⟨frames, after⟩ := result
      cases same
      obtain ⟨_, rfl⟩ := encodeAll_eq (Nat.succ_ne_zero lsn) others
      exact .inr ⟨lsn, 1 + rest.length, first, by simp only [Nat.add_assoc]⟩

theorem nothing_numbered (lsn : Nat) : Numbered serde lsn [] where
  increasing := .nil
  start := fun _ absent => by cases absent
  bounded := fun _ absent => by cases absent
  framed := fun _ absent => by cases absent

theorem op_numbered {lsn : Nat} {op : WalOp} (framed : Framed serde op) (bounded : lsn < 2 ^ 64) :
    Numbered serde lsn [(lsn, op)] := by
  refine ⟨List.pairwise_singleton _ _, ?_, ?_, ?_⟩
  all_goals
    intro record member
    rw [List.mem_singleton.mp member]
  · exact bounded
  · exact framed.body lsn

namespace Ordered

theorem sublist {kept : List Record} (ordered : Ordered serde session records)
    (within : List.Sublist kept records)
    (marked : ∀ lsn, (lsn, .commit) ∈ records → lsn ≤ session.wal.checkpoint.getD 0 ∨ (lsn, .commit) ∈ kept) :
    Ordered serde { session with wal := { session.wal with file := kept.flatMap (encodeRecord serde) } } kept where
  file := rfl
  increasing := ordered.increasing.sublist within
  bounded := fun record member => ordered.bounded record (within.subset member)
  framed := fun record member => ordered.framed record (within.subset member)
  next := ordered.next.imp_right fun known => ⟨known.1, fun record member => known.2 record (within.subset member)⟩
  returned := fun lsn member => (ordered.returned lsn member).elim .inl (marked lsn)

theorem parse {frames : List (Record × Nat × Nat)} {goodLen : Nat} (ordered : Ordered serde session records)
    (scanned : Wal.parse serde session.wal.file = .ok (frames, goodLen)) :
    frames.map (fun located => (keyed located.1, located.2)) =
        (located (frameSize serde) 0 records).map (fun located => (keyed located.1, located.2)) ∧
      goodLen = session.wal.file.length := by
  rw [ordered.file, sizes_length]
  refine parse_keys ordered.bounded ordered.framed incomplete_nil ?_
  rw [List.append_nil, ← ordered.file]
  exact scanned

theorem lsns {frames : List (Record × Nat × Nat)} {goodLen : Nat} (ordered : Ordered serde session records)
    (scanned : Wal.parse serde session.wal.file = .ok (frames, goodLen)) :
    frames.map (·.1.1) = records.map (·.1) := by
  have same := congrArg (List.map (·.1.1)) (ordered.parse scanned).1
  have items := congrArg (List.map (·.1)) (located_items (frameSize serde) 0 records)
  rw [List.map_map, List.map_map] at same
  rw [List.map_map] at items
  exact same.trans items

theorem file_split (ordered : Ordered serde session records) (lsn : Nat) :
    session.wal.file = (upTo lsn records).flatMap (encodeRecord serde) ++
      (above lsn records).flatMap (encodeRecord serde) := by
  rw [← List.flatMap_append, upTo_above, ordered.file]

/-- The frames that are kept when the file is truncated before a bound. -/
theorem truncateBefore_file {lsn : Nat} {next : Wal} (ordered : Ordered serde session records)
    (truncated : truncateBefore serde session.wal lsn = .ok next) :
    next = { session.wal with file := (above lsn records).flatMap (encodeRecord serde) } := by
  obtain ⟨result, scanned, kept⟩ := bind_eq_ok.mp truncated
  obtain ⟨frames, goodLen⟩ := result
  obtain ⟨same, rfl⟩ := ordered.parse scanned
  have file := ordered.file_split lsn
  dsimp only at kept
  rw [firstAbove_frames lsn same] at kept
  cases some_above : records.any (lsn < ·.1) with
  | false =>
      rw [some_above] at kept
      cases kept
      rw [above_nil some_above]
      rfl
  | true =>
      rw [some_above, if_pos rfl] at kept
      cases start : ((upTo lsn records).flatMap (encodeRecord serde)).length with
      | zero =>
          rw [start] at kept
          cases kept
          rw [frames_empty start] at file
          cases opened : session.wal with
          | mk bytes nextLsn checkpoint =>
              rw [opened] at file
              cases file
              rfl
      | succ count =>
          rw [start] at kept
          cases kept
          rw [List.take_length, ← start, file, List.drop_left]

/-- The frames that are kept when the file is truncated after a bound. -/
theorem truncateAfter_file {lsn : Nat} {next : Wal} (ordered : Ordered serde session records)
    (truncated : truncateAfter serde session.wal lsn = .ok next) :
    next = { session.wal with file := (upTo lsn records).flatMap (encodeRecord serde) } := by
  obtain ⟨result, scanned, kept⟩ := bind_eq_ok.mp truncated
  obtain ⟨frames, goodLen⟩ := result
  obtain ⟨same, rfl⟩ := ordered.parse scanned
  cases kept
  rw [firstAbove_frames lsn same]
  cases some_above : records.any (lsn < ·.1) with
  | false =>
      rw [upTo_all some_above, ← ordered.file]
      simp
  | true =>
      have file := ordered.file_split lsn
      have within : ((upTo lsn records).flatMap (encodeRecord serde)).length ≤ session.wal.file.length := by
        rw [file, List.length_append]
        exact Nat.le_add_right _ _
      rw [if_pos rfl, Option.getD_some, Nat.min_eq_left within]
      congr 1
      rw [file, List.take_left]

/-- The next LSN is above every frame and above the checkpoint. -/
theorem firstLsn_above {lsn : Nat} (ordered : Ordered serde session records)
    (first : firstLsn serde session.wal = .ok lsn) :
    0 < lsn ∧ session.wal.checkpoint.getD 0 < lsn ∧ ∀ record ∈ records, record.1 < lsn := by
  rw [firstLsn] at first
  by_cases unknown : session.wal.nextLsn = 0
  · rw [if_pos unknown] at first
    obtain ⟨result, scanned, chosen⟩ := bind_eq_ok.mp first
    obtain ⟨frames, goodLen⟩ := result
    have same := ordered.lsns scanned
    dsimp only at chosen
    cases last : frames.getLast? with
    | none =>
        rw [last] at chosen
        rw [List.getLast?_eq_none_iff.mp last] at same
        obtain rfl := List.map_eq_nil_iff.mp same.symm
        obtain ⟨rfl, _⟩ := checkedNext_ok chosen
        exact ⟨Nat.succ_pos _, Nat.lt_succ_self _, fun _ member => by cases member⟩
    | some frame =>
        rw [last] at chosen
        obtain ⟨rfl, _⟩ := checkedNext_ok chosen
        have highest : (records.map (·.1)).getLast? = some frame.1.1 := by
          rw [← same, List.getLast?_map, last]
          rfl
        refine ⟨Nat.succ_pos _, by omega, fun record member => ?_⟩
        have below := le_last (List.pairwise_map.mpr ordered.increasing) highest record.1
          (List.mem_map_of_mem member)
        omega
  · rw [if_neg unknown] at first
    cases first
    exact ⟨Nat.pos_of_ne_zero unknown, ordered.next.resolve_left unknown⟩

theorem above_returned {lsn : Nat} (ordered : Ordered serde session records)
    (first : firstLsn serde session.wal = .ok lsn) : ∀ earlier ∈ session.returned, earlier < lsn := by
  obtain ⟨_, checkpoint, frames⟩ := ordered.firstLsn_above first
  intro earlier member
  cases ordered.returned earlier member with
  | inl below => exact Nat.lt_of_le_of_lt below checkpoint
  | inr inside => exact frames _ inside

/-- Frames under new LSNs go to the end of the file. -/
theorem extend {next : Session} {added : List Record} {lsn : Nat} (ordered : Ordered serde session records)
    (first : firstLsn serde session.wal = .ok lsn) (numbers : Numbered serde lsn added)
    (file : next.wal.file = session.wal.file ++ added.flatMap (encodeRecord serde))
    (checkpoint : next.wal.checkpoint = session.wal.checkpoint)
    (known : next.wal.nextLsn = 0 ∨ lsn ≤ next.wal.nextLsn ∧ ∀ record ∈ added, record.1 < next.wal.nextLsn)
    (returned : ∀ lsn ∈ next.returned, lsn ∈ session.returned ∨ (lsn, .commit) ∈ added) :
    Ordered serde next (records ++ added) := by
  obtain ⟨_, marked, frames⟩ := ordered.firstLsn_above first
  refine ⟨?_, ?_, ?_, ?_, ?_, ?_⟩
  · rw [file, ordered.file, List.flatMap_append]
  · rw [List.pairwise_append]
    refine ⟨ordered.increasing, numbers.increasing, fun earlier old later new => ?_⟩
    exact Nat.lt_of_lt_of_le (frames earlier old) (numbers.start later new)
  · intro record member
    cases List.mem_append.mp member with
    | inl old => exact ordered.bounded record old
    | inr new => exact numbers.bounded record new
  · intro record member
    cases List.mem_append.mp member with
    | inl old => exact ordered.framed record old
    | inr new => exact numbers.framed record new
  · rw [checkpoint]
    refine known.imp_right fun reached => ⟨Nat.lt_of_lt_of_le marked reached.1, fun record member => ?_⟩
    cases List.mem_append.mp member with
    | inl old => exact Nat.lt_of_lt_of_le (frames record old) reached.1
    | inr new => exact reached.2 record new
  · intro earlier member
    rw [checkpoint]
    cases returned earlier member with
    | inl old => exact (ordered.returned earlier old).imp_right (List.mem_append_left added)
    | inr new => exact .inr (List.mem_append_right records new)

theorem appendGroup {ops : List WalOp} {commitLsn : Nat} {next : Wal}
    (ordered : Ordered serde session records) (framed : ∀ op ∈ ops, Framed serde op)
    (appended : Wal.appendGroup serde session.wal ops = .ok (commitLsn, next)) :
    ∃ lsn, firstLsn serde session.wal = .ok lsn ∧ lsn ≤ commitLsn ∧
      Numbered serde lsn (Group.mk lsn ops).records ∧
      (∀ record ∈ (Group.mk lsn ops).records, record.1 ≤ commitLsn) ∧
      (commitLsn, .commit) ∈ (Group.mk lsn ops).records ∧
      next = { session.wal with
        nextLsn := commitLsn + 1
        file := session.wal.file ++ (Group.mk lsn ops).records.flatMap (encodeRecord serde) } := by
  obtain ⟨lsn, first, effect⟩ := appendGroup_eq appended
  obtain ⟨rfl, small, same⟩ := effect (Nat.ne_of_gt (ordered.firstLsn_above first).1)
  refine ⟨lsn, first, Nat.le_add_right _ _, group_numbered framed (by omega), fun record member => ?_, ?_, same⟩
  · rcases List.mem_append.mp member with op | commit
    · exact Nat.le_of_lt (mem_numbered op).2.1
    · rw [List.mem_singleton.mp commit]
      exact Nat.le_refl _
  · exact List.mem_append_right _ (List.mem_singleton_self _)

/-- What a cut append leaves when the log is opened again: whole frames of the group. -/
theorem interrupted_file {ops : List WalOp} {commitLsn reached : Nat} {written next : Wal}
    (ordered : Ordered serde session records) (framed : ∀ op ∈ ops, Framed serde op)
    (appended : Wal.appendGroup serde session.wal ops = .ok (commitLsn, written))
    (opened : reopenCut serde { written with
      file := written.file.take (session.wal.file.length + reached) } = .ok next) :
    ∃ lsn added, firstLsn serde session.wal = .ok lsn ∧ Numbered serde lsn added ∧
      next = { session.wal with
        nextLsn := 0
        file := session.wal.file ++ added.flatMap (encodeRecord serde) } := by
  obtain ⟨lsn, first, _, numbers, _, _, rfl⟩ := ordered.appendGroup framed appended
  obtain ⟨torn, incomplete, cut⟩ := @take_frames _
    (fun record : Record => record.2.encodeBody serde record.1) _ numbers.framed reached
  have leading := whole_leading (frameSize serde) reached (Group.mk lsn ops).records
  have kept := numbers.leading leading
  refine ⟨lsn, _, first, kept, ?_⟩
  have all : Ordered serde ⟨⟨_, 0, session.wal.checkpoint⟩, session.returned⟩ _ :=
    ordered.extend first kept rfl rfl (.inl rfl) (fun lsn member => .inl member)
  have file : (session.wal.file ++ (Group.mk lsn ops).records.flatMap (encodeRecord serde)).take
      (session.wal.file.length + reached) =
      (records ++ whole (frameSize serde) reached (Group.mk lsn ops).records).flatMap (encodeRecord serde) ++
        torn := by
    rw [List.take_length_add_append, List.flatMap_append, ordered.file, List.append_assoc]
    exact congrArg _ cut
  rw [reopenCut_frames all.bounded all.framed incomplete file opened, List.flatMap_append, ordered.file]

/-- The commit marks in the file are among the records that can be read. -/
theorem uncommitted {frames : List (Record × Nat × Nat) × Nat} {lsn : Nat}
    (ordered : Ordered serde session records) (allowed : Uncommitted serde session.wal)
    (scanned : Wal.parse serde session.wal.file = .ok frames) (member : (lsn, .commit) ∈ records) :
    lsn ≤ session.wal.checkpoint.getD 0 := by
  have kept := congrArg (List.map (·.1)) (ordered.parse scanned).1
  have items := congrArg (List.map keyed) (located_items (frameSize serde) 0 records)
  rw [List.map_map, List.map_map] at kept
  rw [List.map_map] at items
  have inside : keyed (lsn, .commit) ∈ frames.1.map fun located => keyed located.1 := by
    refine (kept.trans items).symm ▸ ?_
    exact List.mem_map_of_mem member
  obtain ⟨located, among, same⟩ := List.mem_map.mp inside
  obtain ⟨sameLsn, sameMark⟩ := Prod.mk.inj same
  have read : shown serde session.wal = frames.1.map (·.1) := by
    simp only [shown, readAll, scanned, bind, Except.bind]
  have low := allowed located.1 (read ▸ List.mem_map_of_mem among) (by simpa using sameMark)
  rwa [show located.1.1 = lsn from sameLsn] at low

/-- Every allowed call keeps a log in use. -/
theorem step {call : Call} {next : Session} (ordered : Ordered serde session records)
    (allowed : Allowed serde session call) (performed : perform serde session call = .ok next) :
    ∃ records, Ordered serde next records := by
  cases call with
  | appendGroup ops =>
      obtain ⟨result, appended, same⟩ := bind_eq_ok.mp performed
      obtain ⟨commitLsn, written⟩ := result
      obtain rfl := Except.ok.inj same
      obtain ⟨lsn, first, low, numbers, high, marked, rfl⟩ := ordered.appendGroup allowed appended
      refine ⟨_, ordered.extend first numbers rfl rfl (.inr ⟨by dsimp only; omega, fun record member => ?_⟩)
        fun earlier member => ?_⟩
      · exact Nat.lt_succ_of_le (high record member)
      · cases List.mem_append.mp member with
        | inl old => exact .inl old
        | inr new =>
            rw [List.mem_singleton.mp new]
            exact .inr marked
  | append op =>
      obtain ⟨written, appended, same⟩ := bind_eq_ok.mp performed
      obtain rfl := Except.ok.inj same
      obtain ⟨result, taken, same⟩ := bind_eq_ok.mp appended
      obtain ⟨lsn, counted⟩ := result
      obtain rfl := Except.ok.inj same
      obtain ⟨first, small, rfl⟩ := takeLsn_ok taken
      refine ⟨_, ordered.extend first (op_numbered allowed small) ?_ rfl
        (.inr ⟨Nat.le_succ lsn, fun record member => ?_⟩) fun earlier member => .inl member⟩
      · simp [encodeRecord]
      · rw [List.mem_singleton.mp member]
        exact Nat.lt_succ_self lsn
  | refused ops =>
      obtain ⟨result, encoded, same⟩ := bind_eq_ok.mp performed
      obtain ⟨bytes, counted⟩ := result
      obtain rfl := Except.ok.inj same
      cases encodeAll_ok encoded with
      | inl nothing =>
          rw [nothing]
          exact ⟨records, ordered⟩
      | inr taken =>
          obtain ⟨lsn, count, first, rfl⟩ := taken
          refine ⟨_, ordered.extend first (nothing_numbered lsn) ?_ rfl (.inr ⟨by dsimp only; omega, fun _ absent => ?_⟩)
            fun earlier member => .inl member⟩
          · simp
          · cases absent
  | interrupted ops reached =>
      obtain ⟨result, appended, later⟩ := bind_eq_ok.mp performed
      obtain ⟨commitLsn, written⟩ := result
      obtain ⟨opened, reopened, same⟩ := bind_eq_ok.mp later
      obtain rfl := Except.ok.inj same
      obtain ⟨lsn, added, first, numbers, rfl⟩ := ordered.interrupted_file allowed appended reopened
      exact ⟨_, ordered.extend first numbers rfl rfl (.inl rfl) fun earlier member => .inl member⟩
  | writeCheckpoint lsn =>
      obtain rfl := Except.ok.inj performed
      obtain ⟨forward, below⟩ := allowed
      refine ⟨records, ordered.file, ordered.increasing, ordered.bounded, ordered.framed, ?_, ?_⟩
      · cases below with
        | inl unknown => exact .inl unknown
        | inr below => exact ordered.next.imp_right fun known => ⟨below, known.2⟩
      · intro earlier member
        exact (ordered.returned earlier member).imp_left fun low => Nat.le_trans low forward
  | truncateBefore =>
      obtain ⟨kept, truncated, same⟩ := bind_eq_ok.mp performed
      obtain rfl := Except.ok.inj same
      rw [ordered.truncateBefore_file truncated]
      refine ⟨_, ordered.sublist (List.dropWhile_sublist _) fun lsn member => ?_⟩
      rw [← upTo_above (session.wal.checkpoint.getD 0) records] at member
      exact (List.mem_append.mp member).imp_left mem_upTo
  | truncateAfter =>
      obtain ⟨kept, truncated, same⟩ := bind_eq_ok.mp performed
      obtain rfl := Except.ok.inj same
      rw [ordered.truncateAfter_file truncated]
      obtain ⟨result, scanned, _⟩ := bind_eq_ok.mp truncated
      exact ⟨_, ordered.sublist (List.takeWhile_sublist _) fun lsn member =>
        .inl (ordered.uncommitted allowed scanned member)⟩
  | reopen =>
      obtain rfl := Except.ok.inj performed
      exact ⟨records, ordered.file, ordered.increasing, ordered.bounded, ordered.framed, .inl rfl, ordered.returned⟩

end Ordered

theorem new_ordered : Ordered serde Session.new [] where
  file := rfl
  increasing := .nil
  bounded := fun _ absent => by cases absent
  framed := fun _ absent => by cases absent
  next := .inl rfl
  returned := fun _ absent => by cases absent

/-- A run of allowed calls keeps a log in use. -/
theorem run_ordered {calls : List Call} {last : Session} (ordered : Ordered serde session records)
    (allowed : Meets (perform serde) (Allowed serde) session calls)
    (ran : run (perform serde) session calls = .ok last) : ∃ records, Ordered serde last records := by
  induction calls generalizing session records with
  | nil =>
      cases ran
      exact ⟨records, ordered⟩
  | cons call rest ih =>
      obtain ⟨next, performed, later⟩ := bind_eq_ok.mp ran
      obtain ⟨here, others⟩ := allowed
      rw [performed] at others
      obtain ⟨kept, ordered⟩ := ordered.step here performed
      exact ih ordered others later

/-- However the log was used, the next group is committed under an LSN above every returned
one and above the checkpoint, and the frames in the file are in order of their LSNs. -/
theorem lsns_never_return {calls : List Call} {last : Session}
    (allowed : Meets (perform serde) (Allowed serde) Session.new calls)
    (ran : run (perform serde) Session.new calls = .ok last) :
    (∀ ops commitLsn next, Wal.appendGroup serde last.wal ops = .ok (commitLsn, next) →
      (∀ earlier ∈ last.returned, earlier < commitLsn) ∧ last.wal.checkpoint.getD 0 < commitLsn) ∧
    (∃ records : List Record, last.wal.file = records.flatMap (encodeRecord serde) ∧
      records.Pairwise fun earlier later => earlier.1 < later.1) ∧
    ∀ frames goodLen, parse serde last.wal.file = .ok (frames, goodLen) →
      (frames.map (·.1.1)).Pairwise (· < ·) := by
  obtain ⟨records, ordered⟩ := run_ordered new_ordered allowed ran
  refine ⟨fun ops commitLsn next appended => ?_, ⟨records, ordered.file, ordered.increasing⟩,
    fun frames goodLen scanned => ?_⟩
  · obtain ⟨lsn, first, effect⟩ := appendGroup_eq appended
    obtain ⟨positive, marked, _⟩ := ordered.firstLsn_above first
    have low : lsn ≤ commitLsn := by
      rw [(effect (Nat.ne_of_gt positive)).1]
      exact Nat.le_add_right _ _
    exact ⟨fun earlier member => Nat.lt_of_lt_of_le (ordered.above_returned first earlier member) low,
      Nat.lt_of_lt_of_le marked low⟩
  · rw [ordered.lsns scanned]
    exact List.pairwise_map.mpr ordered.increasing

/-- A checkpoint, a torn group whose tail is dropped, a lone operation and a reopening. -/
def mixedCalls : List Call :=
  [.appendGroup [.dropTable "a"], .writeCheckpoint 2, .truncateBefore, .refused [.dropTable "b"],
    .interrupted [.dropTable "c", .dropTable "d"] 30, .truncateAfter, .append (.dropTable "e"), .reopen,
    .appendGroup [.dropTable "f"]]

def mixedSession : Session := ((run (perform sampleSerde) Session.new mixedCalls).toOption).getD Session.new

theorem lsns_never_return_mixed : mixedSession.returned = [2, 5] ∧ 5 < 6 ∧
    mixedSession.wal.checkpoint.getD 0 < 6 := by
  have ran : run (perform sampleSerde) Session.new mixedCalls = .ok mixedSession := by decide +kernel
  have allowed : Meets (perform sampleSerde) (Allowed sampleSerde) Session.new mixedCalls := by decide +kernel
  have returned : mixedSession.returned = [2, 5] := by decide +kernel
  have appended : Wal.appendGroup sampleSerde mixedSession.wal [] = .ok (6, { mixedSession.wal with
      nextLsn := 7
      file := mixedSession.wal.file ++ encode sampleSerde .commit 6 }) := by decide +kernel
  obtain ⟨earlier, checkpoint⟩ := (lsns_never_return allowed ran).1 [] 6 _ appended
  exact ⟨returned, earlier 5 (by rw [returned]; decide), checkpoint⟩

/-- Committed groups above the checkpoint can be truncated, and a checkpoint can name an LSN
that a crash has lost: the LSN 4 is returned twice, and 2 at a checkpoint of 2. -/
theorem lsns_return :
    (run (perform sampleSerde) Session.new [.appendGroup [.dropTable "a"], .writeCheckpoint 2,
      .appendGroup [.dropTable "b"], .truncateAfter, .reopen, .appendGroup [.dropTable "c"]]).map (·.returned) =
      .ok [2, 4, 4] ∧
    (run (perform sampleSerde) Session.new [.interrupted [.dropTable "a"] 0, .appendGroup [],
      .writeCheckpoint 2, .appendGroup []]).map (fun last => (last.returned, last.wal.checkpoint)) =
      .ok ([1, 2], some 2) := by
  decide +kernel

end Wal

end ChuSQL.Storage
