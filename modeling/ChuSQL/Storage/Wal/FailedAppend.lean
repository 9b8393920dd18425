import ChuSQL.Storage.Wal.Recovery

/-! Appends whose write breaks off while the process goes on. A failed call leaves
a prefix of its frames in the file, and the next call writes behind it. -/

set_option autoImplicit false

namespace ChuSQL.Storage.Wal

open Library.Framing (frame whole Incomplete)

variable (serde : Serde)

/-- A call of `append_group` that came to its write: its group, the bytes of it
that reached the file, and whether it returned Ok. -/
structure Attempt where
  group : Group
  reached : Nat
  returned : Bool
deriving DecidableEq

namespace Attempt

/-- The bytes in the file. -/
def bytes (attempt : Attempt) : Bytes :=
  (attempt.group.records.flatMap (encodeRecord serde)).take attempt.reached

/-- The records whose frames are whole. -/
def records (attempt : Attempt) : List Record :=
  whole (frameSize serde) attempt.reached attempt.group.records

/-- Its operations among them. -/
def opRecords (attempt : Attempt) : List Record :=
  (attempt.records serde).filter (·.2 ≠ .commit)

/-- Bytes behind the last whole frame. -/
def rest (attempt : Attempt) : Bytes :=
  (attempt.bytes serde).drop ((attempt.records serde).map (frameSize serde)).sum

/-- The commit frame is in the file. -/
def Marked (attempt : Attempt) : Prop := attempt.reached = attempt.group.size serde

instance (attempt : Attempt) : Decidable (attempt.Marked serde) :=
  inferInstanceAs (Decidable (_ = _))

end Attempt

/-- Runs of `append_group` on a log that was empty: calls that return, calls whose
write fails behind some of its bytes, and calls that give up before their write and
only use up sequence numbers. -/
inductive Attempted : Wal → List Attempt → Prop where
  | start {wal : Wal} (isEmpty : wal.file = []) : Attempted wal []
  | refused {wal : Wal} {attempts : List Attempt} (lsn : Nat) (before : Attempted wal attempts)
      (later : wal.nextLsn ≤ lsn) : Attempted { wal with nextLsn := lsn } attempts
  | returned {wal next : Wal} {attempts : List Attempt} {ops : List WalOp} {commitLsn : Nat}
      (before : Attempted wal attempts) (writable : ∀ op ∈ ops, op.Writable serde ∧ op ≠ .commit)
      (appended : appendGroup serde wal ops = .ok (commitLsn, next)) :
      Attempted next (attempts ++ [⟨⟨commitLsn - ops.length, ops⟩,
        Group.size serde ⟨commitLsn - ops.length, ops⟩, true⟩])
  | failed {wal next : Wal} {attempts : List Attempt} {ops : List WalOp} {commitLsn : Nat}
      (reached : Nat) (before : Attempted wal attempts)
      (writable : ∀ op ∈ ops, op.Writable serde ∧ op ≠ .commit)
      (appended : appendGroup serde wal ops = .ok (commitLsn, next))
      (within : reached ≤ Group.size serde ⟨commitLsn - ops.length, ops⟩) :
      Attempted { next with file := next.file.take (wal.file.length + reached) }
        (attempts ++ [⟨⟨commitLsn - ops.length, ops⟩, reached, false⟩])

/-- What `parse` and then `committed_ops` yield. -/
def committedRecords (wal : Wal) : Except String (List Record) := do
  let scan ← readAll serde wal
  .ok (committedOps scan.records)

/-- The operations of the calls that returned, in order. -/
def returnedRecords (attempts : List Attempt) : List Record :=
  (attempts.filter (·.returned)).flatMap fun attempt => attempt.group.opRecords

/-- The calls up to the first that broke off inside a frame. -/
def readable : List Attempt → List Attempt
  | [] => []
  | attempt :: later =>
      if attempt.rest serde = [] then attempt :: readable later else [attempt]

/-- The calls behind it. -/
def hidden (attempts : List Attempt) : List Attempt :=
  attempts.drop (readable serde attempts).length

/-- What follows the frames of the readable calls: the broken frame and the bytes
of all later calls. -/
def remainder : List Attempt → Bytes
  | [] => []
  | attempt :: later =>
      if attempt.rest serde = [] then remainder later
      else attempt.rest serde ++ later.flatMap (Attempt.bytes serde)

/-- Readable calls up to the last commit frame. -/
def settled (attempts : List Attempt) : List Attempt :=
  (readable serde attempts).rdropWhile fun attempt => ¬attempt.Marked serde

/-- Readable calls behind the last commit frame. -/
def trailing (attempts : List Attempt) : List Attempt :=
  (readable serde attempts).rtakeWhile fun attempt => ¬attempt.Marked serde

/-- No call that returned is hidden by a broken frame, no whole operation frame of
a failed call has a commit frame behind it, and not exactly one operation frame is
left behind the last commit frame. -/
structure Unpoisoned (attempts : List Attempt) : Prop where
  shown : ∀ attempt ∈ hidden serde attempts, attempt.returned = true → attempt.group.ops = []
  apart : ∀ attempt ∈ settled serde attempts, attempt.returned = false →
    attempt.opRecords serde = []
  several : ((trailing serde attempts).flatMap (Attempt.opRecords serde)).length ≠ 1

/-- The length announced by the broken frame ends inside the file: the frame takes
in bytes of later calls. -/
def Swallows (attempts : List Attempt) : Prop := ¬Incomplete (remainder serde attempts)

instance (attempts : List Attempt) : Decidable (Swallows serde attempts) :=
  inferInstanceAs (Decidable (¬_))

variable {serde}

/-- What a run of appends keeps. -/
structure Recorded (serde : Serde) (wal : Wal) (attempts : List Attempt) : Prop where
  file : wal.file = attempts.flatMap (Attempt.bytes serde)
  increasing : attempts.Pairwise fun earlier later => earlier.group.commitLsn < later.group.first
  bounded : ∀ attempt ∈ attempts, attempt.group.commitLsn < 2 ^ 64
  writable : ∀ attempt ∈ attempts, ∀ op ∈ attempt.group.ops, op.Writable serde ∧ op ≠ .commit
  within : ∀ attempt ∈ attempts, attempt.reached ≤ attempt.group.size serde
  whole : ∀ attempt ∈ attempts, attempt.returned = true → attempt.Marked serde
  next : ∀ attempt ∈ attempts, attempt.group.commitLsn < wal.nextLsn

theorem Group.bytes_length (group : Group) :
    (group.records.flatMap (encodeRecord serde)).length = group.size serde := by
  rw [List.length_flatMap]
  exact congrArg (fun size => (group.records.map size).sum) (funext encodeRecord_length)

theorem Attempt.bytes_marked {attempt : Attempt} (marked : attempt.Marked serde) :
    attempt.bytes serde = attempt.group.records.flatMap (encodeRecord serde) := by
  rw [bytes, marked]
  exact List.take_of_length_le (Group.bytes_length _).le

theorem firstLsn_pos {wal : Wal} {lsn : Nat} (first : firstLsn serde wal = .ok lsn) : lsn ≠ 0 := by
  rw [firstLsn] at first
  split at first
  · cases read : parse serde wal.file with
    | error error =>
        simp only [read, bind, Except.bind] at first
        cases first
    | ok result =>
        simp only [read, bind, Except.bind, checkedNext] at first
        split at first
        all_goals
          split at first
          · cases first
            exact Nat.succ_ne_zero _
          · cases first
  · rename_i known
    cases first
    exact known

/-- A call that comes to its write adds its attempt; the file grows by the bytes
that reached it. -/
theorem Recorded.attempt {wal next : Wal} {attempts : List Attempt} {ops : List WalOp}
    {commitLsn : Nat} (recorded : Recorded serde wal attempts)
    (writable : ∀ op ∈ ops, op.Writable serde ∧ op ≠ .commit)
    (appended : appendGroup serde wal ops = .ok (commitLsn, next)) (attempt : Attempt)
    (group : attempt.group = ⟨commitLsn - ops.length, ops⟩)
    (within : attempt.reached ≤ attempt.group.size serde)
    (whole : attempt.returned = true → attempt.Marked serde) :
    next.file.length = wal.file.length + attempt.group.size serde ∧
      Recorded serde { next with file := next.file.take (wal.file.length + attempt.reached) }
        (attempts ++ [attempt]) := by
  obtain ⟨lsn, first, effect⟩ := appendGroup_eq appended
  obtain ⟨rfl, small, rfl⟩ := effect (firstLsn_pos first)
  rw [Nat.add_sub_cancel] at group
  have above : ∀ other ∈ attempts, other.group.commitLsn < lsn := by
    intro other member
    have below := recorded.next other member
    have known : wal.nextLsn ≠ 0 := by omega
    rw [firstLsn, if_neg known] at first
    cases first
    exact below
  have commit : attempt.group.commitLsn = lsn + ops.length := by rw [group]; rfl
  refine ⟨?_, ?_, ?_, ?_, ?_, ?_, ?_, ?_⟩
  · simp only [List.length_append, group, Group.bytes_length]
  · simp only [List.flatMap_append, List.flatMap_singleton, ← recorded.file, Attempt.bytes, group]
    rw [List.take_length_add_append]
  · rw [List.pairwise_append]
    refine ⟨recorded.increasing, List.pairwise_singleton _ _, ?_⟩
    intro other member last isLast
    rw [List.mem_singleton.mp isLast, group]
    exact above other member
  all_goals
    intro other member
    rcases List.mem_append.mp member with before | last
  · exact recorded.bounded other before
  · rw [List.mem_singleton.mp last, commit]
    omega
  · exact recorded.writable other before
  · rw [List.mem_singleton.mp last, group]
    exact writable
  · exact recorded.within other before
  · rw [List.mem_singleton.mp last]
    exact within
  · exact recorded.whole other before
  · rw [List.mem_singleton.mp last]
    exact whole
  · have below := above other before
    simp only
    omega
  · rw [List.mem_singleton.mp last, commit]
    simp only
    omega

theorem Attempted.recorded {wal : Wal} {attempts : List Attempt}
    (attempted : Attempted serde wal attempts) : Recorded serde wal attempts := by
  induction attempted with
  | start isEmpty => exact ⟨isEmpty, .nil, nofun, nofun, nofun, nofun, nofun⟩
  | refused lsn _ later ih =>
      refine ⟨ih.file, ih.increasing, ih.bounded, ih.writable, ih.within, ih.whole, ?_⟩
      intro attempt member
      exact Nat.lt_of_lt_of_le (ih.next attempt member) later
  | @returned wal next attempts ops commitLsn _ writable appended ih =>
      obtain ⟨length, grown⟩ := ih.attempt writable appended
        ⟨⟨commitLsn - ops.length, ops⟩, Group.size serde ⟨commitLsn - ops.length, ops⟩, true⟩ rfl
        (Nat.le_refl _) (fun _ => rfl)
      simp only at length grown
      rwa [← length, List.take_length] at grown
  | @failed wal next attempts ops commitLsn reached _ writable appended within ih =>
      exact (ih.attempt writable appended ⟨⟨commitLsn - ops.length, ops⟩, reached, false⟩ rfl within
        nofun).2

/-! ### What is read back -/

section Read

variable {attempt : Attempt} (bounded : attempt.group.commitLsn < 2 ^ 64)
  (writable : ∀ op ∈ attempt.group.ops, op.Writable serde ∧ op ≠ .commit)

include bounded writable

/-- The bytes are whole frames and a broken one. -/
theorem Attempt.bytes_eq :
    attempt.bytes serde = (attempt.records serde).flatMap (encodeRecord serde) ++
        attempt.rest serde ∧ Incomplete (attempt.rest serde) := by
  obtain ⟨torn, incomplete, split⟩ := Library.Framing.take_frames
    (fun record member => (Group.decodes bounded writable record member).2) attempt.reached
  have bytes : attempt.bytes serde =
      (attempt.records serde).flatMap (encodeRecord serde) ++ torn := split
  have length : ((attempt.records serde).flatMap (encodeRecord serde)).length =
      ((attempt.records serde).map (frameSize serde)).sum := Library.Framing.frames_length _
  have rest : attempt.rest serde = torn := by
    rw [Attempt.rest, bytes, ← length, List.drop_left]
  rw [rest]
  exact ⟨bytes, incomplete⟩

theorem Attempt.decodes : ∀ record ∈ attempt.records serde,
    WalOp.decodeBody serde (record.2.encodeBody serde record.1) = .ok record ∧
      (record.2.encodeBody serde record.1).length < 256 ^ 4 := by
  intro record member
  exact Group.decodes bounded writable record
    ((Library.Framing.whole_leading _ _ _).subset member)

end Read

variable (serde) in
theorem readable_leading (attempts : List Attempt) : readable serde attempts <+: attempts := by
  induction attempts with
  | nil => exact List.prefix_rfl
  | cons attempt later ih =>
      simp only [readable]
      split
      · exact (List.prefix_cons_inj attempt).mpr ih
      · exact (List.prefix_cons_inj attempt).mpr List.nil_prefix

variable (serde) in
theorem readable_hidden (attempts : List Attempt) :
    readable serde attempts ++ hidden serde attempts = attempts :=
  List.prefix_iff_eq_append.mp (readable_leading serde attempts)

section Reading

variable {wal : Wal} {attempts : List Attempt}

/-- The file is the frames of the readable calls, then the remainder. -/
theorem bytes_readable
    (splits : ∀ attempt ∈ attempts, attempt.bytes serde =
      (attempt.records serde).flatMap (encodeRecord serde) ++ attempt.rest serde) :
    attempts.flatMap (Attempt.bytes serde) =
      ((readable serde attempts).flatMap (Attempt.records serde)).flatMap (encodeRecord serde) ++
        remainder serde attempts := by
  induction attempts with
  | nil => rfl
  | cons attempt later ih =>
      have here := splits attempt List.mem_cons_self
      simp only [readable, remainder, List.flatMap_cons]
      split
      · rename_i unbroken
        rw [unbroken, List.append_nil] at here
        rw [List.flatMap_cons, List.flatMap_append, List.append_assoc, here,
          ih fun other member => splits other (List.mem_cons_of_mem _ member)]
      · rw [List.flatMap_singleton, here, List.append_assoc]

theorem Recorded.parse (recorded : Recorded serde wal attempts)
    (incomplete : Incomplete (remainder serde attempts)) :
    (parse serde wal.file).map (·.1.map (·.1)) =
      .ok ((readable serde attempts).flatMap (Attempt.records serde)) := by
  have decodes : ∀ record ∈ (readable serde attempts).flatMap (Attempt.records serde),
      WalOp.decodeBody serde (record.2.encodeBody serde record.1) = .ok record ∧
        (record.2.encodeBody serde record.1).length < 256 ^ 4 := by
    intro record member
    obtain ⟨attempt, among, inside⟩ := List.mem_flatMap.mp member
    have known := (readable_leading serde attempts).subset among
    exact Attempt.decodes (recorded.bounded attempt known) (recorded.writable attempt known) record
      inside
  have file := bytes_readable fun attempt member =>
    (Attempt.bytes_eq (recorded.bounded attempt member) (recorded.writable attempt member)).1
  have read := Library.Framing.scan_frames (fun record member => (decodes record member).1)
    (fun record member => (decodes record member).2) [] (remainder serde attempts)
  simp only [List.nil_append] at read
  rw [Library.Framing.scan_incomplete _ incomplete] at read
  rw [Wal.parse, recorded.file, file]
  refine (congrArg (Except.map _) read).trans ?_
  simp only [Except.map, List.append_nil, Library.Framing.located_items]

/-! ### What is selected -/

theorem Attempt.records_marked {attempt : Attempt} (marked : attempt.Marked serde) :
    attempt.records serde = attempt.group.records := by
  rw [records, marked]
  exact whole_all _ (Nat.le_refl _)

theorem Group.filter_records {group : Group} (ops : ∀ op ∈ group.ops, op ≠ .commit) :
    group.records.filter (·.2 ≠ .commit) = group.opRecords := by
  have kept : group.opRecords.filter (·.2 ≠ .commit) = group.opRecords := by
    rw [List.filter_eq_self]
    intro record member
    exact decide_eq_true (ops record.2 (mem_numbered member).2.2)
  rw [records, List.filter_append, kept]
  simp

theorem Attempt.opRecords_marked {attempt : Attempt} (marked : attempt.Marked serde)
    (ops : ∀ op ∈ attempt.group.ops, op ≠ .commit) :
    attempt.opRecords serde = attempt.group.opRecords := by
  rw [opRecords, records_marked marked, Group.filter_records ops]

theorem Attempt.opRecords_subset {attempt : Attempt} (ops : ∀ op ∈ attempt.group.ops, op ≠ .commit) :
    attempt.opRecords serde ⊆ attempt.group.opRecords := by
  intro record member
  rw [opRecords, List.mem_filter] at member
  rw [← Group.filter_records ops, List.mem_filter]
  exact ⟨(Library.Framing.whole_leading _ _ _).subset member.1, member.2⟩

/-- Without its commit frame a call leaves operations only. -/
theorem Attempt.records_unmarked {attempt : Attempt} (within : attempt.reached ≤ attempt.group.size serde)
    (unmarked : ¬attempt.Marked serde) (ops : ∀ op ∈ attempt.group.ops, op ≠ .commit) :
    attempt.records serde = attempt.opRecords serde := by
  have torn : ¬attempt.group.size serde ≤ attempt.reached := by
    intro complete
    exact unmarked (Nat.le_antisymm within complete)
  rw [opRecords, eq_comm, List.filter_eq_self]
  intro record member
  rw [records, whole_torn torn] at member
  have inside := (Library.Framing.whole_leading _ _ _).subset member
  exact decide_eq_true (ops record.2 (mem_numbered inside).2.2)

theorem rdropWhile_append_rtakeWhile {α : Type} (holds : α → Bool) (values : List α) :
    values.rdropWhile holds ++ values.rtakeWhile holds = values := by
  rw [List.rdropWhile, List.rtakeWhile, ← List.reverse_append, List.takeWhile_append_dropWhile,
    List.reverse_reverse]

theorem opRecords_noCommit (calls : List Attempt) :
    ∀ record ∈ calls.flatMap (Attempt.opRecords serde), record.2 ≠ .commit := by
  intro record member
  obtain ⟨attempt, _, inside⟩ := List.mem_flatMap.mp member
  rw [Attempt.opRecords, List.mem_filter] at inside
  exact of_decide_eq_true inside.2

/-- Reading calls one by one: a commit frame selects all operations so far. -/
theorem foldl_calls {calls : List Attempt}
    (within : ∀ attempt ∈ calls, attempt.reached ≤ attempt.group.size serde)
    (ops : ∀ attempt ∈ calls, ∀ op ∈ attempt.group.ops, op ≠ .commit) :
    (calls.flatMap (Attempt.records serde)).foldl committedStep ([], []) =
      ((calls.rdropWhile fun attempt => ¬attempt.Marked serde).flatMap (Attempt.opRecords serde),
        (calls.rtakeWhile fun attempt => ¬attempt.Marked serde).flatMap
          (Attempt.opRecords serde)) := by
  induction calls using List.reverseRecOn with
  | nil => rfl
  | append_singleton before last ih =>
      have earlier := ih (fun attempt member => within attempt (List.mem_append_left _ member))
        (fun attempt member => ops attempt (List.mem_append_left _ member))
      have lastOps := ops last (by simp)
      rw [List.flatMap_append, List.foldl_append, earlier, List.flatMap_singleton]
      by_cases marked : last.Marked serde
      · have noCommit : ∀ record ∈ last.group.opRecords, record.2 ≠ .commit := by
          intro record member
          exact lastOps record.2 (mem_numbered member).2.2
        have all : (before.rdropWhile fun attempt => ¬attempt.Marked serde) ++
            (before.rtakeWhile fun attempt => ¬attempt.Marked serde) = before :=
          rdropWhile_append_rtakeWhile _ _
        rw [List.rdropWhile_concat_neg _ _ _ (by simpa using marked),
          List.rtakeWhile_concat_neg _ _ _ (by simpa using marked), Attempt.records_marked marked,
          Group.records, List.foldl_append, foldl_committedStep_ops noCommit]
        simp only [List.foldl_cons, List.foldl_nil, committedStep, if_true, List.flatMap_append,
          List.flatMap_singleton, List.flatMap_nil, Attempt.opRecords_marked marked lastOps]
        conv_rhs => rw [← all, List.flatMap_append]
        rw [List.append_assoc]
      · have noCommit : ∀ record ∈ [last].flatMap (Attempt.opRecords serde), record.2 ≠ .commit :=
          opRecords_noCommit [last]
        rw [List.flatMap_singleton] at noCommit
        rw [List.rdropWhile_concat_pos _ _ _ (by simpa using marked),
          List.rtakeWhile_concat_pos _ _ _ (by simpa using marked),
          Attempt.records_unmarked (within last (by simp)) marked lastOps,
          foldl_committedStep_ops noCommit]
        rw [List.flatMap_append, List.flatMap_singleton]

theorem Recorded.committed (recorded : Recorded serde wal attempts)
    (incomplete : Incomplete (remainder serde attempts)) :
    committedRecords serde wal =
      .ok ((settled serde attempts).flatMap (Attempt.opRecords serde) ++
        legacyRecord ((trailing serde attempts).flatMap (Attempt.opRecords serde))) := by
  have parsed := recorded.parse incomplete
  have known : ∀ attempt ∈ readable serde attempts, attempt ∈ attempts := fun _ member =>
    (readable_leading serde attempts).subset member
  have folded : ((readable serde attempts).flatMap (Attempt.records serde)).foldl committedStep
      ([], []) = ((settled serde attempts).flatMap (Attempt.opRecords serde),
        (trailing serde attempts).flatMap (Attempt.opRecords serde)) :=
    foldl_calls (fun attempt member => recorded.within attempt (known attempt member))
    fun attempt member op inside => (recorded.writable attempt (known attempt member) op inside).2
  cases read : Wal.parse serde wal.file with
  | error error => rw [read] at parsed; cases parsed
  | ok result =>
      obtain ⟨frames, goodLen⟩ := result
      rw [read] at parsed
      have records : frames.map (·.1) =
          (readable serde attempts).flatMap (Attempt.records serde) := by
        simpa [Except.map] using parsed
      simp only [committedRecords, readAll, read, bind, Except.bind, records, committedOps, folded,
        Except.ok.injEq]
      rw [legacyRecord]
      split
      · rfl
      · rw [List.append_nil]

/-- A record belongs to one call only. -/
theorem Recorded.same_call (recorded : Recorded serde wal attempts) :
    ∀ first ∈ attempts, ∀ second ∈ attempts, ∀ record ∈ first.group.opRecords,
      record ∈ second.group.opRecords → first = second := by
  have apart : ∀ {first second : Attempt}, first.group.commitLsn < second.group.first →
      ∀ record ∈ first.group.opRecords, record ∉ second.group.opRecords := by
    intro first second order record inFirst inSecond
    obtain ⟨_, high, _⟩ := mem_numbered inFirst
    obtain ⟨low, _, _⟩ := mem_numbered inSecond
    rw [Group.commitLsn] at order
    omega
  refine List.Pairwise.forall_of_forall_of_flip (fun attempt _ record _ _ => rfl)
    (recorded.increasing.imp ?_) (recorded.increasing.imp ?_)
  · intro first second order record inFirst inSecond
    exact absurd inSecond (apart order record inFirst)
  · intro first second order record inSecond inFirst
    exact absurd inSecond (apart order record inFirst)

theorem mem_returnedRecords {record : Record} :
    record ∈ returnedRecords attempts ↔
      ∃ attempt ∈ attempts, attempt.returned = true ∧ record ∈ attempt.group.opRecords := by
  simp only [returnedRecords, List.mem_flatMap, List.mem_filter, and_assoc]

theorem returnedRecords_append (first second : List Attempt) :
    returnedRecords (first ++ second) = returnedRecords first ++ returnedRecords second := by
  simp only [returnedRecords, List.filter_append, List.flatMap_append]

theorem returnedRecords_nil
    (nothing : ∀ attempt ∈ attempts, attempt.returned = true → attempt.group.ops = []) :
    returnedRecords attempts = [] := by
  rw [returnedRecords, List.flatMap_eq_nil_iff]
  intro attempt member
  obtain ⟨among, returned⟩ := List.mem_filter.mp member
  rw [Group.opRecords, nothing attempt among returned]
  rfl

theorem settled_trailing (attempts : List Attempt) :
    settled serde attempts ++ trailing serde attempts = readable serde attempts :=
  rdropWhile_append_rtakeWhile _ _

theorem trailing_unmarked {attempt : Attempt} (member : attempt ∈ trailing serde attempts) :
    ¬attempt.Marked serde := by
  have held := List.mem_rtakeWhile_imp member
  simpa using held

/-- Settled calls of which only the returned ones left operations select just these. -/
theorem settled_returned {calls : List Attempt}
    (whole : ∀ attempt ∈ calls, attempt.returned = true → attempt.Marked serde)
    (ops : ∀ attempt ∈ calls, ∀ op ∈ attempt.group.ops, op ≠ .commit)
    (apart : ∀ attempt ∈ calls, attempt.returned = false → attempt.opRecords serde = []) :
    calls.flatMap (Attempt.opRecords serde) = returnedRecords calls := by
  induction calls with
  | nil => rfl
  | cons attempt later ih =>
      have rest := ih (fun other member => whole other (List.mem_cons_of_mem _ member))
        (fun other member => ops other (List.mem_cons_of_mem _ member))
        (fun other member => apart other (List.mem_cons_of_mem _ member))
      rw [List.flatMap_cons, rest]
      cases returned : attempt.returned with
      | true =>
          have marked := whole attempt List.mem_cons_self returned
          rw [Attempt.opRecords_marked marked (ops attempt List.mem_cons_self)]
          simp only [returnedRecords, List.filter_cons, returned, if_true, List.flatMap_cons]
      | false =>
          rw [apart attempt List.mem_cons_self returned, List.nil_append]
          simp only [returnedRecords, List.filter_cons, returned, Bool.false_eq_true, if_false]

/-- Where no broken frame takes in later bytes, exactly the unpoisoned runs yield
the operations of the calls that returned. -/
theorem Recorded.committed_iff (recorded : Recorded serde wal attempts)
    (incomplete : Incomplete (remainder serde attempts)) :
    committedRecords serde wal = .ok (returnedRecords attempts) ↔ Unpoisoned serde attempts := by
  have settledWithin : ∀ attempt ∈ settled serde attempts, attempt ∈ readable serde attempts := by
    intro attempt member
    rw [← settled_trailing]
    exact List.mem_append_left _ member
  have trailingWithin : ∀ attempt ∈ trailing serde attempts, attempt ∈ readable serde attempts := by
    intro attempt member
    rw [← settled_trailing]
    exact List.mem_append_right _ member
  have known : ∀ attempt ∈ readable serde attempts, attempt ∈ attempts := fun _ member =>
    (readable_leading serde attempts).subset member
  have ops : ∀ attempt ∈ attempts, ∀ op ∈ attempt.group.ops, op ≠ .commit :=
    fun attempt member op inside => (recorded.writable attempt member op inside).2
  rw [recorded.committed incomplete, Except.ok.injEq]
  constructor
  · intro same
    have selected : ∀ attempt ∈ attempts, ∀ record ∈ attempt.group.opRecords,
        record ∈ (settled serde attempts).flatMap (Attempt.opRecords serde) ++
          legacyRecord ((trailing serde attempts).flatMap (Attempt.opRecords serde)) →
        attempt.returned = true := by
      intro attempt member record inside chosen
      rw [same, mem_returnedRecords] at chosen
      obtain ⟨other, among, returned, inOther⟩ := chosen
      rw [recorded.same_call attempt member other among record inside inOther]
      exact returned
    refine ⟨?_, ?_, ?_⟩
    · intro attempt isHidden returned
      cases isOps : attempt.group.ops with
      | nil => rfl
      | cons op rest =>
          have head : (attempt.group.first, op) ∈ attempt.group.opRecords := by
            rw [Group.opRecords, isOps]
            exact List.mem_cons_self
          have among : attempt ∈ attempts := by
            rw [← readable_hidden serde attempts]
            exact List.mem_append_right _ isHidden
          have chosen := mem_returnedRecords.mpr ⟨attempt, among, returned, head⟩
          rw [← same] at chosen
          obtain ⟨other, shown, inOther⟩ : ∃ other ∈ readable serde attempts,
              (attempt.group.first, op) ∈ other.opRecords serde := by
            rcases List.mem_append.mp chosen with before | legacy
            · obtain ⟨other, isSettled, inside⟩ := List.mem_flatMap.mp before
              exact ⟨other, settledWithin other isSettled, inside⟩
            · rw [legacyRecord] at legacy
              split at legacy
              · obtain ⟨other, isTrailing, inside⟩ := List.mem_flatMap.mp legacy
                exact ⟨other, trailingWithin other isTrailing, inside⟩
              · cases legacy
          have increasing := recorded.increasing
          rw [← readable_hidden serde attempts, List.pairwise_append] at increasing
          have order := increasing.2.2 other shown attempt isHidden
          obtain ⟨_, high, _⟩ :=
            mem_numbered (Attempt.opRecords_subset (ops other (known other shown)) inOther)
          rw [Group.commitLsn] at order
          simp only at high
          omega
    · intro attempt isSettled failed
      rw [List.eq_nil_iff_forall_not_mem]
      intro record inside
      have among := known attempt (settledWithin attempt isSettled)
      have returned := selected attempt among record
        (Attempt.opRecords_subset (ops attempt among) inside)
        (List.mem_append_left _ (List.mem_flatMap.mpr ⟨attempt, isSettled, inside⟩))
      rw [failed] at returned
      cases returned
    · intro single
      obtain ⟨record, only⟩ := List.length_eq_one_iff.mp single
      have left : record ∈ (trailing serde attempts).flatMap (Attempt.opRecords serde) := by
        rw [only]
        exact List.mem_singleton_self _
      obtain ⟨attempt, isTrailing, inside⟩ := List.mem_flatMap.mp left
      have among := known attempt (trailingWithin attempt isTrailing)
      have returned := selected attempt among record
        (Attempt.opRecords_subset (ops attempt among) inside)
        (List.mem_append_right _ (by rw [legacyRecord, if_pos single]; exact left))
      exact trailing_unmarked isTrailing (recorded.whole attempt among returned)
  · intro clean
    have split : returnedRecords attempts = returnedRecords (settled serde attempts) ++
        (returnedRecords (trailing serde attempts) ++ returnedRecords (hidden serde attempts)) := by
      rw [← returnedRecords_append, ← returnedRecords_append, ← List.append_assoc, settled_trailing,
        readable_hidden serde]
    have noTrailing : returnedRecords (trailing serde attempts) = [] := by
      refine returnedRecords_nil ?_
      intro attempt isTrailing returned
      have among := known attempt (trailingWithin attempt isTrailing)
      exact absurd (recorded.whole attempt among returned) (trailing_unmarked isTrailing)
    rw [split, noTrailing, returnedRecords_nil clean.shown, legacyRecord, if_neg clean.several]
    simp only [List.append_nil]
    refine settled_returned ?_ ?_ clean.apart
    · intro attempt isSettled
      exact recorded.whole attempt (known attempt (settledWithin attempt isSettled))
    · intro attempt isSettled
      exact ops attempt (known attempt (settledWithin attempt isSettled))

end Reading

/-- A run that is not poisoned, and no broken frame of which takes in later bytes,
yields exactly the operations of the calls that returned; and it yields them only if
it is not poisoned, unless a broken frame happens to decode with the bytes it takes in. -/
theorem failed_append_iff {wal : Wal} {attempts : List Attempt}
    (attempted : Attempted serde wal attempts) :
    (Unpoisoned serde attempts ∧ ¬Swallows serde attempts →
      committedRecords serde wal = .ok (returnedRecords attempts)) ∧
    (committedRecords serde wal = .ok (returnedRecords attempts) →
      Unpoisoned serde attempts ∨ Swallows serde attempts) := by
  have recorded := attempted.recorded
  constructor
  · rintro ⟨clean, apart⟩
    exact (recorded.committed_iff (Decidable.not_not.mp apart)).mpr clean
  · intro same
    by_cases incomplete : Incomplete (remainder serde attempts)
    · exact .inl ((recorded.committed_iff incomplete).mp same)
    · exact .inr incomplete

/-! ### Failed calls in front of others -/

def brokenTail : List Attempt :=
  [⟨⟨1, updateOps⟩, Group.size sampleSerde ⟨1, updateOps⟩, true⟩, ⟨⟨4, updateOps⟩, 10, false⟩]

def brokenWal : Wal where
  file := brokenTail.flatMap (Attempt.bytes sampleSerde)
  nextLsn := 7
  checkpoint := none

/-- A call that broke off inside its first frame leaves the call before it intact. -/
theorem failed_append_broken_tail :
    committedRecords sampleSerde brokenWal = .ok (returnedRecords brokenTail) := by
  have first : Attempted sampleSerde updateWal
      [⟨⟨1, updateOps⟩, Group.size sampleSerde ⟨1, updateOps⟩, true⟩] :=
    @Attempted.returned _ ⟨[], 1, none⟩ _ [] updateOps 3 (.start rfl) updateOps_writable
      (by decide +kernel)
  have broken : Attempted sampleSerde brokenWal brokenTail :=
    @Attempted.failed _ updateWal
      ⟨updateWal.file ++ (Group.mk 4 updateOps).records.flatMap (encodeRecord sampleSerde), 7, none⟩
      _ updateOps 6 10 first updateOps_writable (by decide +kernel) (by decide +kernel)
  exact (failed_append_iff broken).1
    ⟨⟨by decide +kernel, by decide +kernel, by decide +kernel⟩, by decide +kernel⟩

def retried : List Attempt :=
  [⟨⟨1, updateOps⟩, 19, false⟩, ⟨⟨4, updateOps.tail⟩, Group.size sampleSerde ⟨4, updateOps.tail⟩, true⟩]

def retriedWal : Wal where
  file := retried.flatMap (Attempt.bytes sampleSerde)
  nextLsn := 6
  checkpoint := none

/-- A deletion whose call failed takes effect with the insertion of the next call. -/
theorem failed_deletion_committed :
    Attempted sampleSerde retriedWal retried ∧
      committedRecords sampleSerde retriedWal =
        .ok [(1, .deleteKeys "t" [1]), (4, .insertBatch "t" [sampleRow])] ∧
      returnedRecords retried = [(4, .insertBatch "t" [sampleRow])] := by
  have torn : Attempted sampleSerde ⟨updateWal.file.take 19, 4, none⟩ [⟨⟨1, updateOps⟩, 19, false⟩] :=
    @Attempted.failed _ ⟨[], 1, none⟩ updateWal [] updateOps 3 19 (.start rfl) updateOps_writable
      (by decide +kernel) (by decide +kernel)
  have attempted : Attempted sampleSerde retriedWal retried :=
    @Attempted.returned _ ⟨updateWal.file.take 19, 4, none⟩ _ _ updateOps.tail 5 torn
      (fun op member => updateOps_writable op (List.mem_of_mem_tail member)) (by decide +kernel)
  refine ⟨attempted, ?_, by decide +kernel⟩
  rw [attempted.recorded.committed (by decide +kernel)]
  decide +kernel

end ChuSQL.Storage.Wal
