import ChuSQL.Storage.Wal.RoundTrip

/-! The log file: groups of operations, each group followed by its commit mark,
under log sequence numbers that never go back. -/

set_option autoImplicit false

namespace ChuSQL.Storage

open Library.Framing (frame scan whole)

/-- An operation under its log sequence number. -/
abbrev Record := Nat × WalOp

/-- The log. A next LSN of zero is not known yet and is read off the file. -/
structure Wal where
  file : Bytes
  nextLsn : Nat
  checkpoint : Option Nat
deriving DecidableEq

namespace Wal

variable (serde : Serde)

/-- An operation as frame bytes. -/
def encode (op : WalOp) (lsn : Nat) : Bytes := frame (op.encodeBody serde lsn)

/-- The frames of a file with their offsets, and the length of the good part. -/
def parse (file : Bytes) : Except String (List (Record × Nat × Nat) × Nat) :=
  scan (WalOp.decodeBody serde) file 0

structure WalScan where
  records : List Record
  goodLen : Nat

/-- All records; a torn tail is left out. -/
def readAll (wal : Wal) : Except String WalScan := do
  let (frames, goodLen) ← parse serde wal.file
  .ok ⟨frames.map (·.1), goodLen⟩

def checkedNext (lsn : Nat) : Except String Nat :=
  if lsn + 1 < 2 ^ 64 then .ok (lsn + 1) else .error "WAL LSN exhausted"

/-- The first LSN continues the larger of the checkpoint and the end of the file. -/
def firstLsn (wal : Wal) : Except String Nat :=
  if wal.nextLsn = 0 then do
    let (frames, _) ← parse serde wal.file
    let base := wal.checkpoint.getD 0
    match frames.getLast? with
    | some (record, _) => checkedNext (max base record.1)
    | none => checkedNext base
  else .ok wal.nextLsn

def takeLsn (wal : Wal) : Except String (Nat × Wal) := do
  let lsn ← firstLsn serde wal
  let next ← checkedNext lsn
  .ok (lsn, { wal with nextLsn := next })

/-- The frames of operations under consecutive LSNs. -/
def encodeAll : Wal → List WalOp → Except String (Bytes × Wal)
  | wal, [] => .ok ([], wal)
  | wal, op :: rest => do
      let (lsn, wal) ← takeLsn serde wal
      let (frames, wal) ← encodeAll wal rest
      .ok (encode serde op lsn ++ frames, wal)

/-- Append operations and a commit mark in one write. -/
def appendGroup (wal : Wal) (ops : List WalOp) : Except String (Nat × Wal) := do
  let (frames, wal) ← encodeAll serde wal ops
  let (commitLsn, wal) ← takeLsn serde wal
  let frames := frames ++ encode serde .commit commitLsn
  .ok (commitLsn, { wal with file := wal.file ++ frames })

/-- Operations under consecutive LSNs. -/
def numbered : Nat → List WalOp → List Record
  | _, [] => []
  | lsn, op :: rest => (lsn, op) :: numbered (lsn + 1) rest

/-- A group as it lies in the log. -/
structure Group where
  first : Nat
  ops : List WalOp
deriving DecidableEq

namespace Group

def commitLsn (group : Group) : Nat := group.first + group.ops.length
def opRecords (group : Group) : List Record := numbered group.first group.ops
def records (group : Group) : List Record := group.opRecords ++ [(group.commitLsn, .commit)]

end Group

/-- Bytes that a record takes in the file. -/
def frameSize (record : Record) : Nat := 4 + (record.2.encodeBody serde record.1).length

def Group.size (group : Group) : Nat := (group.records.map (frameSize serde)).sum

def encodeRecord (record : Record) : Bytes := encode serde record.2 record.1

/-- A log written by appending groups to an empty file, the process restarting
any number of times in between. -/
inductive Written : Wal → List Group → Prop where
  | empty {wal : Wal} (isEmpty : wal.file = []) : Written wal []
  | append {wal next : Wal} {log : List Group} {ops : List WalOp} {commitLsn : Nat}
      (before : Written wal log) (writable : ∀ op ∈ ops, op.Writable serde ∧ op ≠ .commit)
      (appended : appendGroup serde wal ops = .ok (commitLsn, next)) :
      Written next (log ++ [⟨commitLsn - ops.length, ops⟩])
  | restart {wal : Wal} {log : List Group} (before : Written wal log) :
      Written { wal with nextLsn := 0 } log

/-- What a written log keeps: the file is the groups' frames, their LSNs increase
and every record can be read back. -/
structure Carries (wal : Wal) (log : List Group) : Prop where
  file : wal.file = (log.flatMap Group.records).flatMap (encodeRecord serde)
  increasing : log.Pairwise fun earlier later => earlier.commitLsn < later.first
  bounded : ∀ group ∈ log, group.commitLsn < 2 ^ 64
  writable : ∀ group ∈ log, ∀ op ∈ group.ops, op.Writable serde ∧ op ≠ .commit
  next : wal.nextLsn = 0 ∨ ∀ group ∈ log, group.commitLsn < wal.nextLsn

variable {serde}

theorem numbered_append (lsn : Nat) (first second : List WalOp) :
    numbered lsn (first ++ second) = numbered lsn first ++ numbered (lsn + first.length) second := by
  induction first generalizing lsn with
  | nil => rfl
  | cons op first ih =>
      simp only [List.cons_append, numbered, ih, List.length_cons]
      rw [show lsn + 1 + first.length = lsn + (first.length + 1) by omega]

theorem mem_numbered {lsn : Nat} {ops : List WalOp} {record : Record}
    (member : record ∈ numbered lsn ops) :
    lsn ≤ record.1 ∧ record.1 < lsn + ops.length ∧ record.2 ∈ ops := by
  induction ops generalizing lsn with
  | nil => cases member
  | cons op rest ih =>
      rcases List.mem_cons.mp member with rfl | later
      · simp
      · obtain ⟨low, high, within⟩ := ih later
        exact ⟨by omega, by rw [List.length_cons]; omega, List.mem_cons_of_mem _ within⟩

theorem commit_writable : WalOp.commit.Writable serde where
  valid := trivial
  faithful := nofun
  table := by decide
  body := fun lsn => by
    have empty : WalOp.commit.payload serde = [] := rfl
    rw [WalOp.encodeBody_length, empty]
    decide

/-- Every record of a group is read back from its frame. -/
theorem Group.decodes {group : Group} (bounded : group.commitLsn < 2 ^ 64)
    (writable : ∀ op ∈ group.ops, op.Writable serde ∧ op ≠ .commit) :
    ∀ record ∈ group.records,
      WalOp.decodeBody serde (record.2.encodeBody serde record.1) = .ok record ∧
        (record.2.encodeBody serde record.1).length < 256 ^ 4 := by
  intro record member
  rcases List.mem_append.mp member with op | commit
  · obtain ⟨low, high, within⟩ := mem_numbered op
    have encodes := (writable record.2 within).1
    have small : record.1 < 2 ^ 64 := by
      rw [Group.commitLsn] at bounded; omega
    exact ⟨WalOp.decodeBody_encodeBody small encodes, encodes.body record.1⟩
  · obtain rfl := List.mem_singleton.mp commit
    exact ⟨WalOp.decodeBody_encodeBody bounded commit_writable, commit_writable.body _⟩

/-- Every record of a carried log is read back from its frame. -/
theorem Carries.decodes {wal : Wal} {log : List Group} (carries : Carries serde wal log) :
    ∀ record ∈ log.flatMap Group.records,
      WalOp.decodeBody serde (record.2.encodeBody serde record.1) = .ok record ∧
        (record.2.encodeBody serde record.1).length < 256 ^ 4 := by
  intro record member
  obtain ⟨group, inLog, inGroup⟩ := List.mem_flatMap.mp member
  exact Group.decodes (carries.bounded group inLog) (carries.writable group inLog) record inGroup

/-- A carried log cut at a byte is read as the records entirely below the cut. -/
theorem Carries.parse_cut {wal : Wal} {log : List Group} (carries : Carries serde wal log)
    (cut : Nat) :
    (parse serde (wal.file.take cut)).map (·.1.map (·.1)) =
      .ok (whole (frameSize serde) cut (log.flatMap Group.records)) := by
  have scanned := Library.Framing.scan_cut (fun record member => (carries.decodes record member).1)
    (fun record member => (carries.decodes record member).2) [] cut
  simp only [List.nil_append, List.length_nil] at scanned
  rw [parse, carries.file]
  refine (congrArg (Except.map _) scanned).trans ?_
  simp only [Except.map, Library.Framing.located_items]
  rfl

theorem whole_all {α : Type} (size : α → Nat) {bound : Nat} {items : List α}
    (fits : (items.map size).sum ≤ bound) : whole size bound items = items := by
  have split := Library.Framing.whole_append size bound items []
  simpa [fits, whole] using split

theorem encodeRecord_length (record : Record) :
    (encodeRecord serde record).length = frameSize serde record :=
  Library.Framing.frame_length _

theorem Carries.parse_file {wal : Wal} {log : List Group} (carries : Carries serde wal log) :
    (parse serde wal.file).map (·.1.map (·.1)) = .ok (log.flatMap Group.records) := by
  have cut := carries.parse_cut wal.file.length
  have length : wal.file.length = ((log.flatMap Group.records).map (frameSize serde)).sum := by
    rw [carries.file, List.length_flatMap]
    exact congrArg (fun size => ((log.flatMap Group.records).map size).sum)
      (funext encodeRecord_length)
  rwa [List.take_length, whole_all _ (by omega)] at cut

/-- A known next LSN is the first one of the operations. -/
theorem encodeAll_eq {wal after : Wal} {ops : List WalOp} {bytes : Bytes}
    (known : wal.nextLsn ≠ 0) (encoded : encodeAll serde wal ops = .ok (bytes, after)) :
    bytes = (numbered wal.nextLsn ops).flatMap (encodeRecord serde) ∧
      after = { wal with nextLsn := wal.nextLsn + ops.length } := by
  induction ops generalizing wal bytes with
  | nil =>
      cases encoded
      exact ⟨rfl, rfl⟩
  | cons op rest ih =>
      have first : firstLsn serde wal = .ok wal.nextLsn := if_neg known
      by_cases small : wal.nextLsn + 1 < 2 ^ 64
      · have taken : takeLsn serde wal =
            .ok (wal.nextLsn, { wal with nextLsn := wal.nextLsn + 1 }) := by
          simp only [takeLsn, first, checkedNext, small, if_true, bind, Except.bind]
        simp only [encodeAll, taken, bind, Except.bind] at encoded
        cases later : encodeAll serde { wal with nextLsn := wal.nextLsn + 1 } rest with
        | error error => rw [later] at encoded; cases encoded
        | ok result =>
            rw [later] at encoded
            obtain ⟨frames, reached⟩ := result
            cases encoded
            obtain ⟨rfl, rfl⟩ := ih (Nat.succ_ne_zero _) later
            refine ⟨rfl, ?_⟩
            simp only [List.length_cons, Nat.add_assoc, Nat.add_comm 1]
      · have taken : takeLsn serde wal = .error "WAL LSN exhausted" := by
          simp only [takeLsn, first, checkedNext, small, if_false, bind, Except.bind]
        simp only [encodeAll, taken, bind, Except.bind] at encoded
        cases encoded

/-- Looking the first LSN up beforehand changes nothing. -/
theorem appendGroup_known {wal : Wal} {lsn : Nat} (ops : List WalOp)
    (first : firstLsn serde wal = .ok lsn) (positive : lsn ≠ 0) :
    appendGroup serde wal ops = appendGroup serde { wal with nextLsn := lsn } ops := by
  have known : firstLsn serde { wal with nextLsn := lsn } = .ok lsn := if_neg positive
  have taken : takeLsn serde wal = takeLsn serde { wal with nextLsn := lsn } := by
    simp only [takeLsn, first, known]
  cases ops with
  | nil => simp only [appendGroup, encodeAll, taken, bind, Except.bind]
  | cons op rest => simp only [appendGroup, encodeAll, taken]

/-- What a successful append writes. -/
theorem appendGroup_eq {wal next : Wal} {ops : List WalOp} {commitLsn : Nat}
    (appended : appendGroup serde wal ops = .ok (commitLsn, next)) :
    ∃ lsn, firstLsn serde wal = .ok lsn ∧ (lsn ≠ 0 → commitLsn = lsn + ops.length ∧
      commitLsn + 1 < 2 ^ 64 ∧ next = { wal with
        nextLsn := commitLsn + 1
        file := wal.file ++ (Group.mk lsn ops).records.flatMap (encodeRecord serde) }) := by
  cases first : firstLsn serde wal with
  | error error =>
      have taken : takeLsn serde wal = .error error := by
        simp only [takeLsn, first, bind, Except.bind]
      cases ops with
      | nil => simp only [appendGroup, encodeAll, taken, bind, Except.bind] at appended; cases appended
      | cons op rest =>
          simp only [appendGroup, encodeAll, taken, bind, Except.bind] at appended; cases appended
  | ok lsn =>
      refine ⟨lsn, rfl, fun positive => ?_⟩
      rw [appendGroup_known ops first positive] at appended
      simp only [appendGroup, bind, Except.bind] at appended
      cases encoded : encodeAll serde { wal with nextLsn := lsn } ops with
      | error error => rw [encoded] at appended; cases appended
      | ok result =>
          obtain ⟨frames, reached⟩ := result
          obtain ⟨rfl, rfl⟩ := encodeAll_eq positive encoded
          have commitFirst : firstLsn serde { wal with nextLsn := lsn + ops.length } =
              .ok (lsn + ops.length) := if_neg (by simp only; omega)
          rw [encoded] at appended
          simp only [takeLsn, commitFirst, bind, Except.bind, checkedNext] at appended
          by_cases small : lsn + ops.length + 1 < 2 ^ 64
          · rw [if_pos small] at appended
            cases appended
            refine ⟨rfl, small, ?_⟩
            simp [Group.records, Group.opRecords, Group.commitLsn, encodeRecord]
          · rw [if_neg small] at appended
            cases appended

theorem last_record {log : List Group} {record : Record}
    (last : (log.flatMap Group.records).getLast? = some record)
    (increasing : log.Pairwise fun earlier later => earlier.commitLsn < later.first) :
    ∀ group ∈ log, group.commitLsn ≤ record.1 := by
  obtain rfl | ⟨front, group, rfl⟩ := List.eq_nil_or_concat log
  · nofun
  · intro other member
    simp only [List.concat_eq_append, List.flatMap_append, List.flatMap_singleton, Group.records,
      ← List.append_assoc, List.getLast?_concat] at last
    cases last
    rw [List.concat_eq_append] at member
    rcases List.mem_append.mp member with before | same
    · rw [List.concat_eq_append, List.pairwise_append] at increasing
      have less := increasing.2.2 other before group List.mem_cons_self
      simp only [Group.commitLsn] at less ⊢
      omega
    · obtain rfl := List.mem_singleton.mp same
      exact Nat.le_refl _

/-- The first LSN of the next group is above all of a carried log. -/
theorem Carries.firstLsn_above {wal : Wal} {log : List Group} (carries : Carries serde wal log)
    {lsn : Nat} (first : firstLsn serde wal = .ok lsn) :
    0 < lsn ∧ ∀ group ∈ log, group.commitLsn < lsn := by
  rw [firstLsn] at first
  by_cases unknown : wal.nextLsn = 0
  · rw [if_pos unknown] at first
    have parsed := carries.parse_file
    cases read : parse serde wal.file with
    | error error => rw [read] at parsed; cases parsed
    | ok result =>
        obtain ⟨frames, goodLen⟩ := result
        rw [read] at parsed
        have records : frames.map (·.1) = log.flatMap Group.records := by
          simpa [Except.map] using parsed
        simp only [read, bind, Except.bind] at first
        have last : (log.flatMap Group.records).getLast? = frames.getLast?.map (·.1) := by
          rw [← records, List.getLast?_map]
        cases final : frames.getLast? with
        | none =>
            simp only [final, checkedNext] at first
            have noFrames := List.getLast?_eq_none_iff.mp final
            have noRecords : log.flatMap Group.records = [] := by rw [← records, noFrames]; rfl
            split at first
            · cases first
              refine ⟨Nat.succ_pos _, fun group member => ?_⟩
              have inside : (group.commitLsn, WalOp.commit) ∈ log.flatMap Group.records :=
                List.mem_flatMap.mpr ⟨group, member, by simp [Group.records]⟩
              rw [noRecords] at inside
              cases inside
            · cases first
        | some located =>
            rw [final] at last
            have above : ∀ group ∈ log, group.commitLsn ≤ located.1.1 :=
              last_record last carries.increasing
            simp only [final, checkedNext] at first
            split at first
            · cases first
              refine ⟨Nat.succ_pos _, fun group member => ?_⟩
              have below := above group member
              omega
            · cases first
  · rw [if_neg unknown] at first
    cases first
    exact ⟨Nat.pos_of_ne_zero unknown, carries.next.resolve_left unknown⟩

theorem Carries.append {wal next : Wal} {log : List Group} {ops : List WalOp} {commitLsn : Nat}
    (carries : Carries serde wal log)
    (writable : ∀ op ∈ ops, op.Writable serde ∧ op ≠ .commit)
    (appended : appendGroup serde wal ops = .ok (commitLsn, next)) :
    Carries serde next (log ++ [⟨commitLsn - ops.length, ops⟩]) := by
  obtain ⟨lsn, first, effect⟩ := appendGroup_eq appended
  obtain ⟨positive, above⟩ := carries.firstLsn_above first
  obtain ⟨rfl, small, rfl⟩ := effect (Nat.ne_of_gt positive)
  rw [Nat.add_sub_cancel]
  refine ⟨?_, ?_, ?_, ?_, .inr ?_⟩
  · simp only [List.flatMap_append, List.flatMap_singleton, carries.file]
  · rw [List.pairwise_append]
    exact ⟨carries.increasing, List.pairwise_singleton _ _,
      fun group member other last => by rw [List.mem_singleton.mp last]; exact above group member⟩
  all_goals
    intro group member
    rcases List.mem_append.mp member with before | last
  · exact carries.bounded group before
  · rw [List.mem_singleton.mp last, Group.commitLsn]; simp only; omega
  · exact carries.writable group before
  · rw [List.mem_singleton.mp last]; exact writable
  · have below := above group before
    simp only
    omega
  · rw [List.mem_singleton.mp last, Group.commitLsn]; simp only; omega

theorem Written.carries {wal : Wal} {log : List Group} (written : Written serde wal log) :
    Carries serde wal log := by
  induction written with
  | empty isEmpty => exact ⟨isEmpty, .nil, nofun, nofun, .inr nofun⟩
  | append _ writable appended ih => exact ih.append writable appended
  | restart _ ih => exact ⟨ih.file, ih.increasing, ih.bounded, ih.writable, .inl rfl⟩

end Wal

end ChuSQL.Storage
