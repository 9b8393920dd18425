import ChuSQL.Storage.Wal.Log

/-! What recovery selects from a log that was cut at any byte. -/

set_option autoImplicit false

namespace ChuSQL.Storage.Wal

open Library.Framing (whole)

variable (serde : Serde)

/-- One record of the selection: selected records, then pending ones. A commit
mark selects what is pending. -/
def committedStep (state : List Record × List Record) (record : Record) :
    List Record × List Record :=
  if record.2 = .commit then (state.1 ++ state.2, []) else (state.1, state.2 ++ [record])

/-- Records before a commit mark, in whole groups. One unmarked record at the end
counts as committed: the older format had no marks. -/
def committedOps (records : List Record) : List Record :=
  let (out, pending) := records.foldl committedStep ([], [])
  if pending.length = 1 then out ++ pending else out

/-- Records behind the checkpoint. -/
def recordsAfter (records : List Record) (checkpoint : Nat) : List Record :=
  records.filter (checkpoint < ·.1)

/-- The operations that recovery replays. -/
def recoveredOps (wal : Wal) (checkpoint : Nat) : Except String (List Record) := do
  let scan ← readAll serde wal
  .ok (committedOps (recordsAfter scan.records checkpoint))

/-! ### What the cut leaves -/

/-- Groups whose commit frame lies entirely below the cut. -/
def committedGroups : Nat → List Group → List Group
  | _, [] => []
  | cut, group :: rest =>
      if group.size serde ≤ cut then group :: committedGroups (cut - group.size serde) rest else []

/-- Operation frames entirely below the cut, of the group whose commit frame is not. -/
def tornRecords : Nat → List Group → List Record
  | _, [] => []
  | cut, group :: rest =>
      if group.size serde ≤ cut then tornRecords (cut - group.size serde) rest
      else whole (frameSize serde) cut group.opRecords

variable {serde}

theorem committedGroups_leading (cut : Nat) (log : List Group) :
    committedGroups serde cut log <+: log := by
  induction log generalizing cut with
  | nil => exact List.prefix_rfl
  | cons group rest ih =>
      simp only [committedGroups]
      split
      · exact (List.prefix_cons_inj group).mpr (ih _)
      · exact List.nil_prefix

theorem whole_torn {cut : Nat} {group : Group} (torn : ¬group.size serde ≤ cut) :
    whole (frameSize serde) cut group.records = whole (frameSize serde) cut group.opRecords := by
  have size : group.size serde = (group.opRecords.map (frameSize serde)).sum +
      frameSize serde (group.commitLsn, .commit) := by
    simp [Group.size, Group.records]
  rw [Group.records, Library.Framing.whole_append]
  by_cases ops : (group.opRecords.map (frameSize serde)).sum ≤ cut
  · have commit : ¬frameSize serde (group.commitLsn, .commit) ≤
        cut - (group.opRecords.map (frameSize serde)).sum := by omega
    rw [if_pos ops, whole_all _ ops, whole, if_neg commit, List.append_nil]
  · rw [if_neg ops]

/-- Whole groups first, then what is left of the torn one. -/
theorem whole_records (cut : Nat) (log : List Group) :
    whole (frameSize serde) cut (log.flatMap Group.records) =
      (committedGroups serde cut log).flatMap Group.records ++ tornRecords serde cut log := by
  induction log generalizing cut with
  | nil => rfl
  | cons group rest ih =>
      rw [List.flatMap_cons, Library.Framing.whole_append, committedGroups, tornRecords]
      have size : (group.records.map (frameSize serde)).sum = group.size serde := rfl
      rw [size]
      by_cases complete : group.size serde ≤ cut
      · rw [if_pos complete, if_pos complete, if_pos complete, ih, List.flatMap_cons,
          List.append_assoc]
      · rw [if_neg complete, if_neg complete, if_neg complete, whole_torn complete]
        rfl

/-- The torn records belong to a group of the log behind all committed ones. -/
theorem tornRecords_group (cut : Nat) (log : List Group) :
    tornRecords serde cut log = [] ∨ ∃ group ∈ log, tornRecords serde cut log <+: group.opRecords ∧
      (log.Pairwise (fun earlier later => earlier.commitLsn < later.first) →
        ∀ earlier ∈ committedGroups serde cut log, earlier.commitLsn < group.first) := by
  induction log generalizing cut with
  | nil => exact .inl rfl
  | cons group rest ih =>
      simp only [tornRecords, committedGroups]
      split
      · rcases ih (cut - group.size serde) with nothing | ⟨torn, member, within, above⟩
        · exact .inl nothing
        · refine .inr ⟨torn, List.mem_cons_of_mem _ member, within, fun increasing => ?_⟩
          rw [List.pairwise_cons] at increasing
          intro earlier kept
          rcases List.mem_cons.mp kept with rfl | later
          · exact increasing.1 torn member
          · exact above increasing.2 earlier later
      · exact .inr ⟨group, List.mem_cons_self, Library.Framing.whole_leading _ _ _, fun _ => nofun⟩

/-! ### The selection -/

theorem foldl_committedStep_ops {records : List Record} (ops : ∀ record ∈ records, record.2 ≠ .commit)
    (out pending : List Record) :
    records.foldl committedStep (out, pending) = (out, pending ++ records) := by
  induction records generalizing pending with
  | nil => rw [List.append_nil]; rfl
  | cons record rest ih =>
      have here := ops record List.mem_cons_self
      rw [List.foldl_cons, committedStep, if_neg here,
        ih fun other member => ops other (List.mem_cons_of_mem _ member)]
      simp

/-- The operations of a group behind the checkpoint. -/
def survivors (checkpoint : Nat) (group : Group) : List Record :=
  recordsAfter group.opRecords checkpoint

/-- A single record without a commit mark, as the older format wrote it. -/
def legacyRecord (records : List Record) : List Record :=
  if records.length = 1 then records else []

/-- Groups committed below the cut and above the checkpoint. -/
def liveGroups (serde : Serde) (cut checkpoint : Nat) (log : List Group) : List Group :=
  (committedGroups serde cut log).filter (checkpoint < ·.commitLsn)

section Selection

variable {wal : Wal} {log : List Group} {checkpoint : Nat}

theorem Carries.ops {group : Group} (carries : Carries serde wal log) (member : group ∈ log) :
    ∀ record ∈ group.opRecords, record.2 ≠ .commit := fun record inside =>
  (carries.writable group member record.2 (mem_numbered inside).2.2).2

private theorem recordsAfter_group (group : Group) :
    recordsAfter group.records checkpoint =
      if checkpoint < group.commitLsn then
        survivors checkpoint group ++ [(group.commitLsn, .commit)]
      else [] := by
  rw [Group.records, recordsAfter, List.filter_append]
  by_cases above : checkpoint < group.commitLsn
  · rw [if_pos above]
    congr 1
    simp [above]
  · rw [if_neg above, List.append_eq_nil_iff]
    refine ⟨List.filter_eq_nil_iff.mpr fun record member => ?_, by simp [above]⟩
    obtain ⟨_, below, _⟩ := mem_numbered member
    rw [Group.commitLsn] at above
    simp only [decide_eq_true_eq]
    omega

private theorem foldl_groups {groups : List Group}
    (ops : ∀ group ∈ groups, ∀ record ∈ group.opRecords, record.2 ≠ .commit) (out : List Record) :
    (recordsAfter (groups.flatMap Group.records) checkpoint).foldl committedStep (out, []) =
      (out ++ (groups.filter (checkpoint < ·.commitLsn)).flatMap (survivors checkpoint), []) := by
  induction groups generalizing out with
  | nil => simp [recordsAfter]
  | cons group rest ih =>
      have here := ops group List.mem_cons_self
      have later := ih fun other member => ops other (List.mem_cons_of_mem _ member)
      have split : recordsAfter ((group :: rest).flatMap Group.records) checkpoint =
          recordsAfter group.records checkpoint ++
            recordsAfter (rest.flatMap Group.records) checkpoint := by
        simp [recordsAfter]
      rw [split, List.foldl_append, recordsAfter_group]
      by_cases above : checkpoint < group.commitLsn
      · have kept : ∀ record ∈ survivors checkpoint group, record.2 ≠ .commit :=
          fun record member => here record (List.mem_of_mem_filter member)
        rw [if_pos above, List.foldl_append, foldl_committedStep_ops kept, List.foldl_cons,
          List.foldl_nil, committedStep, if_pos rfl, later,
          List.filter_cons_of_pos (by simpa using above)]
        simp
      · rw [if_neg above, List.foldl_nil, later, List.filter_cons_of_neg (by simpa using above)]

private theorem committedOps_cut (carries : Carries serde wal log) (cut : Nat) :
    committedOps (recordsAfter (whole (frameSize serde) cut (log.flatMap Group.records)) checkpoint) =
      (liveGroups serde cut checkpoint log).flatMap (survivors checkpoint) ++
        legacyRecord (recordsAfter (tornRecords serde cut log) checkpoint) := by
  have committed : ∀ group ∈ committedGroups serde cut log, ∀ record ∈ group.opRecords,
      record.2 ≠ .commit := fun group member =>
    carries.ops ((committedGroups_leading cut log).subset member)
  have torn : ∀ record ∈ recordsAfter (tornRecords serde cut log) checkpoint,
      record.2 ≠ .commit := by
    intro record member
    have inside := List.mem_of_mem_filter member
    rcases tornRecords_group cut log with nothing | ⟨group, inLog, within, _⟩
    · rw [nothing] at inside; cases inside
    · exact carries.ops inLog record (within.subset inside)
  have split : recordsAfter (whole (frameSize serde) cut (log.flatMap Group.records)) checkpoint =
      recordsAfter ((committedGroups serde cut log).flatMap Group.records) checkpoint ++
        recordsAfter (tornRecords serde cut log) checkpoint := by
    rw [whole_records, recordsAfter, List.filter_append]; rfl
  rw [committedOps, split, List.foldl_append, foldl_groups committed,
    foldl_committedStep_ops torn]
  simp only [List.nil_append, legacyRecord, liveGroups]
  split
  · rfl
  · rw [List.append_nil]

/-- What recovery selects from the cut file: the survivors of the committed
groups, and a torn record if it is the only one. -/
theorem recoveredOps_cut (carries : Carries serde wal log) (cut : Nat) :
    recoveredOps serde { wal with file := wal.file.take cut } checkpoint =
      .ok ((liveGroups serde cut checkpoint log).flatMap (survivors checkpoint) ++
        legacyRecord (recordsAfter (tornRecords serde cut log) checkpoint)) := by
  have parsed := carries.parse_cut cut
  cases read : parse serde (wal.file.take cut) with
  | error error => rw [read] at parsed; cases parsed
  | ok result =>
      obtain ⟨frames, goodLen⟩ := result
      rw [read] at parsed
      have records : frames.map (·.1) =
          whole (frameSize serde) cut (log.flatMap Group.records) := by
        simpa [Except.map] using parsed
      simp only [recoveredOps, readAll, read, bind, Except.bind, records, committedOps_cut carries]

private theorem survivors_flatMap (groups : List Group) :
    groups.flatMap (survivors checkpoint) =
      recordsAfter (groups.flatMap Group.opRecords) checkpoint := by
  rw [recordsAfter, List.filter_flatMap]
  rfl

/-- Torn records lie behind every committed group. -/
private theorem torn_above (carries : Carries serde wal log) {cut : Nat} {record : Record}
    (torn : record ∈ tornRecords serde cut log) :
    ∀ group ∈ committedGroups serde cut log, record ∉ group.opRecords := by
  intro group member inside
  rcases tornRecords_group cut log with nothing | ⟨last, _, within, above⟩
  · rw [nothing] at torn; cases torn
  · have order := above carries.increasing group member
    obtain ⟨low, _, _⟩ := mem_numbered (within.subset torn)
    obtain ⟨_, high, _⟩ := mem_numbered inside
    rw [Group.commitLsn] at order
    omega

/-- Recovery selects exactly the groups committed below the cut and above the
checkpoint unless the checkpoint lies inside one of them, or exactly one
operation frame of the torn group is complete: that one passes for a committed
record of the older format. -/
theorem cut_selects_committed_iff {wal : Wal} {log : List Group} (written : Written serde wal log)
    (cut checkpoint : Nat) :
    recoveredOps serde { wal with file := wal.file.take cut } checkpoint =
        .ok ((liveGroups serde cut checkpoint log).flatMap Group.opRecords) ↔
      (∀ group ∈ liveGroups serde cut checkpoint log, checkpoint < group.first ∨ group.ops = []) ∧
        (recordsAfter (tornRecords serde cut log) checkpoint).length ≠ 1 := by
  have carries := written.carries
  rw [recoveredOps_cut carries cut, Except.ok.injEq, survivors_flatMap]
  constructor
  · intro same
    have several : (recordsAfter (tornRecords serde cut log) checkpoint).length ≠ 1 := by
      intro single
      rw [legacyRecord, if_pos single] at same
      obtain ⟨record, only⟩ := List.length_eq_one_iff.mp single
      have torn : record ∈ tornRecords serde cut log :=
        List.mem_of_mem_filter (p := fun other : Record => checkpoint < other.1)
          (by rw [← recordsAfter, only]; exact List.mem_singleton_self _)
      have selected : record ∈ (liveGroups serde cut checkpoint log).flatMap Group.opRecords := by
        rw [← same, only]
        exact List.mem_append_right _ (List.mem_singleton_self _)
      obtain ⟨group, live, inside⟩ := List.mem_flatMap.mp selected
      exact torn_above carries torn group (List.mem_of_mem_filter live) inside
    refine ⟨fun group live => ?_, several⟩
    rw [legacyRecord, if_neg several, List.append_nil, recordsAfter, List.filter_eq_self] at same
    cases ops : group.ops with
    | nil => exact .inr rfl
    | cons op rest =>
        have head : (group.first, op) ∈ group.opRecords := by
          rw [Group.opRecords, ops]; exact List.mem_cons_self
        have above := same _ (List.mem_flatMap.mpr ⟨group, live, head⟩)
        exact .inl (by simpa using above)
  · rintro ⟨outside, several⟩
    rw [legacyRecord, if_neg several, List.append_nil, recordsAfter, List.filter_eq_self]
    intro record member
    obtain ⟨group, live, inside⟩ := List.mem_flatMap.mp member
    obtain ⟨low, high, within⟩ := mem_numbered inside
    rcases outside group live with above | empty
    · exact decide_eq_true (by omega)
    · rw [empty] at within; cases within

end Selection

/-! ### An update torn between its deletion and its insertion -/

def sampleRow : Row := ⟨[("id", .number (.int 1))], List.pairwise_singleton _ _⟩

def updateOps : List WalOp := [.deleteKeys "t" [1], .insertBatch "t" [sampleRow]]

/-- JSON text of the two payloads of the update. -/
def sampleSerde : Serde where
  toVec value := utf8 (if value = .array [.number (.int 1)] then "[1]" else "[\x7b\"id\":1\x7d]")
  fromSlice bytes :=
    if bytes = utf8 "[1]" then .ok (.array [.number (.int 1)])
    else if bytes = utf8 "[\x7b\"id\":1\x7d]" then .ok (WalOp.rowsJson [sampleRow])
    else .error "expected value at line 1 column 1"
  mismatch _ := "invalid type"
  badUtf8 _ := "invalid utf-8 sequence of 1 bytes from index 0"

def updateWal : Wal where
  file := (Group.mk 1 updateOps).records.flatMap (encodeRecord sampleSerde)
  nextLsn := 4
  checkpoint := none

theorem updateOps_writable : ∀ op ∈ updateOps, op.Writable sampleSerde ∧ op ≠ .commit := by
  have fits : ∀ op ∈ updateOps, op.Valid ∧ (∀ value ∈ op.payloadJson, sampleSerde.Faithful value) ∧
      (utf8 op.frameTable).length < 2 ^ 16 ∧
      11 + (utf8 op.frameTable).length + (op.payload sampleSerde).length < 2 ^ 32 ∧
      op ≠ .commit := by
    decide +kernel
  intro op member
  obtain ⟨valid, faithful, table, body, notCommit⟩ := fits op member
  refine ⟨⟨valid, faithful, table, fun lsn => ?_⟩, notCommit⟩
  rw [WalOp.encodeBody_length]
  exact body

theorem updateWal_written : Written sampleSerde updateWal [⟨1, updateOps⟩] :=
  @Written.append _ ⟨[], 1, none⟩ _ _ _ 3 (.empty rfl) updateOps_writable (by decide +kernel)

theorem cut_selects_committed_update :
    recoveredOps sampleSerde { updateWal with file := updateWal.file.take 200 } 0 =
      .ok ((liveGroups sampleSerde 200 0 [⟨1, updateOps⟩]).flatMap Group.opRecords) :=
  (cut_selects_committed_iff updateWal_written 200 0).mpr (by decide +kernel)

/-- Cut behind its first frame, the update is replayed as a mere deletion. -/
theorem torn_update_replays_deletion :
    Written sampleSerde updateWal [⟨1, updateOps⟩] ∧ 2 ≤ updateOps.length ∧
      recoveredOps sampleSerde { updateWal with file := updateWal.file.take 19 } 0 =
        .ok [(1, .deleteKeys "t" [1])] ∧
      (liveGroups sampleSerde 19 0 [⟨1, updateOps⟩]).flatMap Group.opRecords = [] := by
  refine ⟨updateWal_written, by decide, ?_, by decide +kernel⟩
  rw [recoveredOps_cut updateWal_written.carries 19]
  decide +kernel

end ChuSQL.Storage.Wal
