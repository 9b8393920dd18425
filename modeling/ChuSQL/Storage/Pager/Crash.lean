import ChuSQL.Storage.Pager.Append

/-! Page files over runs with crashes. Whatever a crash tears, the journal rewrites:
opening the file again finds the pages whose frames were whole, and all others as
they were. -/

set_option autoImplicit false

namespace ChuSQL.Storage.Pager

open Library.ByteFile (Torn replay replay_append replay_torn torn_replay window)

/-- The files a crash may leave while a batch is prepared, written and checkpointed;
`true` once `prepare` has returned. -/
inductive Crash (store : Store) (images : List Image) : Bool → Disk → Prop where
  | preparing (cut : Nat) {crashed : Bytes}
      (torn : Torn store.disk.data.synced store.disk.data.unsynced crashed) :
      Crash store images false
        { data := ⟨crashed, []⟩
          metadata := store.disk.metadata
          journal := (store.prepare images).2.disk.journal.take (store.disk.journal.length + cut) }
  | writing (returned : (store.prepare images).1 = .ok ()) {crashed : Bytes}
      (torn : Torn store.disk.data.synced (store.disk.data.unsynced ++
        images.map (imageChange store.wal.state.pageSize)) crashed) :
      Crash store images true
        { data := ⟨crashed, []⟩
          metadata := store.disk.metadata
          journal := (store.prepare images).2.disk.journal }
  | renamed (returned : (store.prepare images).1 = .ok ())
      (pending : (store.prepare images).2.wal.pending = true) :
      Crash store images true ((store.prepare images).2.writeImages images).syncData.publish.disk
  | checkpointed (returned : (store.prepare images).1 = .ok ()) :
      Crash store images true (store.flush images).2.disk

/-- The files a crash may leave while such files are opened again. -/
inductive Interrupted (pageSize : Nat) (disk : Disk) : Disk → Prop where
  | writing {store : Store} (kept : disk.journal.isEmpty = false)
      (replayed : (disk.load pageSize).replayed = .ok store) {crashed : Bytes}
      (torn : Torn store.disk.data.synced store.disk.data.unsynced crashed) :
      Interrupted pageSize disk { disk with data := ⟨crashed, []⟩ }
  | renamed {store : Store} (kept : disk.journal.isEmpty = false)
      (replayed : (disk.load pageSize).replayed = .ok store) :
      Interrupted pageSize disk store.syncData.publish.disk

/-- A crash of a batch, then any number of crashes while the file is opened. -/
inductive Wreck (pageSize : Nat) (store : Store) (images : List Image) : Bool → Disk → Prop where
  | crash {prepared : Bool} {disk : Disk} (crash : Crash store images prepared disk) :
      Wreck pageSize store images prepared disk
  | again {prepared : Bool} {disk next : Disk} (before : Wreck pageSize store images prepared disk)
      (interrupted : Interrupted pageSize disk next) : Wreck pageSize store images prepared next

/-- Page files over any run: created over any bytes, written in any batches, crashed
at any point and opened again. -/
inductive Reachable (pageSize : Nat) : Store → Prop where
  | create (content : Bytes) {store : Store}
      (opened : Disk.open ⟨⟨content, []⟩, none, []⟩ pageSize = .ok store) : Reachable pageSize store
  | setLsn {store : Store} (before : Reachable pageSize store) {lsn : Nat} (small : lsn < 2 ^ 64) :
      Reachable pageSize (store.setLsn lsn)
  | evict {store : Store} (before : Reachable pageSize store) (images : List Image) :
      Reachable pageSize (store.evict images).2
  | flush {store : Store} (before : Reachable pageSize store) (images : List Image) :
      Reachable pageSize (store.flush images).2
  | truncate {store : Store} (before : Reachable pageSize store) :
      Reachable pageSize store.truncate.2
  | reopen {store next : Store} {images : List Image} {prepared : Bool} {disk : Disk}
      (before : Reachable pageSize store) (wreck : Wreck pageSize store images prepared disk)
      (opened : disk.open pageSize = .ok next) : Reachable pageSize next

/-- An open page file: the journal holds an image for every change since the sync. -/
structure Running (pageSize : Nat) (store : Store) (newer : List Frame) : Prop where
  logged : Logged pageSize store newer
  behind : store.disk.data.unsynced <+: newer.map (Frame.change pageSize)
  exact : store.wal.failed = false →
    store.disk.data.unsynced = newer.map (Frame.change pageSize)

/-- Files that recovery brings to a page state and to a content. -/
def Recovers (pageSize : Nat) (disk : Disk) (state : State) (content : Bytes) : Prop :=
  ∃ published newer tail, Journalled pageSize disk published newer tail ∧
    disk.data.unsynced = [] ∧ newer.foldl State.record (disk.state pageSize) = state ∧
    replay (newer.map (Frame.change pageSize)) disk.data.synced = content

/-- The frames of a batch that are whole in the journal, all of them once `prepare`
has returned. -/
structure Whole (pageSize : Nat) (store : Store) (images : List Image) (prepared : Bool)
    (frames : List Frame) : Prop where
  leading : frames.map Frame.image <+: images
  all : prepared = true → frames.map Frame.image = images
  fits : ∀ frame ∈ frames, frame.Fits pageSize
  rising : Rising store.wal.state frames
  increasing : Increasing store.wal.state.sequence frames

theorem Journalled.clean {pageSize : Nat} {disk : Disk}
    (version : (disk.state pageSize).version = 1)
    (sized : (disk.state pageSize).pageSize = pageSize)
    (versions : ∀ page, ∀ lsn ∈ (disk.state pageSize).pages page, lsn < 2 ^ 64)
    (empty : disk.journal = []) : Journalled pageSize disk [] [] [] :=
  ⟨version, sized, versions, empty, nofun, trivial, .complete, nofun, nofun⟩

theorem encode_ne_nil (frame : Frame) : frame.encode ≠ [] := by
  intro empty
  have length := frame.encode_length
  rw [empty, List.length_nil, headerSize] at length
  omega

section Recover

variable {pageSize : Nat} {disk : Disk} {published newer : List Frame} {tail : Bytes}

/-- The files between the rename and the removal of the journal, at any opening. -/
theorem Journalled.renamed (journalled : Journalled pageSize disk published newer tail) :
    Journalled pageSize (rewritten pageSize disk newer).syncData.publish.disk
      (published ++ newer) [] tail := by
  have state : (rewritten pageSize disk newer).syncData.publish.disk.state pageSize =
      newer.foldl State.record (disk.state pageSize) := rfl
  have below : ∀ frame ∈ published ++ newer,
      frame.sequence ≤ lastSequence (disk.state pageSize).sequence newer := by
    intro frame member
    rcases List.mem_append.mp member with before | after
    · exact (journalled.below frame before).trans journalled.later.le_last
    · exact journalled.later.mem_le_last after
  refine ⟨?_, ?_, ?_, ?_, ?_, ?_, ?_, ?_, nofun⟩
  · rw [state, State.foldl_record_version, journalled.version]
  · rw [state, State.foldl_record_pageSize, journalled.sized]
  · rw [state]
    exact State.foldl_record_versions
      (fun frame member => journalled.fits frame (List.mem_append_right _ member))
      journalled.versions
  · rw [List.append_nil]
    exact journalled.journal
  · rw [List.append_nil]
    exact journalled.fits
  · rw [List.append_nil]
    exact journalled.increasing
  · rw [List.append_nil]
    exact journalled.tail
  · rw [state, State.foldl_record_sequence]
    exact below

end Recover

/-- Files that recover open, with the state and the content they recover to. -/
theorem Recovers.open {pageSize : Nat} {disk : Disk} {state : State} {content : Bytes}
    (recovers : Recovers pageSize disk state content) :
    ∃ next, disk.open pageSize = .ok next ∧ next.wal.state = state ∧
      next.disk.data.content = content ∧ Running pageSize next [] ∧ next.wal.failed = false := by
  obtain ⟨published, newer, tail, journalled, clean, rfl, rfl⟩ := recovers
  refine ⟨_, journalled.open, ?_⟩
  by_cases empty : disk.journal.isEmpty
  · have blank := List.isEmpty_iff.mp empty
    have noFrames : newer = [] := by
      cases newer with
      | nil => rfl
      | cons frame newer =>
          have journal := journalled.journal
          simp [blank, encode_ne_nil] at journal
    subst noFrames
    rw [if_pos empty]
    have fresh := Journalled.clean journalled.version journalled.sized journalled.versions blank
    refine ⟨rfl, ?_, ⟨⟨fresh, rfl, fun _ => rfl, by norm_num [Disk.load]⟩, ?_, fun _ => clean⟩, rfl⟩
    · rw [Disk.load, Library.ByteFile.File.content, clean]
      rfl
    · simp [Disk.load, clean]
  · rw [if_neg empty]
    have after := journalled.renamed
    refine ⟨rfl, ?_, ⟨⟨?_, rfl, fun _ => rfl, by norm_num [Store.dropJournal, Store.publish,
      Store.syncData, rewritten]⟩, List.nil_prefix, fun _ => rfl⟩, rfl⟩
    · change replay (disk.data.unsynced ++ newer.map (Frame.change pageSize)) disk.data.synced = _
      rw [clean, List.nil_append]
    · exact Journalled.clean after.version after.sized after.versions rfl

/-- An opening that is interrupted can be made again. -/
theorem Recovers.interrupted {pageSize : Nat} {disk next : Disk} {state : State} {content : Bytes}
    (recovers : Recovers pageSize disk state content)
    (interrupted : Interrupted pageSize disk next) : Recovers pageSize next state content := by
  obtain ⟨published, newer, tail, journalled, clean, recorded, written⟩ := recovers
  cases interrupted with
  | writing kept replayed torn =>
      cases journalled.replayed.symm.trans replayed
      refine ⟨published, newer, tail, ?_, rfl, recorded, ?_⟩
      · exact ⟨journalled.version, journalled.sized, journalled.versions, journalled.journal,
          journalled.fits, journalled.increasing, journalled.tail, journalled.below,
          journalled.above⟩
      · simp only [rewritten, clean, List.nil_append] at torn
        exact (replay_torn torn).trans written
  | renamed kept replayed =>
      cases journalled.replayed.symm.trans replayed
      refine ⟨published ++ newer, [], tail, journalled.renamed, rfl, recorded, ?_⟩
      refine Eq.trans ?_ written
      change replay (disk.data.unsynced ++ newer.map (Frame.change pageSize)) disk.data.synced = _
      rw [clean, List.nil_append]

section Batch

variable {pageSize : Nat} (layout : 0 < pageSize ∧ pageSize ≤ maxPageSize)
  {store : Store} {newer : List Frame}

/-- What the journal and the last sync stand for. -/
theorem Running.content (running : Running pageSize store newer) (fresh : store.wal.failed = false) :
    replay (newer.map (Frame.change pageSize)) store.disk.data.synced = store.disk.data.content := by
  rw [← running.exact fresh]
  rfl

theorem map_change (frames : List Frame) :
    frames.map (Frame.change pageSize) = (frames.map Frame.image).map (imageChange pageSize) := by
  rw [List.map_map]
  rfl

/-- Data pages do not matter to the journal. -/
theorem Journalled.onDisk {disk other : Disk} {published : List Frame} {tail : Bytes}
    (journalled : Journalled pageSize disk published newer tail)
    (metadata : other.metadata = disk.metadata) (journal : other.journal = disk.journal) :
    Journalled pageSize other published newer tail := by
  have state : other.state pageSize = disk.state pageSize := by
    rw [Disk.state, Disk.state, metadata]
  refine ⟨?_, ?_, ?_, journal.trans journalled.journal, journalled.fits, journalled.increasing,
    journalled.tail, ?_, ?_⟩
  · rw [state, journalled.version]
  · rw [state, journalled.sized]
  · rw [state]
    exact journalled.versions
  · rw [state]
    exact journalled.below
  · rw [state]
    exact journalled.above

/-- A journal cut behind some of its last frames. -/
theorem Journalled.cut {disk other : Disk} {frames : List Frame} {count : Nat} {tail : Bytes}
    (journalled : Journalled pageSize disk [] (newer ++ frames) [])
    (metadata : other.metadata = disk.metadata)
    (journal : other.journal = (newer ++ frames.take count).flatMap Frame.encode ++ tail)
    (torn : Tail pageSize (lastSequence 0 (newer ++ frames.take count)) tail) :
    Journalled pageSize other [] (newer ++ frames.take count) tail := by
  have state : other.state pageSize = disk.state pageSize := by
    rw [Disk.state, Disk.state, metadata]
  have kept : ∀ frame ∈ newer ++ frames.take count, frame ∈ newer ++ frames := by
    intro frame member
    rcases List.mem_append.mp member with before | taken
    · exact List.mem_append_left _ before
    · exact List.mem_append_right _ (List.mem_of_mem_take taken)
  have increasing : Increasing 0 (newer ++ frames.take count) := by
    have whole := journalled.increasing
    rw [List.nil_append, ← List.take_append_drop count frames, ← List.append_assoc] at whole
    exact (increasing_append.mp whole).1
  refine ⟨?_, ?_, ?_, journal, fun frame member => journalled.fits frame (kept frame member),
    increasing, torn, fun _ member => absurd member List.not_mem_nil, ?_⟩
  · rw [state, journalled.version]
  · rw [state, journalled.sized]
  · rw [state]
    exact journalled.versions
  · intro frame member
    rw [state]
    exact journalled.above frame (kept frame member)

/-- Nothing newer in the journal: the files are as the process sees them. -/
theorem Running.recovers (running : Running pageSize store []) :
    Recovers pageSize store.disk store.wal.state store.disk.data.content := by
  have synced : store.disk.data.unsynced = [] := List.prefix_nil.mp running.behind
  refine ⟨[], [], [], running.logged.journalled, synced, running.logged.state.symm, ?_⟩
  rw [Library.ByteFile.File.content, synced]
  rfl

section Batch

include layout

/-- A flush that prepared its batch leaves nothing to recover. -/
theorem Running.flush (running : Running pageSize store newer) {images : List Image}
    (returned : (store.prepare images).1 = .ok ()) :
    ∃ frames : List Frame, Whole pageSize store images true frames ∧
      Running pageSize (store.flush images).2 [] ∧ (store.flush images).1 = .ok () ∧
      (store.flush images).2.wal.state = frames.foldl State.record store.wal.state ∧
      (store.flush images).2.disk.data.content =
        replay (frames.map (Frame.change pageSize)) store.disk.data.content := by
  obtain ⟨frames, added, all, _⟩ := running.logged.prepare layout images
  obtain ⟨same, fresh, usable⟩ := all returned
  have state := added.state running.logged
  have sized := added.logged.pageSize
  have ran : store.flush images =
      ((store.prepare images).2.writeImages images).syncData.checkpoint := by
    rw [Store.flush]
    cases prepared : store.prepare images with
    | mk result next =>
        rw [prepared] at returned
        cases returned
        rfl
  generalize store.prepare images = prepared at *
  obtain ⟨result, next⟩ := prepared
  have content : (next.writeImages images).syncData.disk.data.content =
      replay (frames.map (Frame.change pageSize)) store.disk.data.content := by
    change replay (next.disk.data.unsynced ++ images.map (imageChange next.wal.state.pageSize))
      next.disk.data.synced = _
    rw [added.disk, replay_append, sized, map_change, same]
    rfl
  have opened : ¬(next.writeImages images).syncData.wal.failed = true := by
    rw [Bool.not_eq_true]
    exact usable
  refine ⟨frames, ⟨same ▸ List.prefix_rfl, fun _ => same, added.fits, added.rising,
    added.increasing⟩, ?_⟩
  rw [ran, Store.checkpoint, if_neg opened]
  by_cases pending : next.wal.pending
  · have waiting : ¬(!(next.writeImages images).syncData.wal.pending) = true := by
      change ¬(!next.wal.pending) = true
      simp [pending]
    rw [if_neg waiting]
    refine ⟨⟨⟨?_, rfl, fun _ => rfl, added.logged.lsn⟩, List.nil_prefix, fun _ => rfl⟩, rfl, state,
      content⟩
    have after := added.logged.journalled.renamed
    refine Journalled.clean ?_ ?_ ?_ rfl
    · exact (congrArg State.version added.logged.state).trans after.version
    · exact sized
    · exact added.logged.versions
  · have idle : (!(next.writeImages images).syncData.wal.pending) = true := by
      change (!next.wal.pending) = true
      simpa using pending
    rw [if_pos idle]
    have none := added.logged.pending (by simpa using pending)
    refine ⟨⟨⟨?_, ?_, fun _ => rfl, added.logged.lsn⟩, List.nil_prefix, fun _ => rfl⟩, rfl, state,
      content⟩
    · have journalled := added.logged.journalled
      rw [none] at journalled
      exact journalled.onDisk rfl rfl
    · have recorded := added.logged.state
      rw [none] at recorded
      exact recorded

/-- Whatever a crash leaves of a batch recovers to a prefix of the batch. -/
theorem Running.crash (running : Running pageSize store newer) {images : List Image}
    {prepared : Bool} {disk : Disk} (crash : Crash store images prepared disk) :
    ∃ frames : List Frame, Whole pageSize store images prepared frames ∧
      Recovers pageSize disk (frames.foldl State.record store.wal.state)
        (replay (frames.map (Frame.change pageSize))
          (replay (newer.map (Frame.change pageSize)) store.disk.data.synced)) := by
  obtain ⟨frames, added, all, _⟩ := running.logged.prepare layout images
  have full := added.logged.journalled
  have journal : store.disk.journal = newer.flatMap Frame.encode := by
    simpa using running.logged.journalled.journal
  have metadata : (store.prepare images).2.disk.metadata = store.disk.metadata := by
    rw [added.disk]
  have state : store.disk.state pageSize = (store.prepare images).2.disk.state pageSize := by
    rw [Disk.state, Disk.state, metadata]
  cases crash with
  | preparing cut torn =>
      have increasing : Increasing (lastSequence 0 newer) frames :=
        (increasing_append.mp (by simpa using full.increasing)).2
      obtain ⟨count, tail, split, ends⟩ := take_encoded added.fits increasing cut
      refine ⟨frames.take count, ⟨?_, fun same => absurd same Bool.false_ne_true, fun frame member =>
        added.fits frame (List.mem_of_mem_take member), added.rising.take count, ?_⟩, ?_⟩
      · rw [List.map_take]
        exact (List.take_prefix _ _).trans added.images
      · have whole := added.increasing
        rw [← List.take_append_drop count frames] at whole
        exact (increasing_append.mp whole).1
      · refine ⟨[], newer ++ frames.take count, tail, full.cut metadata.symm ?_ ?_, rfl, ?_, ?_⟩
        · rw [added.disk, List.take_length_add_append, split, journal, List.flatMap_append,
            List.append_assoc]
        · rw [lastSequence_append]
          exact ends
        · rw [List.foldl_append, running.logged.state]
          rfl
        · obtain ⟨more, split⟩ := running.behind
          rw [List.map_append, replay_append]
          have again := replay_torn (torn.append more)
          rw [split] at again
          rw [again]
  | writing returned torn =>
      obtain ⟨same, fresh, _⟩ := all returned
      refine ⟨frames, ⟨same ▸ List.prefix_rfl, fun _ => same, added.fits, added.rising,
        added.increasing⟩, ?_⟩
      refine ⟨[], newer ++ frames, [], full.onDisk metadata.symm rfl, rfl, ?_, ?_⟩
      · rw [List.foldl_append, running.logged.state]
        rfl
      · rw [running.exact fresh, running.logged.pageSize, ← same, ← map_change,
          ← List.map_append] at torn
        refine (replay_torn torn).trans ?_
        rw [List.map_append, replay_append]
  | renamed returned pending =>
      obtain ⟨same, fresh, _⟩ := all returned
      refine ⟨frames, ⟨same ▸ List.prefix_rfl, fun _ => same, added.fits, added.rising,
        added.increasing⟩, ?_⟩
      refine ⟨newer ++ frames, [], [], full.renamed.onDisk ?_ rfl, rfl, added.state running.logged, ?_⟩
      · exact congrArg some added.logged.state
      · change replay ((store.prepare images).2.disk.data.unsynced ++
          images.map (imageChange (store.prepare images).2.wal.state.pageSize))
          (store.prepare images).2.disk.data.synced = _
        rw [added.disk, added.logged.pageSize, ← same, ← map_change, running.exact fresh,
          replay_append]
  | checkpointed returned =>
      obtain ⟨same, fresh, _⟩ := all returned
      obtain ⟨flushed, whole, next, _, recorded, content⟩ := running.flush layout returned
      refine ⟨flushed, whole, ?_⟩
      rw [← recorded, running.content fresh, ← content]
      exact next.recovers

end Batch

end Batch

end ChuSQL.Storage.Pager
