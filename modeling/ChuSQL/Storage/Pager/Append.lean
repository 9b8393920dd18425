import ChuSQL.Storage.Pager.Recovery

/-! What `prepare` adds to a journal, and what a cut of the added bytes leaves. -/

set_option autoImplicit false

namespace ChuSQL.Storage.Pager

theorem lastSequence_append (previous : Nat) (first second : List Frame) :
    lastSequence previous (first ++ second) = lastSequence (lastSequence previous first) second :=
  List.foldl_append

theorem lastSequence_mono {low high : Nat} (le : low ≤ high) (frames : List Frame) :
    lastSequence low frames ≤ lastSequence high frames := by
  cases frames with
  | nil => exact le
  | cons frame frames => exact le_rfl

theorem increasing_append {previous : Nat} {first second : List Frame} :
    Increasing previous (first ++ second) ↔
      Increasing previous first ∧ Increasing (lastSequence previous first) second := by
  induction first generalizing previous with
  | nil => exact (and_iff_right trivial).symm
  | cons frame first ih =>
      rw [List.cons_append, Increasing, ih, Increasing, and_assoc]
      rfl

theorem Increasing.le_last {previous : Nat} {frames : List Frame}
    (increasing : Increasing previous frames) : previous ≤ lastSequence previous frames := by
  induction frames generalizing previous with
  | nil => exact le_rfl
  | cons frame frames ih => exact increasing.1.le.trans (ih increasing.2)

theorem Increasing.mem_le_last {previous : Nat} {frames : List Frame} {frame : Frame}
    (increasing : Increasing previous frames) (member : frame ∈ frames) :
    frame.sequence ≤ lastSequence previous frames := by
  induction frames generalizing previous with
  | nil => cases member
  | cons other frames ih =>
      cases member with
      | head => exact increasing.2.le_last
      | tail _ later => exact ih increasing.2 later

/-- Frames whose LSNs are not below those recorded for their pages. -/
def Rising : State → List Frame → Prop
  | _, [] => True
  | state, frame :: rest =>
      (∀ lsn ∈ state.pages frame.page, lsn ≤ frame.lsn) ∧ Rising (state.record frame) rest

theorem Rising.take {state : State} {frames : List Frame} (rising : Rising state frames) (count : Nat) :
    Rising state (frames.take count) := by
  induction frames generalizing state count with
  | nil =>
      rw [List.take_nil]
      trivial
  | cons frame frames ih =>
      cases count with
      | zero => trivial
      | succ count => exact ⟨rising.1, ih rising.2 count⟩

/-- No page version goes back while no reset is recorded. -/
theorem Rising.lsn_le {state : State} {frames : List Frame} (rising : Rising state frames)
    (kept : ∀ frame ∈ frames, frame.page ≠ resetPage) {page lsn : Nat}
    (recorded : state.pages page = some lsn) :
    ∃ later, (frames.foldl State.record state).pages page = some later ∧ lsn ≤ later := by
  induction frames generalizing state lsn with
  | nil => exact ⟨lsn, recorded, le_rfl⟩
  | cons frame frames ih =>
      have rest := fun other member => kept other (List.mem_cons_of_mem frame member)
      rw [List.foldl_cons]
      by_cases same : page = frame.page
      · have renewed : (state.record frame).pages page = some frame.lsn := by
          rw [State.record_pages (kept frame List.mem_cons_self), same, Function.update_self]
        obtain ⟨later, found, above⟩ := ih rising.2 rest renewed
        exact ⟨later, found, (rising.1 lsn (by rw [← same, recorded]; rfl)).trans above⟩
      · have untouched : (state.record frame).pages page = some lsn := by
          rw [State.record_pages (kept frame List.mem_cons_self), Function.update_of_ne same,
            recorded]
        exact ih rising.2 rest untouched

/-- Cut frames are whole frames and the end of a journal. -/
theorem take_encoded {pageSize previous : Nat} {frames : List Frame}
    (fits : ∀ frame ∈ frames, frame.Fits pageSize) (increasing : Increasing previous frames)
    (cut : Nat) :
    ∃ count tail, (frames.flatMap Frame.encode).take cut =
        (frames.take count).flatMap Frame.encode ++ tail ∧
      Tail pageSize (lastSequence previous (frames.take count)) tail := by
  induction frames generalizing previous cut with
  | nil => exact ⟨0, [], by simp, .complete⟩
  | cons frame frames ih =>
      by_cases inside : cut < frame.encode.length
      · refine ⟨0, frame.encode.take cut, ?_, ?_⟩
        · rw [List.flatMap_cons, List.take_append_of_le_length inside.le]
          rfl
        · exact .cut cut (fits frame List.mem_cons_self) increasing.1 inside
      · obtain ⟨count, tail, split, torn⟩ := ih
          (fun other member => fits other (List.mem_cons_of_mem _ member)) increasing.2
          (cut - frame.encode.length)
        refine ⟨count + 1, tail, ?_, torn⟩
        rw [List.flatMap_cons, List.take_append, List.take_of_length_le (by omega), split,
          List.take_succ_cons, List.flatMap_cons, List.append_assoc]

theorem Journalled.later {pageSize : Nat} {disk : Disk} {published newer : List Frame} {tail : Bytes}
    (journalled : Journalled pageSize disk published newer tail) :
    Increasing (disk.state pageSize).sequence newer := by
  have increasing := (increasing_append.mp journalled.increasing).2
  cases newer with
  | nil => trivial
  | cons first rest => exact ⟨journalled.above first List.mem_cons_self, increasing.2⟩

/-- The journal of an open page file and the state kept beside it. -/
structure Logged (pageSize : Nat) (store : Store) (newer : List Frame) : Prop where
  journalled : Journalled pageSize store.disk [] newer []
  state : store.wal.state = newer.foldl State.record (store.disk.state pageSize)
  pending : store.wal.pending = false → newer = []
  lsn : store.wal.lsn < 2 ^ 64

theorem Logged.pageSize {pageSize : Nat} {store : Store} {newer : List Frame}
    (logged : Logged pageSize store newer) : store.wal.state.pageSize = pageSize := by
  rw [logged.state, State.foldl_record_pageSize, logged.journalled.sized]

theorem Logged.versions {pageSize : Nat} {store : Store} {newer : List Frame}
    (logged : Logged pageSize store newer) :
    ∀ page, ∀ lsn ∈ store.wal.state.pages page, lsn < 2 ^ 64 := by
  rw [logged.state]
  exact State.foldl_record_versions logged.journalled.fits logged.journalled.versions

theorem Logged.setFailed {pageSize : Nat} {store : Store} {newer : List Frame}
    (logged : Logged pageSize store newer) (failed : Bool) :
    Logged pageSize (store.setFailed failed) newer :=
  ⟨logged.journalled, logged.state, logged.pending, logged.lsn⟩

def Frame.image (frame : Frame) : Image := (frame.page, frame.bytes)

/-- What a run of `prepare` adds: a frame for each of the first images, for all of
them when it returns Ok. -/
structure Added (pageSize : Nat) (store next : Store) (newer frames : List Frame)
    (images : List Image) : Prop where
  logged : Logged pageSize next (newer ++ frames)
  disk : next.disk = { store.disk with
    journal := store.disk.journal ++ frames.flatMap Frame.encode }
  images : frames.map Frame.image <+: images
  rising : Rising store.wal.state frames
  increasing : Increasing store.wal.state.sequence frames

theorem Added.fits {pageSize : Nat} {store next : Store} {newer frames : List Frame}
    {images : List Image} (added : Added pageSize store next newer frames images) :
    ∀ frame ∈ frames, frame.Fits pageSize := fun frame member =>
  added.logged.journalled.fits frame (List.mem_append_right _ (List.mem_append_right _ member))

/-- The state in memory follows the added frames. -/
theorem Added.state {pageSize : Nat} {store next : Store} {newer frames : List Frame}
    {images : List Image} (added : Added pageSize store next newer frames images)
    (logged : Logged pageSize store newer) :
    next.wal.state = frames.foldl State.record store.wal.state := by
  have metadata : next.disk.state pageSize = store.disk.state pageSize := by
    rw [Disk.state, Disk.state, added.disk]
  rw [added.logged.state, metadata, List.foldl_append, ← logged.state]

section Append

variable {pageSize : Nat} (layout : 0 < pageSize ∧ pageSize ≤ maxPageSize)
  {store : Store} {newer : List Frame}

include layout

theorem Logged.fits (logged : Logged pageSize store newer) {image : Image} {frame : Frame}
    (accepted : Store.refuses pageSize image = false) (next : store.nextFrame image = .ok frame) :
    frame.Fits pageSize ∧ frame.image = image ∧
      frame.sequence = store.wal.state.sequence + 1 ∧
      ∀ lsn ∈ store.wal.state.pages frame.page, lsn ≤ frame.lsn := by
  unfold Store.nextFrame at next
  split at next
  · rename_i room
    cases next
    have known : (store.wal.state.pages image.1).getD 0 < 2 ^ 64 := by
      cases recorded : store.wal.state.pages image.1 with
      | none => norm_num
      | some lsn => exact logged.versions image.1 lsn recorded
    have bounds : image.1 < 2 ^ 64 ∧ image.2.length < 2 ^ 32 := by
      rcases accepted_iff.mp accepted with ⟨isReset, empty⟩ | ⟨_, sized, addressed⟩
      · rw [isReset, empty, resetPage]
        norm_num
      · have wide : image.1 ≤ image.1 * pageSize := Nat.le_mul_of_pos_right _ layout.1
        have small : image.2.length ≤ 65536 := sized.trans_le layout.2
        exact ⟨wide.trans_lt addressed, small.trans_lt (by norm_num)⟩
    refine ⟨⟨room, max_lt logged.lsn known, bounds.1, accepted, bounds.2⟩, rfl, rfl, ?_⟩
    intro lsn recorded
    have value : (store.wal.state.pages image.1).getD 0 = lsn := by
      rw [Option.mem_def.mp recorded, Option.getD_some]
    exact value ▸ le_max_right _ _
  · cases next

theorem Logged.append (logged : Logged pageSize store newer) {image : Image} {frame : Frame}
    (accepted : Store.refuses pageSize image = false) (next : store.nextFrame image = .ok frame) :
    Logged pageSize (store.append frame) (newer ++ [frame]) := by
  obtain ⟨fits, _, numbered, _⟩ := logged.fits layout accepted next
  have journalled := logged.journalled
  have reached : store.wal.state.sequence =
      lastSequence (store.disk.state pageSize).sequence newer := by
    rw [logged.state, State.foldl_record_sequence]
  have above : (store.disk.state pageSize).sequence < frame.sequence := by
    have below := journalled.later.le_last
    omega
  refine ⟨⟨journalled.version, journalled.sized, journalled.versions, ?_, ?_, ?_, .complete, nofun,
    ?_⟩, ?_, nofun, logged.lsn⟩
  · have written := journalled.journal
    simp only [List.nil_append, List.append_nil, List.flatMap_append, List.flatMap_singleton,
      Store.append] at written ⊢
    rw [written]
  · intro other member
    rw [List.nil_append] at member
    rcases List.mem_append.mp member with before | added
    · exact journalled.fits other before
    · exact List.mem_singleton.mp added ▸ fits
  · rw [List.nil_append]
    refine increasing_append.mpr ⟨journalled.increasing, ?_, trivial⟩
    have below := lastSequence_mono (Nat.zero_le (store.disk.state pageSize).sequence) newer
    omega
  · intro other member
    rcases List.mem_append.mp member with before | added
    · exact journalled.above other before
    · exact List.mem_singleton.mp added ▸ above
  · rw [List.foldl_append]
    exact congrArg (State.record · frame) logged.state

theorem Logged.appendAll (logged : Logged pageSize store newer) {images : List Image}
    (accepted : ∀ image ∈ images, Store.refuses pageSize image = false) :
    ∃ frames, Added pageSize store (store.appendAll images).2 newer frames images ∧
      ((store.appendAll images).1 = .ok () → frames.map Frame.image = images) ∧
      (store.appendAll images).2.wal.failed = store.wal.failed := by
  induction images generalizing store newer with
  | nil =>
      refine ⟨[], ⟨?_, ?_, List.prefix_rfl, trivial, trivial⟩, fun _ => rfl, rfl⟩
      · rw [List.append_nil]
        exact logged
      · simp [Store.appendAll]
  | cons image images ih =>
      rw [Store.appendAll]
      cases next : store.nextFrame image with
      | error error =>
          refine ⟨[], ⟨?_, ?_, List.nil_prefix, trivial, trivial⟩, nofun, rfl⟩
          · rw [List.append_nil]
            exact logged
          · simp
      | ok frame =>
          have here := accepted image List.mem_cons_self
          obtain ⟨fits, same, numbered, newest⟩ := logged.fits layout here next
          obtain ⟨frames, added, all, failed⟩ := ih (logged.append layout here next)
            fun other member => accepted other (List.mem_cons_of_mem _ member)
          refine ⟨frame :: frames, ⟨?_, ?_, ?_, ⟨newest, added.rising⟩, ?_, added.increasing⟩,
            ?_, failed⟩
          · have later := added.logged
            rwa [List.append_assoc] at later
          · refine added.disk.trans ?_
            simp only [Store.append, List.flatMap_cons, List.append_assoc]
          · rw [List.map_cons, same]
            exact (List.prefix_cons_inj image).mpr added.images
          · omega
          · intro returned
            rw [List.map_cons, same, all returned]

theorem Logged.prepare (logged : Logged pageSize store newer) (images : List Image) :
    ∃ frames, Added pageSize store (store.prepare images).2 newer frames images ∧
      ((store.prepare images).1 = .ok () →
        frames.map Frame.image = images ∧ store.wal.failed = false ∧
          (store.prepare images).2.wal.failed = false) ∧
      ((store.prepare images).2.wal.failed = false → store.wal.failed = false ∧
        ((store.prepare images).1 = .ok () ∨ frames = [])) := by
  have unchanged : Added pageSize store store newer [] images := by
    refine ⟨?_, ?_, List.nil_prefix, trivial, trivial⟩
    · rw [List.append_nil]
      exact logged
    · simp
  unfold Store.prepare
  by_cases failed : store.wal.failed
  · rw [if_pos failed]
    exact ⟨[], unchanged, nofun, fun fresh => absurd (failed.symm.trans fresh) (by decide)⟩
  rw [if_neg failed]
  have fresh : store.wal.failed = false := by simpa using failed
  by_cases refused : images.any (Store.refuses store.wal.state.pageSize)
  · rw [if_pos refused]
    exact ⟨[], unchanged, nofun, fun _ => ⟨fresh, .inr rfl⟩⟩
  rw [if_neg refused]
  by_cases none : images.isEmpty
  · rw [if_pos none]
    exact ⟨[], unchanged, fun _ => ⟨(List.isEmpty_iff.mp none).symm, fresh, fresh⟩,
      fun _ => ⟨fresh, .inr rfl⟩⟩
  rw [if_neg none]
  have accepted : ∀ image ∈ images, Store.refuses pageSize image = false := by
    intro image member
    rw [logged.pageSize, List.any_eq_true, not_exists] at refused
    simpa [member] using refused image
  obtain ⟨frames, added, all, kept⟩ := (logged.setFailed true).appendAll layout accepted
  cases ran : (store.setFailed true).appendAll images with
  | mk result next =>
      rw [ran] at added all kept
      cases result with
      | error error =>
          exact ⟨frames, ⟨added.logged, added.disk, added.images, added.rising, added.increasing⟩,
            nofun, fun fresh => Bool.noConfusion (show true = false from kept.symm.trans fresh)⟩
      | ok value =>
          cases value
          exact ⟨frames, ⟨added.logged.setFailed false, added.disk, added.images, added.rising,
            added.increasing⟩, fun _ => ⟨all rfl, fresh, rfl⟩, fun _ => ⟨fresh, .inl rfl⟩⟩

end Append

end ChuSQL.Storage.Pager
