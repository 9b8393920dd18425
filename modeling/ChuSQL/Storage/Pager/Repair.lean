import ChuSQL.Storage.Pager.Crash

/-! Pages after a crash: each reads as before the batch or as its image, save where a
page behind the end of the file was restored alone. -/

set_option autoImplicit false

namespace ChuSQL.Storage.Pager

open Library.ByteFile (Change Torn replay replay_append window readAt writeAt)

section Runs

variable {pageSize : Nat} (layout : 0 < pageSize ∧ pageSize ≤ maxPageSize)
  {store : Store} {newer : List Frame}

include layout

theorem Running.wreck (running : Running pageSize store newer) {images : List Image}
    {prepared : Bool} {disk : Disk} (wreck : Wreck pageSize store images prepared disk) :
    ∃ frames : List Frame, Whole pageSize store images prepared frames ∧
      Recovers pageSize disk (frames.foldl State.record store.wal.state)
        (replay (frames.map (Frame.change pageSize))
          (replay (newer.map (Frame.change pageSize)) store.disk.data.synced)) := by
  induction wreck with
  | crash crash => exact running.crash layout crash
  | again before interrupted ih =>
      obtain ⟨frames, whole, recovers⟩ := ih
      exact ⟨frames, whole, recovers.interrupted interrupted⟩

/-- A call that prepared its batch and writes the images. -/
theorem Running.evict (running : Running pageSize store newer) (images : List Image) :
    ∃ later, Running pageSize (store.evict images).2 later := by
  obtain ⟨frames, added, all, other⟩ := running.logged.prepare layout images
  rw [Store.evict]
  have data : (store.prepare images).2.disk.data = store.disk.data := by rw [added.disk]
  have sized := added.logged.pageSize
  refine ⟨newer ++ frames, ?_⟩
  generalize store.prepare images = prepared at *
  obtain ⟨result, next⟩ := prepared
  cases result with
  | ok value =>
      obtain ⟨same, fresh, _⟩ := all rfl
      have written : (next.writeImages images).disk.data.unsynced =
          (newer ++ frames).map (Frame.change pageSize) := by
        change next.disk.data.unsynced ++ images.map (imageChange next.wal.state.pageSize) = _
        rw [data, sized, running.exact fresh, ← same, ← map_change, List.map_append]
      refine ⟨?_, written ▸ List.prefix_rfl, fun _ => written⟩
      exact ⟨added.logged.journalled.onDisk rfl rfl, added.logged.state, added.logged.pending,
        added.logged.lsn⟩
  | error error =>
      refine ⟨added.logged, ?_, ?_⟩
      · change next.disk.data.unsynced <+: _
        rw [data, List.map_append]
        exact running.behind.trans (List.prefix_append _ _)
      · intro usable
        obtain ⟨fresh, returned | none⟩ := other usable
        · cases returned
        · change next.disk.data.unsynced = _
          rw [data, none, List.append_nil, running.exact fresh]

theorem Reachable.running (reachable : Reachable pageSize store) :
    ∃ newer, Running pageSize store newer := by
  induction reachable with
  | create content opened =>
      have recovers : Recovers pageSize ⟨⟨content, []⟩, none, []⟩ ⟨1, pageSize, 0, fun _ => none⟩
          content := ⟨[], [], [], Journalled.clean rfl rfl nofun rfl, rfl, rfl, rfl⟩
      obtain ⟨next, opens, _, _, running, _⟩ := recovers.open
      cases opens.symm.trans opened
      exact ⟨[], running⟩
  | setLsn before small ih =>
      obtain ⟨newer, running⟩ := ih
      have logged := running.logged
      exact ⟨newer, ⟨logged.journalled, logged.state, logged.pending, small⟩, running.behind,
        running.exact⟩
  | evict before images ih =>
      obtain ⟨newer, running⟩ := ih
      exact running.evict layout images
  | @flush store before images ih =>
      obtain ⟨newer, running⟩ := ih
      cases returned : (store.prepare images).1 with
      | ok value =>
          obtain ⟨_, _, next, _⟩ := running.flush layout returned
          exact ⟨[], next⟩
      | error error =>
          obtain ⟨later, evicted⟩ := running.evict layout images
          have same : store.flush images = store.evict images := by
            rw [Store.flush, Store.evict]
            cases prepared : store.prepare images with
            | mk result next =>
                rw [prepared] at returned
                cases returned
                rfl
          exact ⟨later, same ▸ evicted⟩
  | truncate before ih =>
      obtain ⟨newer, running⟩ := ih
      exact running.evict layout [(resetPage, [])]
  | reopen before wreck opened ih =>
      obtain ⟨newer, running⟩ := ih
      obtain ⟨_, _, recovers⟩ := running.wreck layout wreck
      obtain ⟨next, opens, _, _, after, _⟩ := recovers.open
      cases opens.symm.trans opened
      exact ⟨[], after⟩

end Runs

/-! Pages of a file after images were written over it. -/

section Pages

variable {pageSize page : Nat} {images : List Image}

theorem window_imageChange {image : Image} (sized : image.2.length = pageSize)
    (isPage : image.1 ≠ resetPage) (apart : image.1 ≠ page) (content : Bytes) :
    window ((imageChange pageSize image).apply content) (page * pageSize) pageSize =
      window content (page * pageSize) pageSize := by
  rw [imageChange, if_neg isPage]
  refine Library.ByteFile.window_writeAt_apart content ?_
  rw [sized]
  rcases Nat.lt_or_gt_of_ne apart with below | above
  · refine .inr ?_
    calc image.1 * pageSize + pageSize = (image.1 + 1) * pageSize := by rw [Nat.add_mul, Nat.one_mul]
      _ ≤ page * pageSize := Nat.mul_le_mul_right _ below
  · refine .inl ?_
    calc page * pageSize + pageSize = (page + 1) * pageSize := by rw [Nat.add_mul, Nat.one_mul]
      _ ≤ image.1 * pageSize := Nat.mul_le_mul_right _ above

/-- Images of other pages leave a page and only lengthen the file. -/
theorem replay_apart
    (apart : ∀ image ∈ images, image.1 ≠ page ∧ image.1 ≠ resetPage ∧ image.2.length = pageSize)
    (content : Bytes) :
    window (replay (images.map (imageChange pageSize)) content) (page * pageSize) pageSize =
        window content (page * pageSize) pageSize ∧
      content.length ≤ (replay (images.map (imageChange pageSize)) content).length := by
  induction images generalizing content with
  | nil => exact ⟨rfl, le_rfl⟩
  | cons image images ih =>
      obtain ⟨other, isPage, sized⟩ := apart image List.mem_cons_self
      obtain ⟨same, longer⟩ := ih (fun next member => apart next (List.mem_cons_of_mem _ member))
        ((imageChange pageSize image).apply content)
      have kept : imageChange pageSize image ≠ .clear := by
        rw [imageChange, if_neg isPage]
        intro same
        cases same
      exact ⟨same.trans (window_imageChange sized isPage other content),
        (Library.ByteFile.length_le_apply kept content).trans longer⟩

/-- The last image of a page is read back. -/
theorem readAt_image (positive : 0 < pageSize) {before after : List Image} {bytes : Bytes} (isPage : page ≠ resetPage)
    (sized : bytes.length = pageSize)
    (apart : ∀ image ∈ after, image.1 ≠ page ∧ image.1 ≠ resetPage ∧ image.2.length = pageSize)
    (content : Bytes) :
    readAt (replay ((before ++ (page, bytes) :: after).map (imageChange pageSize)) content)
      (page * pageSize) pageSize = some bytes := by
  rw [List.map_append, List.map_cons, replay_append, Library.ByteFile.replay_cons]
  generalize replay (before.map (imageChange pageSize)) content = earlier
  have written : (imageChange pageSize (page, bytes)).apply earlier =
      writeAt earlier (page * pageSize) bytes := by
    rw [imageChange, if_neg isPage]
    rfl
  rw [written]
  obtain ⟨same, longer⟩ := replay_apart apart
    (writeAt earlier (page * pageSize) bytes)
  have reaches : page * pageSize + pageSize ≤
      (writeAt earlier (page * pageSize) bytes).length := by
    have filled : bytes.isEmpty = false := by
      cases bytes with
      | nil => exact absurd sized positive.ne
      | cons byte bytes => rfl
    rw [Library.ByteFile.writeAt_length, Change.stop, filled, sized]
    exact le_max_right _ _
  rw [readAt, if_pos (reaches.trans longer), same, ← sized,
    Library.ByteFile.window_writeAt_same]

/-- A page without an image reads as before, or with zeros behind the old end of the
file when a page behind it was written. -/
theorem readAt_apart (positive : 0 < pageSize)
    (apart : ∀ image ∈ images, image.1 ≠ page ∧ image.1 ≠ resetPage ∧ image.2.length = pageSize)
    (content : Bytes) :
    let written := replay (images.map (imageChange pageSize)) content
    readAt written (page * pageSize) pageSize = readAt content (page * pageSize) pageSize ∨
      readAt content (page * pageSize) pageSize = none ∧
      readAt written (page * pageSize) pageSize =
        some (window content (page * pageSize) pageSize) ∧
      ∃ image ∈ images, page < image.1 := by
  intro written
  obtain ⟨same, longer⟩ := replay_apart apart content
  by_cases inside : page * pageSize + pageSize ≤ content.length
  · refine .inl ?_
    rw [readAt, readAt, if_pos (inside.trans longer), if_pos inside, same]
  · by_cases reached : page * pageSize + pageSize ≤ written.length
    · refine .inr ⟨if_neg inside, ?_, ?_⟩
      · rw [readAt, if_pos reached, same]
      · by_contra none
        have bound : written.length ≤ page * pageSize + pageSize - 1 := by
          have kept : .clear ∉ images.map (imageChange pageSize) := by
            intro cleared
            obtain ⟨image, member, change⟩ := List.mem_map.mp cleared
            rw [imageChange, if_neg (apart image member).2.1] at change
            cases change
          refine (Library.ByteFile.replay_kept kept content).2.1.trans
            (Library.ByteFile.reach_le (by omega) ?_)
          intro change member
          obtain ⟨image, within, rfl⟩ := List.mem_map.mp member
          obtain ⟨other, isPage, sized⟩ := apart image within
          have before : image.1 < page := by
            rcases Nat.lt_or_gt_of_ne other with below | above
            · exact below
            · exact absurd ⟨image, within, above⟩ none
          have stops : image.1 * pageSize + pageSize ≤ page * pageSize := by
            calc image.1 * pageSize + pageSize = (image.1 + 1) * pageSize := by
                  rw [Nat.add_mul, Nat.one_mul]
              _ ≤ page * pageSize := Nat.mul_le_mul_right _ before
          rw [imageChange, if_neg isPage, Change.stop, sized]
          split
          · exact Nat.zero_le _
          · exact stops.trans (Nat.le_sub_one_of_lt (Nat.lt_add_of_pos_right positive))
        omega
    · refine .inl ?_
      rw [readAt, readAt, if_neg reached, if_neg inside]

end Pages

/-- A page file that was opened after a crash, against the file before the batch: `done`
are the images whose frames were whole in the journal. -/
structure Repaired (store : Store) (done : List Image) (next : Store) : Prop where
  pages : (∀ image ∈ done, image.1 ≠ resetPage) → ∀ page,
    next.readRaw page = store.readRaw page ∨
    (∃ bytes, (page, bytes) ∈ done ∧ next.readRaw page = .ok bytes) ∨
    (store.readRaw page = .error ⟨.unexpectedEof, "failed to fill whole buffer"⟩ ∧
      next.readRaw page = .ok (window store.disk.data.content
        (page * store.wal.state.pageSize) store.wal.state.pageSize) ∧
      ∃ image ∈ done, page < image.1)
  images : ∀ before page bytes after, done = before ++ (page, bytes) :: after → page ≠ resetPage →
    (∀ image ∈ after, image.1 ≠ page ∧ image.1 ≠ resetPage) → next.readRaw page = .ok bytes
  reset : ∀ before after, done = before ++ (resetPage, []) :: after →
    (∀ image ∈ after, image.1 ≠ resetPage) → ∀ page bytes, next.readRaw page = .ok bytes →
    (page, bytes) ∈ after ∨
      bytes = List.replicate store.wal.state.pageSize 0 ∧ ∃ image ∈ after, page < image.1
  sequence : store.wal.state.sequence ≤ next.wal.state.sequence
  versions : (∀ image ∈ done, image.1 ≠ resetPage) → ∀ page lsn, store.pageLsn page = some lsn →
    ∃ later, next.pageLsn page = some later ∧ lsn ≤ later

/-- Behind a reset nothing of the earlier file is left. -/
theorem replay_reset {pageSize : Nat} {done before after : List Image} (split : done = before ++ (resetPage, []) :: after)
    (content : Bytes) :
    replay (done.map (imageChange pageSize)) content =
      replay (after.map (imageChange pageSize)) [] := by
  rw [split, List.map_append, replay_append, List.map_cons, Library.ByteFile.replay_cons]
  rfl

section Reads

variable {pageSize : Nat} (positive : 0 < pageSize) {done : List Image}
  (accepted : ∀ image ∈ done, Store.refuses pageSize image = false)

include positive accepted

theorem accepted_sized {image : Image} (member : image ∈ done) (isPage : image.1 ≠ resetPage) :
    image.2.length = pageSize := by
  rcases accepted_iff.mp (accepted image member) with ⟨isReset, _⟩ | ⟨_, sized, _⟩
  · exact absurd isReset isPage
  · exact sized

theorem readAt_last {before after : List Image} {page : Nat} {bytes : Bytes}
    (split : done = before ++ (page, bytes) :: after) (isPage : page ≠ resetPage)
    (last : ∀ image ∈ after, image.1 ≠ page ∧ image.1 ≠ resetPage) (content : Bytes) :
    readAt (replay (done.map (imageChange pageSize)) content) (page * pageSize) pageSize =
      some bytes := by
  subst split
  refine readAt_image positive isPage
    (accepted_sized positive accepted (List.mem_append_right _ List.mem_cons_self) isPage) ?_ content
  intro image member
  exact ⟨(last image member).1, (last image member).2, accepted_sized positive accepted
    (List.mem_append_right _ (List.mem_cons_of_mem _ member)) (last image member).2⟩

/-- Without a reset a page reads as before, as one of its images, or as a hole. -/
theorem readAt_kept (kept : ∀ image ∈ done, image.1 ≠ resetPage) (content : Bytes) (page : Nat) :
    let written := replay (done.map (imageChange pageSize)) content
    readAt written (page * pageSize) pageSize = readAt content (page * pageSize) pageSize ∨
      (∃ bytes, (page, bytes) ∈ done ∧ readAt written (page * pageSize) pageSize = some bytes) ∨
      (readAt content (page * pageSize) pageSize = none ∧
        readAt written (page * pageSize) pageSize =
          some (window content (page * pageSize) pageSize) ∧
        ∃ image ∈ done, page < image.1) := by
  intro written
  by_cases imaged : ∃ image ∈ done, image.1 = page
  · obtain ⟨before, image, after, split, same, last⟩ := Library.exists_last imaged
    obtain ⟨id, bytes⟩ := image
    subst same
    have member : (id, bytes) ∈ done := split ▸ List.mem_append_right _ List.mem_cons_self
    have inAfter : ∀ other ∈ after, other ∈ done := fun other inside =>
      split ▸ List.mem_append_right _ (List.mem_cons_of_mem _ inside)
    refine .inr (.inl ⟨bytes, member, ?_⟩)
    exact readAt_last positive accepted split (kept _ member)
      (fun other inside => ⟨last other inside, kept other (inAfter other inside)⟩) content
  · have apart : ∀ image ∈ done,
        image.1 ≠ page ∧ image.1 ≠ resetPage ∧ image.2.length = pageSize := fun image member =>
      ⟨fun same => imaged ⟨image, member, same⟩, kept image member,
        accepted_sized positive accepted member (kept image member)⟩
    rcases readAt_apart positive apart content with same | hole
    · exact .inl same
    · exact .inr (.inr hole)

end Reads

theorem readExact_ok {result : Option Bytes} {bytes : Bytes} :
    readExact result = .ok bytes ↔ result = some bytes := by
  cases result with
  | none => exact ⟨nofun, nofun⟩
  | some found => exact ⟨fun same => by cases same; rfl, fun same => by cases same; rfl⟩

theorem Whole.repaired {pageSize : Nat} {store next : Store} {images : List Image}
    {prepared : Bool} {frames : List Frame} (whole : Whole pageSize store images prepared frames)
    (positive : 0 < pageSize) (sized : store.wal.state.pageSize = pageSize)
    (state : next.wal.state = frames.foldl State.record store.wal.state)
    (content : next.disk.data.content =
      replay ((frames.map Frame.image).map (imageChange pageSize)) store.disk.data.content) :
    Repaired store (frames.map Frame.image) next := by
  have accepted : ∀ image ∈ frames.map Frame.image, Store.refuses pageSize image = false := by
    intro image member
    obtain ⟨frame, inside, rfl⟩ := List.mem_map.mp member
    exact (whole.fits frame inside).image
  have sizedNext : next.wal.state.pageSize = pageSize := by
    rw [state, State.foldl_record_pageSize, sized]
  have read : ∀ page, next.readRaw page = readExact (readAt
      (replay ((frames.map Frame.image).map (imageChange pageSize)) store.disk.data.content)
      (page * pageSize) pageSize) := by
    intro page
    rw [Store.readRaw, content, sizedNext]
  have before : ∀ page, store.readRaw page =
      readExact (readAt store.disk.data.content (page * pageSize) pageSize) := by
    intro page
    rw [Store.readRaw, sized]
  refine ⟨?_, ?_, ?_, ?_, ?_⟩
  · intro kept page
    rw [read, before, sized]
    rcases readAt_kept positive accepted kept store.disk.data.content page with
      same | ⟨bytes, member, found⟩ | ⟨absent, hole, behind⟩
    · exact .inl (congrArg readExact same)
    · exact .inr (.inl ⟨bytes, member, congrArg readExact found⟩)
    · exact .inr (.inr ⟨congrArg readExact absent, congrArg readExact hole, behind⟩)
  · intro earlier page bytes after split isPage last
    rw [read]
    exact congrArg readExact (readAt_last positive accepted split isPage last _)
  · intro earlier after split kept page bytes found
    rw [read, readExact_ok, replay_reset split] at found
    rw [sized]
    have behind : ∀ image ∈ after, Store.refuses pageSize image = false := fun image member =>
      accepted image (split ▸ List.mem_append_right _ (List.mem_cons_of_mem _ member))
    have unread : readAt ([] : Bytes) (page * pageSize) pageSize = none :=
      if_neg (by rw [List.length_nil]; omega)
    rcases readAt_kept positive behind kept [] page with
      same | ⟨image, member, written⟩ | ⟨_, hole, covered⟩
    · rw [found, unread] at same
      cases same
    · rw [found] at written
      cases written
      exact .inl member
    · rw [found, Library.ByteFile.window_nil] at hole
      cases hole
      exact .inr ⟨rfl, covered⟩
  · rw [state, State.foldl_record_sequence]
    exact whole.increasing.le_last
  · intro kept page lsn recorded
    rw [Store.pageLsn, state]
    refine whole.rising.lsn_le ?_ recorded
    intro frame member
    exact kept frame.image (List.mem_map_of_mem member)

theorem layout_sized {pageSize order : Nat} (layout : validateLayout pageSize order = .ok ()) :
    0 < pageSize ∧ pageSize ≤ maxPageSize := by
  obtain ⟨_, small, fits⟩ := validateLayout_ok layout
  refine ⟨?_, small⟩
  simp only [BTree.fitsInPage, Bool.and_eq_true, decide_eq_true_eq] at fits
  have header : BTree.header ≤ pageSize := (Nat.le_add_right _ _).trans fits.2
  exact (Nat.succ_pos _).trans_le header

/-- A batch that crashed anywhere on its way to the checkpoint. The page file opens;
the images whose frames were whole in the journal are in it, all of them once
`prepare` had returned, and every other page is as before. -/
theorem torn_batch_repaired {pageSize order : Nat} (layout : validateLayout pageSize order = .ok ())
    {store : Store} (reachable : Reachable pageSize store) (usable : store.wal.failed = false)
    {images : List Image} {prepared : Bool} {disk : Disk}
    (wreck : Wreck pageSize store images prepared disk) :
    ∃ next done, disk.open pageSize = .ok next ∧ done <+: images ∧
      (prepared = true → done = images) ∧ Repaired store done next := by
  have sized := layout_sized layout
  obtain ⟨newer, running⟩ := reachable.running sized
  obtain ⟨frames, whole, recovers⟩ := running.wreck sized wreck
  obtain ⟨next, opens, state, content, _, _⟩ := recovers.open
  rw [running.content usable, map_change] at content
  exact ⟨next, frames.map Frame.image, opens, whole.leading, whole.all,
    whole.repaired sized.1 running.logged.pageSize state content⟩

/-- A new page file, and the frames of a batch that holds page 1 before page 0. -/
def blank : Store := Disk.load ⟨⟨[], []⟩, none, []⟩ 512

def firstFrame : Frame := ⟨1, 0, 1, List.replicate 512 1⟩
def secondFrame : Frame := ⟨2, 0, 0, List.replicate 512 2⟩

theorem blank_reachable : Reachable 512 blank := .create [] rfl

theorem firstFrame_fits : firstFrame.Fits 512 :=
  ⟨by norm_num [firstFrame], by norm_num [firstFrame], by norm_num [firstFrame],
    accepted_iff.mpr (.inr ⟨by norm_num [firstFrame, resetPage], List.length_replicate,
      by norm_num [firstFrame]⟩), List.length_replicate.trans_lt (by norm_num)⟩

theorem blank_prepare :
    (blank.prepare [firstFrame.image, secondFrame.image]).1 = .ok () ∧
    (blank.prepare [firstFrame.image, secondFrame.image]).2.disk.journal =
      firstFrame.encode ++ secondFrame.encode := by
  have first : Store.refuses 512 firstFrame.image = false := firstFrame_fits.image
  have second : Store.refuses 512 secondFrame.image = false :=
    accepted_iff.mpr (.inr ⟨by norm_num [secondFrame, Frame.image, resetPage],
      List.length_replicate, by norm_num [secondFrame, Frame.image]⟩)
  have accepted : [firstFrame.image, secondFrame.image].any
      (Store.refuses blank.wal.state.pageSize) = false := by
    change (Store.refuses 512 firstFrame.image || (Store.refuses 512 secondFrame.image || false)) = false
    rw [first, second]
    rfl
  have fresh : ¬blank.wal.failed = true := by decide
  rw [Store.prepare, if_neg fresh, accepted, if_neg (by decide)]
  exact ⟨rfl, rfl⟩

theorem torn_of_empty : Torn ([] : Bytes) [] [] := .inr ⟨le_rfl, le_rfl, fun _ _ => rfl⟩

/-- Both images are in the journal and none is written. -/
theorem torn_batch_repaired_blank :
    ∃ next done, Disk.open ⟨⟨[], []⟩, none, firstFrame.encode ++ secondFrame.encode⟩ 512 = .ok next ∧
      done <+: [firstFrame.image, secondFrame.image] ∧
      (true = true → done = [firstFrame.image, secondFrame.image]) ∧ Repaired blank done next := by
  have layout : validateLayout 512 4 = .ok () := by decide
  have crash : Crash blank [firstFrame.image, secondFrame.image] true _ :=
    .writing blank_prepare.1 (torn_of_empty.append _)
  rw [blank_prepare.2] at crash
  exact torn_batch_repaired layout blank_reachable rfl (.crash crash)

/-- The files when the crash comes behind the first frame. -/
def halfway : Disk := ⟨⟨[], []⟩, none, firstFrame.encode⟩

theorem halfway_crash : Crash blank [firstFrame.image, secondFrame.image] false halfway := by
  have crash : Crash blank [firstFrame.image, secondFrame.image] false _ :=
    .preparing firstFrame.encode.length torn_of_empty
  have cut : (firstFrame.encode ++ secondFrame.encode).take
      (blank.disk.journal.length + firstFrame.encode.length) = firstFrame.encode := by
    have none : blank.disk.journal.length = 0 := rfl
    rw [none, Nat.zero_add, List.take_left]
  rw [blank_prepare.2, cut] at crash
  exact crash

theorem halfway_journalled : Journalled 512 halfway [] [firstFrame] [] := by
  refine ⟨rfl, rfl, nofun, ?_, ?_, ⟨Nat.zero_lt_one, trivial⟩, .complete, nofun, ?_⟩
  · rw [halfway]
    simp
  · intro frame member
    exact List.mem_singleton.mp member ▸ firstFrame_fits
  · intro frame member
    exact List.mem_singleton.mp member ▸ Nat.zero_lt_one

/-- Page 0 was no page before and has no whole image in the journal, and reads as zeros
since page 1 is restored. -/
theorem restored_page_leaves_hole :
    Reachable 512 blank ∧ Crash blank [firstFrame.image, secondFrame.image] false halfway ∧
    ∃ next, halfway.open 512 = .ok next ∧ next.readRaw 0 ≠ blank.readRaw 0 ∧
      ∀ bytes, (0, bytes) ∈ [firstFrame.image, secondFrame.image] → next.readRaw 0 ≠ .ok bytes := by
  refine ⟨blank_reachable, halfway_crash, _, halfway_journalled.open, ?_⟩
  have kept : ¬halfway.journal.isEmpty := by
    rw [List.isEmpty_iff]
    exact encode_ne_nil firstFrame
  rw [if_neg kept]
  generalize opened : (rewritten 512 halfway [firstFrame]).syncData.publish.dropJournal = next
  have sized : next.wal.state.pageSize = 512 := by
    rw [← opened]
    rfl
  have isPage : firstFrame.page ≠ resetPage := by norm_num [firstFrame, resetPage]
  have content : next.disk.data.content = writeAt [] (1 * 512) (List.replicate 512 1) := by
    have written : next.disk.data.content = (firstFrame.change 512).apply [] := by
      rw [← opened]
      rfl
    rw [written, Frame.change, imageChange, if_neg isPage]
    rfl
  have zeros : next.readRaw 0 = .ok (List.replicate 512 0) := by
    have reaches : 0 * 512 + 512 ≤ (writeAt [] (1 * 512) (List.replicate 512 (1 : Byte))).length := by
      rw [Library.ByteFile.writeAt_length, Change.stop, List.isEmpty_replicate,
        List.length_replicate, if_neg (by norm_num)]
      norm_num
    rw [Store.readRaw, sized, content, readAt, if_pos reaches,
      Library.ByteFile.window_writeAt_apart _ (.inl (by norm_num)), Library.ByteFile.window_nil]
    rfl
  rw [zeros]
  refine ⟨?_, ?_⟩
  · have absent : blank.readRaw 0 = .error ⟨.unexpectedEof, "failed to fill whole buffer"⟩ := rfl
    rw [absent]
    intro same
    cases same
  · intro bytes member same
    cases same
    simp only [List.mem_cons, List.not_mem_nil, or_false, Frame.image, Prod.mk.injEq] at member
    rcases member with ⟨other, _⟩ | ⟨_, equal⟩
    · cases other
    · have head := congrArg (fun values : Bytes => values.getD 0 0) equal
      exact absurd head (by decide)

end ChuSQL.Storage.Pager
