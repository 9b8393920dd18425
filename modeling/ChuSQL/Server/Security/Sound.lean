import ChuSQL.Server.Security.Gate

/-! What the cells of a gate say about the threads, whatever each of them does next. -/

set_option autoImplicit false

namespace ChuSQL.Server.Security

open Library

/-- What the cells say about the threads. -/
structure Sound {Thread : Type} [Fintype Thread] (gate : Gate) (phase : Thread → Phase) : Prop where
  turn : Held gate.turn Phase.holdsTurn phase
  readers : Held gate.readers.isSome Phase.holdsCount phase
  stored : ∀ count, gate.readers = some count → count = population Phase.occupies phase
  held : ∀ thread count, (phase thread).counted = some count → count = population Phase.occupies phase
  room : gate.room = false ↔ 0 < population Phase.occupies phase ∨ ∃ thread, (phase thread).opens = true
  apart : ∀ thread, (phase thread).owns = true → population Phase.occupies phase = 0

namespace Sound

variable {Thread : Type} [Fintype Thread] {gate : Gate} {phase : Thread → Phase} {thread : Thread} {next : Phase}

theorem full (gate_free : gate = newGate) (away : ∀ thread, phase thread = .outside) : Sound gate phase := by
  have nobody : population Phase.occupies phase = 0 := population_zero.mpr fun thread => by rw [away]; rfl
  subst gate_free
  constructor
  · constructor
    · simp [newGate, away, Phase.holdsTurn]
    · simp [away, Phase.holdsTurn]
  · constructor
    · simp [newGate, away, Phase.holdsCount, Phase.counted]
    · simp [away, Phase.holdsCount, Phase.counted]
  · simp [newGate, nobody]
  · simp [away, Phase.counted]
  · simp [newGate, nobody, away, Phase.opens]
  · simp [away, Phase.owns]

theorem uncounted (sound : Sound gate phase) (counts : (phase thread).holdsCount = true) {other : Thread}
    (differs : other ≠ thread) : (phase other).counted = none := by
  have free := sound.readers.other counts differs
  simpa [Phase.holdsCount] using free

variable [DecidableEq Thread]

omit [Fintype Thread] in
theorem exists_keep {holds : Phase → Bool} (same : holds next = holds (phase thread)) :
    (∃ other, holds (Function.update phase thread next other) = true) ↔ ∃ other, holds (phase other) = true := by
  apply exists_congr
  intro other
  by_cases here : other = thread
  · rw [here, Function.update_self, same]
  · rw [Function.update_of_ne here]

theorem room_keep (sound : Sound gate phase) (occupies : next.occupies = (phase thread).occupies)
    (opens : next.opens = (phase thread).opens) :
    gate.room = false ↔ 0 < population Phase.occupies (Function.update phase thread next) ∨
      ∃ other, (Function.update phase thread next other).opens = true := by
  rw [population_keep occupies, exists_keep opens]
  exact sound.room

theorem apart_keep (sound : Sound gate phase) (occupies : next.occupies = (phase thread).occupies)
    (owns : next.owns = true → (phase thread).owns = true) (other : Thread)
    (writer : (Function.update phase thread next other).owns = true) :
    population Phase.occupies (Function.update phase thread next) = 0 := by
  rw [population_keep occupies]
  by_cases here : other = thread
  · rw [here, Function.update_self] at writer
    exact sound.apart thread (owns writer)
  · rw [Function.update_of_ne here] at writer
    exact sound.apart other writer

/-- A move that takes no part in the counting and leaves the room as it is. -/
theorem quiet (sound : Sound gate phase) {turn : Bool}
    (held : Held turn Phase.holdsTurn (Function.update phase thread next))
    (counted : next.counted = (phase thread).counted) (occupies : next.occupies = (phase thread).occupies)
    (opens : next.opens = (phase thread).opens) (owns : next.owns = (phase thread).owns) :
    Sound { gate with turn := turn } (Function.update phase thread next) := by
  have same := population_keep occupies
  constructor
  · exact held
  · exact sound.readers.keep (by rw [Phase.holdsCount, Phase.holdsCount, counted])
  · simpa only [same] using sound.stored
  · intro other count
    rw [same]
    by_cases here : other = thread
    · rw [here, Function.update_self, counted]
      exact sound.held thread count
    · rw [Function.update_of_ne here]
      exact sound.held other count
  · exact sound.room_keep occupies opens
  · exact sound.apart_keep occupies fun writer => owns ▸ writer

/-- A move by the one thread that counts, before or after it. -/
theorem counting (sound : Sound gate phase) {room : Bool} {readers : Option Int}
    (turn : next.holdsTurn = (phase thread).holdsTurn)
    (held : Held readers.isSome Phase.holdsCount (Function.update phase thread next))
    (alone : ∀ other, other ≠ thread → (phase other).counted = none)
    (stored : ∀ count, readers = some count ∨ next.counted = some count →
      count = population Phase.occupies (Function.update phase thread next))
    (rooms : room = false ↔ 0 < population Phase.occupies (Function.update phase thread next) ∨
      ∃ other, (Function.update phase thread next other).opens = true)
    (apart : ∀ other, (Function.update phase thread next other).owns = true →
      population Phase.occupies (Function.update phase thread next) = 0) :
    Sound { gate with room := room, readers := readers } (Function.update phase thread next) := by
  constructor
  · exact sound.turn.keep turn
  · exact held
  · exact fun count kept => stored count (.inl kept)
  · intro other count known
    by_cases here : other = thread
    · rw [here, Function.update_self] at known
      exact stored count (.inr known)
    · rw [Function.update_of_ne here, alone other here] at known
      cases known
  · exact rooms
  · exact apart

omit [DecidableEq Thread] in
/-- While `readers` is full nobody counts. -/
theorem alone (sound : Sound gate phase) {count : Int} (kept : gate.readers = some count) (other : Thread) :
    (phase other).counted = none := by
  have held := sound.readers
  rw [kept] at held
  have free := held.nobody other
  simpa [Phase.holdsCount] using free

omit [DecidableEq Thread] in
theorem unkept (sound : Sound gate phase) (thread : Thread) (counts : (phase thread).holdsCount = true) : gate.readers = none := by
  simpa using sound.readers.empty counts

/-- Beside a thread that holds the turn and is no writer in the room there is none. -/
theorem unowned (sound : Sound gate phase) (turn : (phase thread).holdsTurn = true) (reader : next.owns = false)
    (other : Thread) : (Function.update phase thread next other).owns = false := by
  by_cases here : other = thread
  · rw [here, Function.update_self, reader]
  · rw [Function.update_of_ne here]
    cases owned : (phase other).owns with
    | false => rfl
    | true => exact absurd (sound.turn.one other thread (Phase.holdsTurn_of_owns owned) turn) here

/-! ### The readers' moves -/

theorem readCount (sound : Sound gate phase) (place : phase thread = .readCount) {count : Int}
    (kept : gate.readers = some count) :
    Sound { gate with readers := none }
      (Function.update phase thread (if count = 0 then .readRoom else .readStore count)) := by
  have counts := sound.stored count kept
  have held := sound.readers
  rw [kept] at held
  split
  · rename_i empty
    apply sound.counting
    · rw [place]
      rfl
    · exact held.take rfl
    · exact fun other _ => sound.alone kept other
    · intro found known
      rw [population_keep (by rw [place]; rfl), ← counts, empty]
      cases known with
      | inl none => cases none
      | inr known => exact (Option.some.inj known).symm
    · exact sound.room_keep (by rw [place]; rfl) (by rw [place]; rfl)
    · exact sound.apart_keep (by rw [place]; rfl) (by simp [Phase.owns])
  · rename_i some
    have occupied : 0 < population Phase.occupies phase := by omega
    have same : population Phase.occupies (Function.update phase thread (.readStore count)) =
        population Phase.occupies phase := population_keep (by rw [place]; rfl)
    apply sound.counting
    · rw [place]
      rfl
    · exact held.take rfl
    · exact fun other _ => sound.alone kept other
    · intro found known
      rw [same, ← counts]
      cases known with
      | inl none => cases none
      | inr known => exact (Option.some.inj known).symm
    · rw [same]
      exact iff_of_true (sound.room.mpr (.inl occupied)) (.inl occupied)
    · exact sound.apart_keep (by rw [place]; rfl) (by simp [Phase.owns])

theorem readRoom (sound : Sound gate phase) (place : phase thread = .readRoom) :
    Sound { gate with room := false } (Function.update phase thread (.readStore 0)) := by
  have counts := sound.held thread 0 (by rw [place]; rfl)
  apply sound.counting
  · rw [place]
    rfl
  · exact sound.readers.keep (by rw [place]; rfl)
  · exact fun other differs => sound.uncounted (by rw [place]; rfl) differs
  · intro found known
    rw [population_keep (by rw [place]; rfl), ← counts]
    cases known with
    | inl kept =>
        rw [sound.unkept thread (by rw [place]; rfl)] at kept
        cases kept
    | inr known => exact (Option.some.inj known).symm
  · exact iff_of_true rfl (.inr ⟨thread, by simp [Phase.opens]⟩)
  · exact sound.apart_keep (by rw [place]; rfl) (by simp [Phase.owns])

theorem readStore (sound : Sound gate phase) {count : Int} (place : phase thread = .readStore count) :
    Sound { gate with readers := some (count + 1) } (Function.update phase thread .readYield) := by
  have counts := sound.held thread count (by rw [place]; rfl)
  have more : population Phase.occupies (Function.update phase thread .readYield) =
      population Phase.occupies phase + 1 := population_add (by rw [place]; rfl) rfl
  apply sound.counting
  · rw [place]
    rfl
  · exact sound.readers.put (by rw [place]; rfl) rfl
  · exact fun other differs => sound.uncounted (by rw [place]; rfl) differs
  · intro found known
    rw [more]
    cases known with
    | inl kept =>
        have same := Option.some.inj kept
        omega
    | inr known => cases known
  · have taken : gate.room = false := sound.room.mpr (.inr ⟨thread, by rw [place]; rfl⟩)
    exact iff_of_true taken (.inl (by omega))
  · intro other owned
    rw [sound.unowned (by rw [place]; rfl) rfl] at owned
    cases owned

theorem leaveCount (sound : Sound gate phase) (place : phase thread = .leaveCount) {count : Int}
    (kept : gate.readers = some count) :
    Sound { gate with readers := none }
      (Function.update phase thread (if count = 1 then .leaveRoom else .leaveStore count)) := by
  have counts := sound.stored count kept
  have inside : 0 < population Phase.occupies phase := population_pos.mpr ⟨thread, by rw [place]; rfl⟩
  have taken : gate.room = false := sound.room.mpr (.inl inside)
  have held := sound.readers
  rw [kept] at held
  split
  · rename_i last
    apply sound.counting
    · rw [place]
      rfl
    · exact held.take rfl
    · exact fun other _ => sound.alone kept other
    · intro found known
      rw [population_keep (by rw [place]; rfl), ← counts, last]
      cases known with
      | inl none => cases none
      | inr known => exact (Option.some.inj known).symm
    · exact sound.room_keep (by rw [place]; rfl) (by rw [place]; rfl)
    · exact sound.apart_keep (by rw [place]; rfl) (by simp [Phase.owns])
  · rename_i more
    have fewer : population Phase.occupies (Function.update phase thread (.leaveStore count)) + 1 =
        population Phase.occupies phase := population_remove (by rw [place]; rfl) rfl
    apply sound.counting
    · rw [place]
      rfl
    · exact held.take rfl
    · exact fun other _ => sound.alone kept other
    · intro found known
      cases known with
      | inl none => cases none
      | inr known =>
          have same := Option.some.inj known
          omega
    · exact iff_of_true taken (.inl (by omega))
    · intro other owned
      by_cases here : other = thread
      · rw [here, Function.update_self] at owned
        cases owned
      · rw [Function.update_of_ne here] at owned
        have empty := sound.apart other owned
        omega

theorem leaveRoom (sound : Sound gate phase) (place : phase thread = .leaveRoom) :
    Sound { gate with room := true } (Function.update phase thread (.leaveStore 1)) := by
  have counts := sound.held thread 1 (by rw [place]; rfl)
  have fewer : population Phase.occupies (Function.update phase thread (.leaveStore 1)) + 1 =
      population Phase.occupies phase := population_remove (by rw [place]; rfl) rfl
  apply sound.counting
  · rw [place]
    rfl
  · exact sound.readers.keep (by rw [place]; rfl)
  · exact fun other differs => sound.uncounted (by rw [place]; rfl) differs
  · intro found known
    cases known with
    | inl kept =>
        rw [sound.unkept thread (by rw [place]; rfl)] at kept
        cases kept
    | inr known =>
        have same := Option.some.inj known
        omega
  · apply iff_of_false (by simp)
    intro occupied
    cases occupied with
    | inl some => omega
    | inr open' =>
        obtain ⟨other, taken⟩ := open'
        by_cases here : other = thread
        · rw [here, Function.update_self] at taken
          cases taken
        · rw [Function.update_of_ne here] at taken
          cases Phase.owns_or_counts taken with
          | inl owned =>
              have empty := sound.apart other owned
              omega
          | inr counts => exact here (sound.readers.one other thread counts (by rw [place]; rfl))
  · intro other owned
    omega

theorem leaveStore (sound : Sound gate phase) {count : Int} (place : phase thread = .leaveStore count) :
    Sound { gate with readers := some (count - 1) } (Function.update phase thread .outside) := by
  have counts := sound.held thread (count - 1) (by rw [place]; rfl)
  apply sound.counting
  · rw [place]
    rfl
  · exact sound.readers.put (by rw [place]; rfl) rfl
  · exact fun other differs => sound.uncounted (by rw [place]; rfl) differs
  · intro found known
    rw [population_keep (by rw [place]; rfl), ← counts]
    cases known with
    | inl kept => exact (Option.some.inj kept).symm
    | inr known => cases known
  · exact sound.room_keep (by rw [place]; rfl) (by rw [place]; rfl)
  · exact sound.apart_keep (by rw [place]; rfl) (by simp [Phase.owns])

theorem cancelCount (sound : Sound gate phase) (place : phase thread = .cancelCount) :
    Sound { gate with readers := some 0 } (Function.update phase thread .cancelTurn) := by
  have counts := sound.held thread 0 (by rw [place]; rfl)
  apply sound.counting
  · rw [place]
    rfl
  · exact sound.readers.put (by rw [place]; rfl) rfl
  · exact fun other differs => sound.uncounted (by rw [place]; rfl) differs
  · intro found known
    rw [population_keep (by rw [place]; rfl), ← counts]
    cases known with
    | inl kept => exact (Option.some.inj kept).symm
    | inr known => cases known
  · exact sound.room_keep (by rw [place]; rfl) (by rw [place]; rfl)
  · exact sound.apart_keep (by rw [place]; rfl) (by simp [Phase.owns])

/-! ### The writer's moves -/

theorem writing (sound : Sound gate phase) {room : Bool} (turn : next.holdsTurn = (phase thread).holdsTurn)
    (counted : next.counted = (phase thread).counted) (occupies : next.occupies = (phase thread).occupies)
    (empty : population Phase.occupies phase = 0)
    (taken : room = false ↔ ∃ other, (Function.update phase thread next other).opens = true) :
    Sound { gate with room := room } (Function.update phase thread next) := by
  have same := population_keep occupies
  constructor
  · exact sound.turn.keep turn
  · exact sound.readers.keep (by rw [Phase.holdsCount, Phase.holdsCount, counted])
  · simpa only [same] using sound.stored
  · intro other count
    rw [same]
    by_cases here : other = thread
    · rw [here, Function.update_self, counted]
      exact sound.held thread count
    · rw [Function.update_of_ne here]
      exact sound.held other count
  · rw [same, empty]
    simpa using taken
  · exact fun _ _ => same.trans empty

theorem writeRoom (sound : Sound gate phase) (place : phase thread = .writeRoom) (free : gate.room = true) :
    Sound { gate with room := false } (Function.update phase thread .writing) := by
  have empty : population Phase.occupies phase = 0 := by
    by_contra some
    rw [sound.room.mpr (.inl (Nat.pos_of_ne_zero some))] at free
    cases free
  apply sound.writing
  · rw [place]
    rfl
  · rw [place]
    rfl
  · rw [place]
    rfl
  · exact empty
  · exact iff_of_true rfl ⟨thread, by simp [Phase.opens]⟩

theorem writeLeaveRoom (sound : Sound gate phase) (place : phase thread = .writeLeaveRoom) :
    Sound { gate with room := true } (Function.update phase thread .writeLeaveTurn) := by
  apply sound.writing
  · rw [place]
    rfl
  · rw [place]
    rfl
  · rw [place]
    rfl
  · exact sound.apart thread (by rw [place]; rfl)
  · apply iff_of_false (by simp)
    intro open'
    obtain ⟨other, taken⟩ := open'
    by_cases here : other = thread
    · rw [here, Function.update_self] at taken
      cases taken
    · rw [Function.update_of_ne here] at taken
      exact here (sound.turn.one other thread (Phase.holdsTurn_of_opens taken) (by rw [place]; rfl))

/-! ### Every move -/

theorem advance (sound : Sound gate phase) {after : Gate}
    (moved : gate.advance (phase thread) = some (after, next)) : Sound after (Function.update phase thread next) := by
  cases place : phase thread with
  | outside | reading | lost | writing =>
      rw [place] at moved
      cases moved
  | readTurn | writeTurn =>
      simp only [place, Gate.advance, Option.map_eq_some_iff, Gate.takeTurn_eq_some, Prod.mk.injEq] at moved
      obtain ⟨_, ⟨free, rfl⟩, rfl, rfl⟩ := moved
      have held := sound.turn
      rw [free] at held
      exact sound.quiet (held.take rfl) (by rw [place]; rfl) (by rw [place]; rfl) (by rw [place]; rfl) (by rw [place]; rfl)
  | readYield | cancelTurn | writeLeaveTurn =>
      simp only [place, Gate.advance, Option.map_eq_some_iff, Gate.putTurn_eq_some, Prod.mk.injEq] at moved
      obtain ⟨_, ⟨_, rfl⟩, rfl, rfl⟩ := moved
      exact sound.quiet (sound.turn.put (by rw [place]; rfl) rfl) (by rw [place]; rfl) (by rw [place]; rfl)
        (by rw [place]; rfl) (by rw [place]; rfl)
  | readCount =>
      simp only [place, Gate.advance, Option.map_eq_some_iff, Prod.exists, Gate.takeReaders_eq_some, Prod.mk.injEq] at moved
      obtain ⟨_, count, ⟨kept, rfl⟩, rfl, rfl⟩ := moved
      exact sound.readCount place kept
  | leaveCount =>
      simp only [place, Gate.advance, Option.map_eq_some_iff, Prod.exists, Gate.takeReaders_eq_some, Prod.mk.injEq] at moved
      obtain ⟨_, count, ⟨kept, rfl⟩, rfl, rfl⟩ := moved
      exact sound.leaveCount place kept
  | readStore count =>
      simp only [place, Gate.advance, Option.map_eq_some_iff, Gate.putReaders_eq_some, Prod.mk.injEq] at moved
      obtain ⟨_, ⟨_, rfl⟩, rfl, rfl⟩ := moved
      exact sound.readStore place
  | leaveStore count =>
      simp only [place, Gate.advance, Option.map_eq_some_iff, Gate.putReaders_eq_some, Prod.mk.injEq] at moved
      obtain ⟨_, ⟨_, rfl⟩, rfl, rfl⟩ := moved
      exact sound.leaveStore place
  | cancelCount =>
      simp only [place, Gate.advance, Option.map_eq_some_iff, Gate.putReaders_eq_some, Prod.mk.injEq] at moved
      obtain ⟨_, ⟨_, rfl⟩, rfl, rfl⟩ := moved
      exact sound.cancelCount place
  | readRoom =>
      simp only [place, Gate.advance, Option.map_eq_some_iff, Gate.takeRoom_eq_some, Prod.mk.injEq] at moved
      obtain ⟨_, ⟨_, rfl⟩, rfl, rfl⟩ := moved
      exact sound.readRoom place
  | writeRoom =>
      simp only [place, Gate.advance, Option.map_eq_some_iff, Gate.takeRoom_eq_some, Prod.mk.injEq] at moved
      obtain ⟨_, ⟨free, rfl⟩, rfl, rfl⟩ := moved
      exact sound.writeRoom place free
  | leaveRoom =>
      simp only [place, Gate.advance, Option.map_eq_some_iff, Gate.putRoom_eq_some, Prod.mk.injEq] at moved
      obtain ⟨_, ⟨_, rfl⟩, rfl, rfl⟩ := moved
      exact sound.leaveRoom place
  | writeLeaveRoom =>
      simp only [place, Gate.advance, Option.map_eq_some_iff, Gate.putRoom_eq_some, Prod.mk.injEq] at moved
      obtain ⟨_, ⟨_, rfl⟩, rfl, rfl⟩ := moved
      exact sound.writeLeaveRoom place

/-- Beginning, ending and being cancelled touch no cell. -/
theorem still (sound : Sound gate phase) (turn : next.holdsTurn = (phase thread).holdsTurn)
    (counted : next.counted = (phase thread).counted) (occupies : next.occupies = (phase thread).occupies)
    (opens : next.opens = (phase thread).opens) (owns : next.owns = (phase thread).owns) :
    Sound gate (Function.update phase thread next) :=
  sound.quiet (sound.turn.keep turn) counted occupies opens owns

theorem cancel (sound : Sound gate phase) (stopped : gate.cancel (phase thread) = some next) :
    Sound gate (Function.update phase thread next) := by
  cases place : phase thread <;> rw [place] at stopped <;>
    simp only [Gate.cancel, Option.ite_none_left_eq_some, Option.some.injEq, reduceCtorEq] at stopped
  all_goals
    first
    | obtain ⟨_, rfl⟩ := stopped
    | cases stopped
    apply sound.still <;> rw [place] <;> rfl

theorem enter (sound : Sound gate phase) (exclusive : Bool) (place : phase thread = .outside) :
    Sound gate (Function.update phase thread (.enter exclusive)) := by
  cases exclusive <;> apply sound.still <;> rw [place] <;> rfl

theorem leave (sound : Sound gate phase) (left : (phase thread).leave = some next) :
    Sound gate (Function.update phase thread next) := by
  cases place : phase thread <;> rw [place] at left <;> cases left <;> apply sound.still <;> rw [place] <;> rfl

/-- Whoever writes is alone in the room. -/
theorem exclusion (sound : Sound gate phase) {writer other : Thread} (writes : phase writer = .writing)
    (differs : other ≠ writer) : phase other ≠ .writing ∧ phase other ≠ .reading := by
  constructor
  · intro again
    exact differs (sound.turn.one other writer (by rw [again]; rfl) (by rw [writes]; rfl))
  · intro reads
    have empty := sound.apart writer (by rw [writes]; rfl)
    have counted := population_zero.mp empty other
    rw [reads] at counted
    cases counted

end Sound

end ChuSQL.Server.Security
