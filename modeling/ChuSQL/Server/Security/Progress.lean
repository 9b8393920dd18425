import ChuSQL.Server.Security.Exclusion

/-! No thread waits for ever: the gates are taken in one order, so some thread can always go
on, and any world without a lost count leads to one in which every request is done. -/

set_option autoImplicit false

namespace ChuSQL.Server.Security

open Library

/-! ### Who waits for whom at a gate -/

/-- Later stages do not wait for earlier ones. -/
def Phase.stage : Phase → ℕ
  | .readTurn | .writeTurn => 0
  | .readCount | .writeRoom => 1
  | .leaveCount => 2
  | _ => 3

theorem Phase.later_of_holdsTurn {phase : Phase} (holds : phase.holdsTurn = true) :
    phase.inside = true ∨ (phase.moving = true ∧ 0 < phase.stage) := by
  cases phase <;> first | cases holds; done | exact .inl rfl | exact .inr ⟨rfl, Nat.zero_lt_succ _⟩

theorem Phase.later_of_holdsCount {phase : Phase} (holds : phase.holdsCount = true) :
    phase.moving = true ∧ phase.stage = 3 := by
  cases phase <;> first | cases holds; done | exact ⟨rfl, rfl⟩

theorem Phase.later_of_occupies {phase : Phase} (holds : phase.occupies = true) :
    phase.inside = true ∨ phase = .lost ∨ (phase.moving = true ∧ 1 < phase.stage) := by
  cases phase <;>
    first | cases holds; done | exact .inl rfl | exact .inr (.inl rfl) | exact .inr (.inr ⟨rfl, by decide⟩)

section Waits

variable {Thread : Type} [Fintype Thread] {gate : Gate} {phase : Thread → Phase} {thread : Thread}

theorem Sound.room_free (sound : Sound gate phase) (turn : (phase thread).holdsTurn = true)
    (reader : (phase thread).opens = false) (empty : population Phase.occupies phase = 0) : gate.room = true := by
  cases taken : gate.room with
  | true => rfl
  | false =>
      cases sound.room.mp taken with
      | inl some => omega
      | inr opened =>
          obtain ⟨other, opened⟩ := opened
          have same := sound.turn.one other thread (Phase.holdsTurn_of_opens opened) turn
          rw [same, reader] at opened
          cases opened

/-- A thread that cannot go on at a gate waits for one that is inside, for one further on, or
for one that lost its count. -/
theorem Sound.waits (sound : Sound gate phase) (moving : (phase thread).moving = true)
    (blocked : gate.advance (phase thread) = none) :
    ∃ other, (phase other).inside = true ∨ phase other = .lost ∨
      ((phase other).moving = true ∧ (phase thread).stage < (phase other).stage) := by
  have turn_taken : gate.turn = false → (phase thread).stage = 0 → ∃ other, (phase other).inside = true ∨ phase other = .lost ∨
      ((phase other).moving = true ∧ (phase thread).stage < (phase other).stage) := by
    intro taken first
    obtain ⟨other, holds⟩ := sound.turn.empty_iff.mp taken
    rw [first]
    exact ⟨other, (Phase.later_of_holdsTurn holds).imp_right .inr⟩
  have count_taken : gate.readers = none → (phase thread).stage < 3 → ∃ other, (phase other).inside = true ∨
      phase other = .lost ∨ ((phase other).moving = true ∧ (phase thread).stage < (phase other).stage) := by
    intro taken before
    obtain ⟨other, holds⟩ := sound.readers.empty_iff.mp (by rw [taken]; rfl)
    obtain ⟨moves, last⟩ := Phase.later_of_holdsCount holds
    exact ⟨other, .inr (.inr ⟨moves, by rw [last]; exact before⟩)⟩
  cases place : phase thread with
  | outside | reading | writing | lost =>
      rw [place] at moving
      cases moving
  | readTurn | writeTurn =>
      rw [place] at turn_taken blocked
      apply turn_taken _ rfl
      simpa [Gate.advance, Gate.takeTurn] using blocked
  | readCount | leaveCount =>
      rw [place] at count_taken blocked
      apply count_taken _ (by decide)
      simpa [Gate.advance, Gate.takeReaders] using blocked
  | readRoom =>
      have empty := sound.held thread 0 (by rw [place]; rfl)
      have free := sound.room_free (by rw [place]; rfl) (by rw [place]; rfl) (by omega)
      simp [place, Gate.advance, Gate.takeRoom, free] at blocked
  | writeRoom =>
      have taken : gate.room = false := by simpa [place, Gate.advance, Gate.takeRoom] using blocked
      have some : population Phase.occupies phase ≠ 0 := by
        intro empty
        rw [sound.room_free (by rw [place]; rfl) (by rw [place]; rfl) empty] at taken
        cases taken
      obtain ⟨other, occupies⟩ := population_pos.mp (Nat.pos_of_ne_zero some)
      exact ⟨other, Phase.later_of_occupies occupies⟩
  | readStore | leaveStore | cancelCount =>
      have empty := sound.unkept thread (by rw [place]; rfl)
      simp [place, Gate.advance, Gate.putReaders, empty] at blocked
  | readYield | cancelTurn | writeLeaveTurn =>
      have empty := sound.turn.empty (by rw [place]; rfl)
      simp [place, Gate.advance, Gate.putTurn, empty] at blocked
  | leaveRoom =>
      have one := sound.held thread 1 (by rw [place]; rfl)
      have taken : gate.room = false := sound.room.mpr (.inl (by omega))
      simp [place, Gate.advance, Gate.putRoom, taken] at blocked
  | writeLeaveRoom =>
      have taken : gate.room = false := sound.room.mpr (.inr ⟨thread, by rw [place]; rfl⟩)
      simp [place, Gate.advance, Gate.putRoom, taken] at blocked

end Waits

/-! ### Some thread goes on -/

/-- No database name begins like the names of the commit gates. -/
def Request.plain : Request → Prop
  | .databaseSecurity accesses => ∀ access ∈ accesses, access.1.toList.head? ≠ some '\x00'
  | .commitSecurity current _ => current.toList.head? ≠ some '\x00'
  | .readSecurity | .writeSecurity => True

/-- One order for all requests: database names, then commit gates. -/
def commonRank (name : String) : NameRank := toLex (if name.toList.head? = some '\x00' then 1 else 0, name)

theorem fits_commonRank {request : Request} (plain : request.plain) : Fits commonRank [] ⊥ request.task := by
  have free : commonRank "" = toLex (0, "") := by decide
  apply request.fits
  · rintro accesses rfl first second one two less
    have ordinary : ∀ name, name = "" ∨ name ∈ (names accesses).map Prod.fst → commonRank name = toLex (0, name) := by
      rintro name (rfl | member)
      · exact free
      · obtain ⟨access, given, rfl⟩ := List.mem_map.mp member
        obtain ⟨_, exclusive, named⟩ := names_proper given
        rw [commonRank, if_neg (plain _ named)]
    rw [ordinary first one, ordinary second (.inr two)]
    simpa [Prod.Lex.toLex_lt_toLex] using less
  · rintro current exclusive rfl
    have ordinary : commonRank current = toLex (0, current) := by rw [commonRank, if_neg plain]
    have last : commonRank (commitName current) = toLex (1, commitName current) := by
      rw [commonRank, if_pos (by simp [commitName])]
    rw [ordinary, last, free]
    constructor
    · intro named
      simpa [Prod.Lex.toLex_lt_toLex] using empty_lt named
    constructor
    · simp [Prod.Lex.toLex_lt_toLex]
    · simp [Prod.Lex.toLex_lt_toLex]

section Threads

variable {Thread : Type} [Fintype Thread] [DecidableEq Thread] {world next : World Thread} {thread : Thread}

def Done (world : World Thread) (thread : Thread) : Prop := world.control thread = .returning ∧ world.frames thread = []

def NoneLost (world : World Thread) : Prop := ∀ thread gate, world.phase thread gate ≠ .lost

def Control.awaits : Control → Option (String × GateId)
  | .entering name gate _ | .leaving name gate => some (name, gate)
  | .run _ | .returning => none

/-- How far a thread is among the gates it waits at; one that does not wait is beyond them. -/
def waitRank (world : World Thread) (thread : Thread) : WithTop (WithBot NameRank ×ₗ ℕ) :=
  match (world.control thread).awaits with
  | some (name, gate) => (toLex ((commonRank name : WithBot NameRank), (world.phase thread gate).stage) :)
  | none => ⊤

theorem goes (valid : Valid (fun _ => commonRank) world) (active : ¬Done world thread)
    (free : (world.control thread).awaits = none) : ∃ next, world.advance thread = some next := by
  have placed := valid.placed thread
  cases doing : world.control thread with
  | run task =>
      rw [World.advance, doing]
      cases task <;> exact ⟨_, rfl⟩
  | entering | leaving =>
      rw [doing] at free
      cases free
  | returning =>
      rw [World.advance, doing]
      cases frames : world.frames thread with
      | nil => exact absurd ⟨doing, frames⟩ active
      | cons frame rest =>
          cases frame with
          | keys entries => exact ⟨_, rfl⟩
          | gate name gate =>
              have inside := (placed.inside gate).mpr ⟨name, by rw [frames]; exact List.mem_cons_self⟩
              obtain ⟨next, left⟩ := Phase.leave_inside inside
              simp [left]

theorem awaiting (valid : Valid (fun _ => commonRank) world) {name : String} {gate : GateId}
    (waits : (world.control thread).awaits = some (name, gate)) :
    top commonRank (world.frames thread) < commonRank name ∧ Named (world.frames thread) name gate ∧
      (world.phase thread gate).moving = true ∧
      (world.advance thread = none → (world.gates gate).advance (world.phase thread gate) = none) := by
  have placed := valid.placed thread
  have ahead := placed.ahead
  cases doing : world.control thread with
  | run | returning =>
      rw [doing] at waits
      cases waits
  | entering other number inner =>
      rw [doing] at waits ahead
      cases waits
      constructor
      · exact ahead.1
      constructor
      · exact ahead.2.1
      constructor
      · exact Phase.moving_of_enters ahead.2.2.2
      · intro stuck
        rw [World.advance, doing] at stuck
        exact Option.map_eq_none_iff.mp stuck
  | leaving other number =>
      rw [doing] at waits ahead
      cases waits
      constructor
      · exact ahead.1
      constructor
      · exact ahead.2.1
      constructor
      · exact Phase.moving_of_leaves ahead.2.2
      · intro stuck
        rw [World.advance, doing] at stuck
        exact Option.map_eq_none_iff.mp stuck

theorem Control.focus_awaits {control : Control} {gate : GateId} (focus : control.focus = some gate) :
    ∃ name, control.awaits = some (name, gate) := by
  cases control with
  | entering name | leaving name =>
      cases focus
      exact ⟨name, rfl⟩
  | run | returning => cases focus

/-- A thread that cannot go on waits for one that is further on. -/
theorem waits_further (valid : Valid (fun _ => commonRank) world) (counted : NoneLost world) (active : ¬Done world thread)
    (stuck : world.advance thread = none) : ∃ other, ¬Done world other ∧ waitRank world thread < waitRank world other := by
  cases waits : (world.control thread).awaits with
  | none =>
      obtain ⟨next, goes⟩ := goes valid active waits
      rw [stuck] at goes
      cases goes
  | some awaited =>
      obtain ⟨name, gate⟩ := awaited
      obtain ⟨_, named, moving, blocked⟩ := awaiting valid waits
      obtain ⟨other, inside | lost | behind⟩ := (valid.sound gate).waits moving (blocked stuck)
      · obtain ⟨same, held⟩ := ((valid.placed other).inside gate).mp inside
        have equal := (named_iff valid.registry (named_of_mem (valid.placed other).stacked held) named).mpr rfl
        subst equal
        use other
        constructor
        · intro done
          rw [done.2] at held
          cases held
        · rw [waitRank, waits, waitRank]
          cases further : (world.control other).awaits with
          | none => exact WithTop.coe_lt_top _
          | some next =>
              obtain ⟨above, _⟩ := awaiting valid further
              have higher := (le_top (valid.placed other).stacked held).trans_lt above
              exact WithTop.coe_lt_coe.mpr (Prod.Lex.toLex_lt_toLex.mpr (.inl higher))
      · exact absurd lost (counted other gate)
      · obtain ⟨same, further⟩ := Control.focus_awaits ((valid.placed other).moving gate behind.1)
        obtain ⟨_, again, _⟩ := awaiting valid further
        have equal := (named_iff valid.registry again named).mpr rfl
        subst equal
        use other
        constructor
        · intro done
          rw [done.1] at further
          cases further
        · rw [waitRank, waits, waitRank, further]
          exact WithTop.coe_lt_coe.mpr (Prod.Lex.toLex_lt_toLex.mpr (.inr ⟨rfl, behind.2⟩))

theorem Valid.progress (valid : Valid (fun _ => commonRank) world) (counted : NoneLost world) (active : ¬Done world thread) :
    ∃ other next, world.advance other = some next := by
  have waits : ∀ other, ¬Done world other → (∃ next, world.advance other = some next) ∨
      ∃ later, ¬Done world later ∧ waitRank world other < waitRank world later := by
    intro other active
    cases stuck : world.advance other with
    | some next => exact .inl ⟨next, rfl⟩
    | none => exact .inr (waits_further valid counted active stuck)
  obtain ⟨other, _, goes⟩ := exists_ready _ (fun other => ∃ next, world.advance other = some next) (waitRank world) waits active
  exact ⟨other, goes⟩

/-! ### What is left to do -/

/-- More moves than are left at a gate. -/
def Phase.cost : Phase → ℕ
  | .readTurn => 5
  | .readCount => 4
  | .readRoom | .leaveCount => 3
  | .readStore _ | .leaveRoom | .cancelCount | .writeTurn | .writeLeaveRoom => 2
  | .readYield | .leaveStore _ | .cancelTurn | .writeRoom | .writeLeaveTurn => 1
  | .outside | .reading | .writing | .lost => 0

theorem Phase.Moves.cost {phase next : Phase} (moves : phase.Moves next) : next.cost < phase.cost := by
  cases moves <;> simp [Phase.cost]

def Task.cost : Task → ℕ
  | .body => 1
  | .gated _ _ _ inner => inner.cost + 10
  | .keyed accesses inner => inner.cost + 10 * (names accesses).length + 2

def Frame.cost : Frame → ℕ
  | .gate _ _ => 4
  | .keys _ => 1

def threadCost (phase : GateId → Phase) (control : Control) (frames : List Frame) : ℕ :=
  (frames.map Frame.cost).sum +
    match control with
    | .run task => task.cost
    | .entering _ gate inner => (phase gate).cost + inner.cost + 4
    | .leaving _ gate => (phase gate).cost
    | .returning => 0

def cost (world : World Thread) : ℕ := ∑ thread, threadCost (world.phase thread) (world.control thread) (world.frames thread)

theorem cost_entries (existing : String → Option (GateId × Int)) (accesses : List (String × Bool)) (inner : Task) :
    ∀ fresh, (lock (entriesOf existing fresh accesses).1 inner).cost = inner.cost + 10 * accesses.length := by
  induction accesses with
  | nil => exact fun _ => rfl
  | cons access rest ih =>
      intro fresh
      rw [entriesOf]
      split
      · have later := ih fresh
        simp only [lock, List.foldr_cons, Task.cost, List.length_cons] at later ⊢
        omega
      · have later := ih (fresh + 1)
        simp only [lock, List.foldr_cons, Task.cost, List.length_cons] at later ⊢
        omega

omit [Fintype Thread] in
/-- Each move of a thread leaves it less to do. -/
theorem advance_cost (moved : world.advance thread = some next) :
    threadCost (next.phase thread) (next.control thread) (next.frames thread) <
      threadCost (world.phase thread) (world.control thread) (world.frames thread) := by
  rw [World.advance] at moved
  cases doing : world.control thread with
  | run task =>
      rw [doing] at moved
      cases task with
      | body =>
          cases moved
          simp [World.setControl, threadCost, Task.cost]
      | gated name gate exclusive inner =>
          cases moved
          cases exclusive <;>
            simp [World.setControl, World.setPhase, threadCost, Task.cost, Phase.enter, Phase.cost] <;> omega
      | keyed accesses inner =>
          cases moved
          simp only [World.setControl, World.setFrames, threadCost, Function.update_self, List.map_cons, List.sum_cons,
            Frame.cost, cost_entries, Task.cost]
          omega
  | entering name gate inner =>
      rw [doing] at moved
      obtain ⟨⟨cells, after⟩, advanced, rfl⟩ := Option.map_eq_some_iff.mp moved
      have less := (Gate.advance_moves advanced).cost
      cases after <;>
        simp only [World.entered, World.setControl, World.setFrames, World.setPhase, World.setGate, threadCost,
          Function.update_self, List.map_cons, List.sum_cons, Frame.cost, doing] at less ⊢ <;> omega
  | leaving name gate =>
      rw [doing] at moved
      obtain ⟨⟨cells, after⟩, advanced, rfl⟩ := Option.map_eq_some_iff.mp moved
      have less := (Gate.advance_moves advanced).cost
      cases after <;>
        simp only [World.left, World.setControl, World.setPhase, World.setGate, threadCost, Function.update_self, doing] at less ⊢ <;>
        omega
  | returning =>
      rw [doing] at moved
      cases frames : world.frames thread with
      | nil =>
          rw [frames] at moved
          cases moved
      | cons frame rest =>
          rw [frames] at moved
          cases frame with
          | gate name gate =>
              obtain ⟨after, left, rfl⟩ := Option.map_eq_some_iff.mp moved
              have small : after.cost < 4 := by
                cases place : world.phase thread gate <;> rw [place] at left <;> cases left <;> decide
              simp only [World.setControl, World.setFrames, World.setPhase, threadCost, Function.update_self, List.map_cons,
                List.sum_cons, Frame.cost]
              omega
          | keys entries =>
              cases moved
              simp [World.setFrames, threadCost, Frame.cost, doing]

theorem Phase.Moves.not_lost {phase next : Phase} (moves : phase.Moves next) : next ≠ .lost := by
  cases moves <;> simp

omit [Fintype Thread] in
/-- A move changes nothing about the other threads. -/
theorem advance_other (moved : world.advance thread = some next) {other : Thread} (differs : other ≠ thread) :
    next.phase other = world.phase other ∧ next.control other = world.control other ∧ next.frames other = world.frames other := by
  rw [World.advance] at moved
  cases doing : world.control thread with
  | run task =>
      rw [doing] at moved
      cases task <;> cases moved <;> simp [World.setControl, World.setPhase, World.setFrames, differs]
  | entering name gate inner =>
      rw [doing] at moved
      obtain ⟨⟨cells, after⟩, _, rfl⟩ := Option.map_eq_some_iff.mp moved
      cases after <;> simp [World.entered, World.setControl, World.setPhase, World.setFrames, World.setGate, differs]
  | leaving name gate =>
      rw [doing] at moved
      obtain ⟨⟨cells, after⟩, _, rfl⟩ := Option.map_eq_some_iff.mp moved
      cases after <;> simp [World.left, World.setControl, World.setPhase, World.setGate, differs]
  | returning =>
      rw [doing] at moved
      cases frames : world.frames thread with
      | nil =>
          rw [frames] at moved
          cases moved
      | cons frame rest =>
          rw [frames] at moved
          cases frame with
          | gate name gate =>
              obtain ⟨after, _, rfl⟩ := Option.map_eq_some_iff.mp moved
              simp [World.setControl, World.setPhase, World.setFrames, differs]
          | keys entries =>
              cases moved
              simp [World.setFrames, differs]

omit [Fintype Thread] in
/-- Going on loses no count. -/
theorem advance_kept (moved : world.advance thread = some next) {gate : GateId} (kept : world.phase thread gate ≠ .lost) :
    next.phase thread gate ≠ .lost := by
  have changed : ∀ (number : GateId) {after : Phase}, after ≠ .lost →
      Function.update (world.phase thread) number after gate ≠ .lost := by
    intro number after proper
    by_cases here : gate = number
    · rwa [here, Function.update_self]
    · rwa [Function.update_of_ne here]
  rw [World.advance] at moved
  cases doing : world.control thread with
  | run task =>
      rw [doing] at moved
      cases task with
      | body | keyed =>
          cases moved
          exact kept
      | gated name number exclusive inner =>
          cases moved
          simpa [World.setControl, World.setPhase] using changed number (by cases exclusive <;> simp [Phase.enter])
  | entering name number inner =>
      rw [doing] at moved
      obtain ⟨⟨cells, after⟩, advanced, rfl⟩ := Option.map_eq_some_iff.mp moved
      have proper := changed number (Gate.advance_moves advanced).not_lost
      cases after <;>
        simpa [World.entered, World.setControl, World.setPhase, World.setFrames, World.setGate] using proper
  | leaving name number =>
      rw [doing] at moved
      obtain ⟨⟨cells, after⟩, advanced, rfl⟩ := Option.map_eq_some_iff.mp moved
      have proper := changed number (Gate.advance_moves advanced).not_lost
      cases after <;> simpa [World.left, World.setControl, World.setPhase, World.setGate] using proper
  | returning =>
      rw [doing] at moved
      cases frames : world.frames thread with
      | nil =>
          rw [frames] at moved
          cases moved
      | cons frame rest =>
          rw [frames] at moved
          cases frame with
          | gate name number =>
              obtain ⟨after, left, rfl⟩ := Option.map_eq_some_iff.mp moved
              have proper : after ≠ .lost := by
                cases place : world.phase thread number <;> rw [place] at left <;> cases left <;> simp
              simpa [World.setControl, World.setPhase, World.setFrames] using changed number proper
          | keys entries =>
              cases moved
              exact kept

omit [Fintype Thread] in
theorem advance_noneLost (moved : world.advance thread = some next) (counted : NoneLost world) : NoneLost next := by
  intro other gate
  by_cases self : other = thread
  · rw [self]
    exact advance_kept moved (counted thread gate)
  · rw [(advance_other moved self).1]
    exact counted other gate

theorem total_cost (moved : world.advance thread = some next) : cost next < cost world := by
  have changed : (fun other => threadCost (next.phase other) (next.control other) (next.frames other)) =
      Function.update (fun other => threadCost (world.phase other) (world.control other) (world.frames other)) thread
        (threadCost (next.phase thread) (next.control thread) (next.frames thread)) := by
    funext other
    by_cases self : other = thread
    · rw [self, Function.update_self]
    · obtain ⟨phase, control, frames⟩ := advance_other moved self
      rw [Function.update_of_ne self, phase, control, frames]
  have sums := sum_update (fun other => threadCost (world.phase other) (world.control other) (world.frames other)) thread
    (threadCost (next.phase thread) (next.control thread) (next.frames thread))
  have less := advance_cost moved
  have same : cost next = ∑ other, Function.update
      (fun other => threadCost (world.phase other) (world.control other) (world.frames other)) thread
        (threadCost (next.phase thread) (next.control thread) (next.frames thread)) other :=
    Finset.sum_congr rfl fun other _ => congrFun changed other
  rw [← same] at sums
  change cost next + _ = cost world + _ at sums
  omega

/-! ### Results -/

omit [DecidableEq Thread] in
/-- When all are done and no count was lost, the gates are as new and the table is empty. -/
theorem Valid.finished {Rank : Type} [LinearOrder Rank] {ranks : Thread → String → Rank} (valid : Valid ranks world)
    (counted : NoneLost world) (done : ∀ thread, Done world thread) :
    world.gates securityGate = newGate ∧ ∀ name, world.databaseGates name = none := by
  have away : ∀ thread, world.phase thread securityGate = .outside := by
    intro thread
    have placed := valid.placed thread
    cases place : world.phase thread securityGate with
    | outside => rfl
    | lost => exact absurd place (counted thread securityGate)
    | reading | writing =>
        obtain ⟨name, member⟩ := (placed.inside securityGate).mp (by rw [place]; rfl)
        rw [(done thread).2] at member
        cases member
    | _ =>
        have focus := placed.moving securityGate (by rw [place]; rfl)
        rw [(done thread).1] at focus
        cases focus
  have sound := valid.sound securityGate
  have empty : population Phase.occupies (fun thread => world.phase thread securityGate) = 0 :=
    population_zero.mpr fun thread => by rw [away]; rfl
  constructor
  · have turn : (world.gates securityGate).turn = true := by
      cases free : (world.gates securityGate).turn with
      | true => rfl
      | false =>
          obtain ⟨other, holds⟩ := sound.turn.empty_iff.mp free
          rw [away] at holds
          cases holds
    have room : (world.gates securityGate).room = true := by
      cases free : (world.gates securityGate).room with
      | true => rfl
      | false =>
          cases sound.room.mp free with
          | inl some => omega
          | inr opened =>
              obtain ⟨other, opened⟩ := opened
              rw [away] at opened
              cases opened
    have readers : (world.gates securityGate).readers = some 0 := by
      cases free : (world.gates securityGate).readers with
      | none =>
          obtain ⟨other, holds⟩ := sound.readers.empty_iff.mp (by rw [free]; rfl)
          rw [away] at holds
          cases holds
      | some count =>
          have none := sound.stored count free
          rw [empty] at none
          rw [none]
          rfl
    cases cells : world.gates securityGate
    rw [cells] at turn room readers
    cases turn
    cases room
    cases readers
    rfl
  · intro name
    rw [valid.registry.none_iff]
    intro thread entry member
    rw [(done thread).2] at member
    cases Multiset.notMem_zero entry member

/-- Some thread goes on. -/
def Goes (world next : World Thread) : Prop := ∃ thread, world.advance thread = some next

theorem finishes (world : World Thread) (valid : Valid (fun _ => commonRank) world) (counted : NoneLost world) :
    ∃ last, Relation.ReflTransGen Goes world last ∧ Valid (fun _ => commonRank) last ∧ NoneLost last ∧
      ∀ thread, Done last thread := by
  by_cases done : ∀ thread, Done world thread
  · exact ⟨world, .refl, valid, counted, done⟩
  · obtain ⟨thread, active⟩ := not_forall.mp done
    obtain ⟨other, next, moved⟩ := valid.progress counted active
    have less := total_cost moved
    obtain ⟨last, runs, rest⟩ := finishes next (valid.advance moved) (advance_noneLost moved counted)
    exact ⟨last, .head ⟨other, moved⟩ runs, rest⟩
termination_by cost world

omit [Fintype Thread] in
theorem cancel_other (moved : world.cancel thread = some next) {other : Thread} (differs : other ≠ thread) :
    next.phase other = world.phase other := by
  rw [World.cancel] at moved
  cases doing : world.control thread with
  | run task =>
      rw [doing] at moved
      cases moved
      rfl
  | entering name gate inner =>
      rw [doing] at moved
      obtain ⟨after, _, rfl⟩ := Option.map_eq_some_iff.mp moved
      cases after <;> simp [World.entered, World.setControl, World.setPhase, World.setFrames, differs]
  | leaving name gate =>
      rw [doing] at moved
      obtain ⟨after, _, rfl⟩ := Option.map_eq_some_iff.mp moved
      cases after <;> simp [World.left, World.setControl, World.setPhase, differs]
  | returning =>
      rw [doing] at moved
      cases moved

theorem Valid.lost_advance {Rank : Type} [LinearOrder Rank] {ranks : Thread → String → Rank} (valid : Valid ranks world)
    {gate : GateId} (lost : world.phase thread gate = .lost) (moved : world.advance thread = some next) :
    next.phase thread gate = .lost := by
  have placed := valid.placed thread
  have home := placed.kept gate lost
  have ahead := placed.ahead
  rw [World.advance] at moved
  cases doing : world.control thread with
  | run | entering =>
      rw [doing] at home
      cases home
  | leaving name number =>
      rw [doing] at moved ahead
      have apart : gate ≠ number := by
        rintro rfl
        obtain ⟨_, _, leaves⟩ := ahead
        rw [lost] at leaves
        cases leaves
      obtain ⟨⟨cells, after⟩, _, rfl⟩ := Option.map_eq_some_iff.mp moved
      cases after <;> simpa [World.left, World.setControl, World.setPhase, World.setGate, apart] using lost
  | returning =>
      rw [doing] at moved
      cases frames : world.frames thread with
      | nil =>
          rw [frames] at moved
          cases moved
      | cons frame rest =>
          rw [frames] at moved
          cases frame with
          | gate name number =>
              have apart : gate ≠ number := by
                rintro rfl
                simp [lost, Phase.leave] at moved
              obtain ⟨after, _, rfl⟩ := Option.map_eq_some_iff.mp moved
              simpa [World.setControl, World.setPhase, World.setFrames, apart] using lost
          | keys entries =>
              cases moved
              exact lost

theorem Valid.lost_cancel {Rank : Type} [LinearOrder Rank] {ranks : Thread → String → Rank} (valid : Valid ranks world)
    {gate : GateId} (lost : world.phase thread gate = .lost) (moved : world.cancel thread = some next) :
    next.phase thread gate = .lost := by
  have placed := valid.placed thread
  have home := placed.kept gate lost
  have ahead := placed.ahead
  rw [World.cancel] at moved
  cases doing : world.control thread with
  | run | entering =>
      rw [doing] at home
      cases home
  | leaving name number =>
      rw [doing] at moved ahead
      have apart : gate ≠ number := by
        rintro rfl
        obtain ⟨_, _, leaves⟩ := ahead
        rw [lost] at leaves
        cases leaves
      obtain ⟨after, _, rfl⟩ := Option.map_eq_some_iff.mp moved
      cases after <;> simpa [World.left, World.setControl, World.setPhase, apart] using lost
  | returning =>
      rw [doing] at moved
      cases moved

/-- A reader that was cancelled while it waited to give its count back shuts the gate to writers
for good. -/
theorem lost_shuts {request : Thread → Request} (reached : Reachable request world) {gate : GateId}
    (lost : world.phase thread gate = .lost) {later : World Thread} (runs : Relation.ReflTransGen World.Step world later)
    (other : Thread) : later.phase other gate ≠ .writing := by
  have kept : Valid (fun thread => ownRank (request thread)) later ∧ later.phase thread gate = .lost := by
    induction runs with
    | refl => exact ⟨reachable_valid (fun thread => fits_ownRank _) reached, lost⟩
    | tail _ stepped ih =>
        obtain ⟨valid, lost⟩ := ih
        constructor
        · exact valid.step stepped
        · cases stepped with
          | advance mover moved =>
              by_cases self : thread = mover
              · subst self
                exact valid.lost_advance lost moved
              · rw [(advance_other moved self).1, lost]
          | cancel mover moved =>
              by_cases self : thread = mover
              · subst self
                exact valid.lost_cancel lost moved
              · rw [cancel_other moved self, lost]
  obtain ⟨valid, lost⟩ := kept
  intro writes
  have empty := (valid.sound gate).apart other (by rw [writes]; rfl)
  have free := population_zero.mp empty thread
  rw [lost] at free
  cases free

end Threads

/-- Of two readers one waits to leave while the other counts, and is cancelled. -/
theorem lost_shuts_writer :
    let request : Fin 3 → Request := fun thread => if thread = 2 then .writeSecurity else .readSecurity
    let world := followed request (List.replicate 6 (0, false) ++ List.replicate 5 (1, false) ++
      [(0, false), (0, false), (1, false), (1, false), (1, false), (0, true)])
    world.phase 2 securityGate ≠ .writing :=
  @lost_shuts (Fin 3) _ _ _ 0 _ (reachable_followed _ _) securityGate (by decide +kernel) _ .refl 2

end ChuSQL.Server.Security
