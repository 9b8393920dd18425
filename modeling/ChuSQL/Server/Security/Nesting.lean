import ChuSQL.Server.Security.Sound
import ChuSQL.Server.Security.Registry
import Mathlib.Order.WithBot

/-! Where a thread is among its gates: those it holds are ordered by rank, the innermost
last, and so are those it still has to enter. -/

set_option autoImplicit false

namespace ChuSQL.Server.Security

open Library

namespace Phase

def inside : Phase → Bool
  | .reading | .writing => true
  | _ => false

/-- On the way in, or back out of a way in that was given up. -/
def enters : Phase → Bool
  | .readTurn | .readCount | .readRoom | .readStore _ | .readYield | .cancelCount | .cancelTurn | .writeTurn | .writeRoom
  | .writeLeaveTurn => true
  | _ => false

def leaves : Phase → Bool
  | .leaveCount | .leaveRoom | .leaveStore _ | .writeLeaveRoom | .writeLeaveTurn => true
  | _ => false

theorem enters_enter (exclusive : Bool) : (Phase.enter exclusive).enters = true := by cases exclusive <;> rfl

theorem leave_leaves {phase next : Phase} (left : phase.leave = some next) : next.leaves = true := by
  cases phase <;> cases left <;> rfl

theorem leave_inside {phase : Phase} (within : phase.inside = true) : ∃ next, phase.leave = some next := by
  cases phase <;> first | exact ⟨_, rfl⟩ | cases within

theorem not_inside_of_enters {phase : Phase} (enters : phase.enters = true) : phase.inside = false := by
  cases phase <;> first | rfl | cases enters

theorem not_inside_of_leaves {phase : Phase} (leaves : phase.leaves = true) : phase.inside = false := by
  cases phase <;> first | rfl | cases leaves

theorem moving_of_enters {phase : Phase} (enters : phase.enters = true) : phase.moving = true := by
  cases phase <;> first | rfl | cases enters

theorem moving_of_leaves {phase : Phase} (leaves : phase.leaves = true) : phase.moving = true := by
  cases phase <;> first | rfl | cases leaves

end Phase

/-- Where a thread is after its next move, whatever the cells hold. -/
inductive Phase.Moves : Phase → Phase → Prop where
  | readTurn : Moves .readTurn .readCount
  | readFirst : Moves .readCount .readRoom
  | readCount (count : Int) : Moves .readCount (.readStore count)
  | readRoom : Moves .readRoom (.readStore 0)
  | readStore (count : Int) : Moves (.readStore count) .readYield
  | readYield : Moves .readYield .reading
  | leaveLast : Moves .leaveCount .leaveRoom
  | leaveCount (count : Int) : Moves .leaveCount (.leaveStore count)
  | leaveRoom : Moves .leaveRoom (.leaveStore 1)
  | leaveStore (count : Int) : Moves (.leaveStore count) .outside
  | cancelCount : Moves .cancelCount .cancelTurn
  | cancelTurn : Moves .cancelTurn .outside
  | writeTurn : Moves .writeTurn .writeRoom
  | writeRoom : Moves .writeRoom .writing
  | writeLeaveRoom : Moves .writeLeaveRoom .writeLeaveTurn
  | writeLeaveTurn : Moves .writeLeaveTurn .outside

theorem Gate.advance_moves {gate after : Gate} {phase next : Phase} (moved : gate.advance phase = some (after, next)) :
    phase.Moves next := by
  cases phase with
  | outside | reading | writing | lost => cases moved
  | readCount | leaveCount =>
      simp only [advance, Option.map_eq_some_iff, Prod.mk.injEq] at moved
      obtain ⟨taken, _, _, rfl⟩ := moved
      split <;> constructor
  | _ =>
      simp only [advance, Option.map_eq_some_iff, Prod.mk.injEq] at moved
      obtain ⟨_, _, _, rfl⟩ := moved
      constructor

namespace Phase.Moves

variable {phase next : Phase}

theorem enters (moves : phase.Moves next) (enters : phase.enters = true) :
    next = .outside ∨ next.inside = true ∨ next.enters = true := by
  cases moves <;> first | exact .inl rfl | exact .inr (.inl rfl) | exact .inr (.inr rfl) | cases enters

theorem leaves (moves : phase.Moves next) (leaves : phase.leaves = true) : next = .outside ∨ next.leaves = true := by
  cases moves <;> first | exact .inl rfl | exact .inr rfl | cases leaves

end Phase.Moves

theorem Gate.cancel_enters {gate : Gate} {phase next : Phase} (enters : phase.enters = true)
    (stopped : gate.cancel phase = some next) : next = .outside ∨ next.enters = true := by
  cases phase with
  | readTurn | readCount | readRoom =>
      obtain ⟨_, same⟩ := Option.ite_none_left_eq_some.mp stopped
      cases same
      first | exact .inl rfl | exact .inr rfl
  | writeTurn | writeRoom =>
      cases stopped
      first | exact .inl rfl | exact .inr rfl
  | _ => first | (cases enters; done) | cases stopped

theorem Gate.cancel_leaves {gate : Gate} {phase next : Phase} (leaves : phase.leaves = true)
    (stopped : gate.cancel phase = some next) : next = .lost := by
  cases phase with
  | leaveCount =>
      obtain ⟨_, same⟩ := Option.ite_none_left_eq_some.mp stopped
      exact (Option.some.inj same).symm
  | _ => first | (cases leaves; done) | cases stopped

/-! ### Names in order -/

theorem names_sorted (accesses : List (String × Bool)) : ((names accesses).map Prod.fst).Pairwise (· < ·) :=
  List.pairwise_map.mpr (SortedMap.sorted _)

theorem names_proper {accesses : List (String × Bool)} {access : String × Bool} (member : access ∈ names accesses) :
    access.1 ≠ "" ∧ ∃ exclusive, (access.1, exclusive) ∈ accesses := by
  have collect : ∀ (given : List (String × Bool)) (map : SortedMap String Bool),
      access ∈ (given.foldl (fun map access =>
        map.insert access.1 ((map.get access.1).getD false || access.2)) map).entries →
      access ∈ map.entries ∨ ∃ exclusive, (access.1, exclusive) ∈ given := by
    intro given
    induction given with
    | nil => exact fun map found => .inl found
    | cons first rest ih =>
        intro map found
        cases ih _ found with
        | inl placed =>
            cases SortedMap.mem_place placed with
            | inl same => exact .inr ⟨first.2, by rw [same]; exact List.mem_cons_self⟩
            | inr old => exact .inl old
        | inr later =>
            obtain ⟨exclusive, later⟩ := later
            exact .inr ⟨exclusive, List.mem_cons_of_mem _ later⟩
  cases collect _ _ member with
  | inl none => cases none
  | inr some =>
      obtain ⟨exclusive, given⟩ := some
      rw [List.mem_filter] at given
      exact ⟨by simpa using given.2, exclusive, given.1⟩

/-! ### Gates by rank -/

/-- The gate is the security gate, or registered under the name. -/
def Named (frames : List Frame) (name : String) (gate : GateId) : Prop :=
  (name = "" ∧ gate = securityGate) ∨ ∃ entry ∈ registrations frames, entry.name = name ∧ entry.gate = gate

section Rank

variable {Rank : Type} [LinearOrder Rank] (rank : String → Rank)

def top : List Frame → WithBot Rank
  | [] => ⊥
  | .gate name _ :: _ => rank name
  | .keys _ :: rest => top rest

def Stacked : List Frame → Prop
  | [] => True
  | .gate name gate :: rest => top rank rest < rank name ∧ Named rest name gate ∧ Stacked rest
  | .keys _ :: rest => Stacked rest

/-- The names rise from a bound on, and then the rest does from the last of them. -/
def Along : WithBot Rank → List String → (WithBot Rank → Prop) → Prop
  | low, [], rest => rest low
  | low, name :: later, rest => low < rank name ∧ Along (rank name) later rest

/-- A task enters gates that its thread is registered for, each above those it is inside of. -/
def Fits (frames : List Frame) : WithBot Rank → Task → Prop
  | _, .body => True
  | low, .gated name gate _ inner => low < rank name ∧ Named frames name gate ∧ Fits frames (rank name) inner
  | low, .keyed accesses inner => Along rank low ((names accesses).map Prod.fst) fun last => Fits frames last inner

def Ahead (phase : GateId → Phase) (frames : List Frame) : Control → Prop
  | .run task => Fits rank frames (top rank frames) task
  | .entering name gate inner =>
      top rank frames < rank name ∧ Named frames name gate ∧ Fits rank frames (rank name) inner ∧ (phase gate).enters = true
  | .leaving name gate => top rank frames < rank name ∧ Named frames name gate ∧ (phase gate).leaves = true
  | .returning => True

def Control.focus : Control → Option GateId
  | .entering _ gate _ | .leaving _ gate => some gate
  | .run _ | .returning => none

/-- The thread only goes back from now on. -/
def Control.homeward : Control → Bool
  | .leaving _ _ | .returning => true
  | .run _ | .entering _ _ _ => false

structure Placed (phase : GateId → Phase) (control : Control) (frames : List Frame) : Prop where
  stacked : Stacked rank frames
  inside : ∀ gate, (phase gate).inside = true ↔ ∃ name, Frame.gate name gate ∈ frames
  moving : ∀ gate, (phase gate).moving = true → control.focus = some gate
  kept : ∀ gate, phase gate = .lost → control.homeward = true
  ahead : Ahead rank phase frames control

end Rank

/-- What holds of every world that requests lead to. -/
structure Valid {Rank Thread : Type} [LinearOrder Rank] [Fintype Thread] (ranks : Thread → String → Rank)
    (world : World Thread) : Prop where
  sound : ∀ gate, Sound (world.gates gate) fun thread => world.phase thread gate
  placed : ∀ thread, Placed (ranks thread) (world.phase thread) (world.control thread) (world.frames thread)
  registry : Registry world.databaseGates world.fresh fun thread => registrations (world.frames thread)
  untouched : ∀ thread gate, world.fresh ≤ gate → world.phase thread gate = .outside
  begun : securityGate < world.fresh

end ChuSQL.Server.Security
