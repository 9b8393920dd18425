import ChuSQL.Server.Security.Gate
import ChuSQL.Library.SortedMap
import Mathlib.Logic.Relation

/-! Sessions that go through the security gate and the gates of the databases they name. A
gate is made when the first thread registers for its name and forgotten when the last leaves. -/

set_option autoImplicit false

namespace ChuSQL.Server.Security

open Library

abbrev GateId := Nat

def securityGate : GateId := 0

/-- A registration: the gate of a name, how many were registered with it, and the access. -/
structure Entry where
  name : String
  gate : GateId
  count : Int
  exclusive : Bool
  deriving DecidableEq, Repr

/-- Nested accesses around a body. -/
inductive Task where
  | body
  | gated (name : String) (gate : GateId) (exclusive : Bool) (inner : Task)
  | keyed (accesses : List (String × Bool)) (inner : Task)

/-- What is undone on the way out, the innermost first. -/
inductive Frame where
  | gate (name : String) (gate : GateId)
  | keys (entries : List Entry)
  deriving DecidableEq, Repr

inductive Control where
  | run (task : Task)
  | entering (name : String) (gate : GateId) (inner : Task)
  | leaving (name : String) (gate : GateId)
  | returning

structure World (Thread : Type) where
  gates : GateId → Gate
  fresh : GateId
  databaseGates : String → Option (GateId × Int)
  phase : Thread → GateId → Phase
  control : Thread → Control
  frames : Thread → List Frame

/-! ### Names and their gates -/

/-- Accesses by name in ascending order, each exclusive if one of them is. -/
def names (accesses : List (String × Bool)) : List (String × Bool) :=
  ((accesses.filter fun access => access.1 ≠ "").foldl (fun map access =>
    map.insert access.1 ((map.get access.1).getD false || access.2)) (SortedMap.empty : SortedMap String Bool)).entries

/-- Registrations for the names, with new gates from a number on; also the next free number. -/
def entriesOf (existing : String → Option (GateId × Int)) : GateId → List (String × Bool) → List Entry × GateId
  | fresh, [] => ([], fresh)
  | fresh, (name, exclusive) :: rest =>
      match existing name with
      | some (gate, count) =>
          let (entries, last) := entriesOf existing fresh rest
          (⟨name, gate, count + 1, exclusive⟩ :: entries, last)
      | none =>
          let (entries, last) := entriesOf existing (fresh + 1) rest
          (⟨name, fresh, 1, exclusive⟩ :: entries, last)

def register (existing : String → Option (GateId × Int)) (entries : List Entry) : String → Option (GateId × Int) :=
  entries.foldr (fun entry map => Function.update map entry.name (some (entry.gate, entry.count))) existing

def release (entry : Entry) (existing : String → Option (GateId × Int)) : String → Option (GateId × Int) :=
  Function.update existing entry.name
    ((existing entry.name).bind fun kept => if kept.2 = 1 then none else some (kept.1, kept.2 - 1))

def unregister (existing : String → Option (GateId × Int)) (entries : List Entry) : String → Option (GateId × Int) :=
  entries.foldr release existing

def lock (entries : List Entry) (inside : Task) : Task :=
  entries.foldr (fun entry inner => .gated entry.name entry.gate entry.exclusive inner) inside

/-! ### Requests -/

/-- What a session asks for: access to the catalog, a change of rights or objects, a statement
on databases, or a commit on its own database with the short check under the commit gate. -/
inductive Request where
  | readSecurity
  | writeSecurity
  | databaseSecurity (accesses : List (String × Bool))
  | commitSecurity (current : String) (exclusive : Bool)

def commitName (database : String) : String := "\x00commit:" ++ database

def Request.task : Request → Task
  | .readSecurity => .gated "" securityGate false .body
  | .writeSecurity => .gated "" securityGate true .body
  | .databaseSecurity accesses => .gated "" securityGate false (.keyed accesses .body)
  | .commitSecurity current exclusive =>
      .gated "" securityGate false (.keyed [(current, exclusive)] (.keyed [(commitName current, true)] .body))

variable {Thread : Type}

def start (request : Thread → Request) : World Thread where
  gates _ := newGate
  fresh := 1
  databaseGates _ := none
  phase _ _ := .outside
  control thread := .run (request thread).task
  frames _ := []

variable [DecidableEq Thread]

namespace World

def setControl (world : World Thread) (thread : Thread) (control : Control) : World Thread :=
  { world with control := Function.update world.control thread control }

def setPhase (world : World Thread) (thread : Thread) (gate : GateId) (phase : Phase) : World Thread :=
  { world with phase := Function.update world.phase thread (Function.update (world.phase thread) gate phase) }

def setFrames (world : World Thread) (thread : Thread) (frames : List Frame) : World Thread :=
  { world with frames := Function.update world.frames thread frames }

def setGate (world : World Thread) (gate : GateId) (cells : Gate) : World Thread :=
  { world with gates := Function.update world.gates gate cells }

/-- Where a thread goes on after a move at a gate on its way in. -/
def entered (world : World Thread) (thread : Thread) (name : String) (gate : GateId) (inner : Task) :
    Phase → World Thread
  | .outside => world.setControl thread .returning
  | .reading | .writing => (world.setFrames thread (.gate name gate :: world.frames thread)).setControl thread (.run inner)
  | _ => world

/-- Where a thread goes on after a move at a gate on its way out. -/
def left (world : World Thread) (thread : Thread) : Phase → World Thread
  | .outside | .lost => world.setControl thread .returning
  | _ => world

/-- The next thing a thread does; `none` while it has to wait, and when it is done. -/
def advance (world : World Thread) (thread : Thread) : Option (World Thread) :=
  match world.control thread with
  | .run .body => some (world.setControl thread .returning)
  | .run (.gated name gate exclusive inner) =>
      some ((world.setPhase thread gate (.enter exclusive)).setControl thread (.entering name gate inner))
  | .run (.keyed accesses inner) =>
      let (entries, fresh) := entriesOf world.databaseGates world.fresh (names accesses)
      some (({ world with
        gates := fun gate => if world.fresh ≤ gate ∧ gate < fresh then newGate else world.gates gate
        fresh := fresh
        databaseGates := register world.databaseGates entries }.setFrames thread
          (.keys entries :: world.frames thread)).setControl thread (.run (lock entries inner)))
  | .entering name gate inner =>
      ((world.gates gate).advance (world.phase thread gate)).map fun moved =>
        ((world.setGate gate moved.1).setPhase thread gate moved.2).entered thread name gate inner moved.2
  | .leaving _ gate =>
      ((world.gates gate).advance (world.phase thread gate)).map fun moved =>
        ((world.setGate gate moved.1).setPhase thread gate moved.2).left thread moved.2
  | .returning =>
      match world.frames thread with
      | [] => none
      | .gate name gate :: rest =>
          (world.phase thread gate).leave.map fun next =>
            ((world.setPhase thread gate next).setFrames thread rest).setControl thread (.leaving name gate)
      | .keys entries :: rest =>
          some ({ world with databaseGates := unregister world.databaseGates entries }.setFrames thread rest)

/-- A thread is cancelled, or its body fails; on its way out it goes on as it would. -/
def cancel (world : World Thread) (thread : Thread) : Option (World Thread) :=
  match world.control thread with
  | .run _ => some (world.setControl thread .returning)
  | .entering name gate inner =>
      ((world.gates gate).cancel (world.phase thread gate)).map fun next =>
        (world.setPhase thread gate next).entered thread name gate inner next
  | .leaving _ gate =>
      ((world.gates gate).cancel (world.phase thread gate)).map fun next =>
        (world.setPhase thread gate next).left thread next
  | .returning => none

/-- One thread moves or is cancelled. -/
inductive Step : World Thread → World Thread → Prop where
  | advance {world next : World Thread} (thread : Thread) (moved : world.advance thread = some next) : Step world next
  | cancel {world next : World Thread} (thread : Thread) (moved : world.cancel thread = some next) : Step world next

end World

/-- What any number of moves leads to, the threads taking turns as they like. -/
def Reachable (request : Thread → Request) : World Thread → Prop :=
  Relation.ReflTransGen World.Step (start request)

/-- A thread is inside the gate of a name, as a reader or as a writer. -/
def Inside (world : World Thread) (thread : Thread) (name : String) (phase : Phase) : Prop :=
  ∃ gate, Frame.gate name gate ∈ world.frames thread ∧ world.phase thread gate = phase

/-- Take turns as a schedule says, cancelling a thread where it says so. -/
def World.follow (world : World Thread) : List (Thread × Bool) → Option (World Thread)
  | [] => some world
  | (thread, stops) :: rest =>
      (if stops then world.cancel thread else world.advance thread).bind fun next => next.follow rest

theorem World.steps_of_follow {schedule : List (Thread × Bool)} {world last : World Thread}
    (followed : world.follow schedule = some last) : Relation.ReflTransGen World.Step world last := by
  induction schedule generalizing world with
  | nil =>
      cases followed
      exact .refl
  | cons turn rest ih =>
      obtain ⟨thread, stops⟩ := turn
      obtain ⟨next, moved, later⟩ := Option.bind_eq_some_iff.mp followed
      cases stops with
      | false => exact .head (.advance thread moved) (ih later)
      | true => exact .head (.cancel thread moved) (ih later)

/-- The world a schedule leads to. -/
def followed (request : Thread → Request) (schedule : List (Thread × Bool)) : World Thread :=
  ((start request).follow schedule).getD (start request)

theorem reachable_followed (request : Thread → Request) (schedule : List (Thread × Bool)) :
    Reachable request (followed request schedule) := by
  unfold followed
  cases found : (start request).follow schedule with
  | none => exact .refl
  | some last => exact World.steps_of_follow found

end ChuSQL.Server.Security
