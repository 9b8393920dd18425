import ChuSQL.Library.Tokens

/-! The gate that sessions read and write through: three cells that are taken and put back
one at a time, by any number of threads in any order. -/

set_option autoImplicit false

namespace ChuSQL.Server.Security

open Library

/-- `turn` and `room` are full or empty; `readers` is empty while a thread counts. -/
structure Gate where
  turn : Bool
  room : Bool
  readers : Option Int
  deriving DecidableEq, Repr

def newGate : Gate := ⟨true, true, some 0⟩

/-- Where a thread is in `readGate` or `writeGate`: the names of the waiting phases say which
cell is next, those of the others what is done with the cells that are held. -/
inductive Phase where
  | outside
  | readTurn
  | readCount
  | readRoom
  | readStore (count : Int)
  | readYield
  | reading
  | leaveCount
  | leaveRoom
  | leaveStore (count : Int)
  | cancelCount
  | cancelTurn
  | lost
  | writeTurn
  | writeRoom
  | writing
  | writeLeaveRoom
  | writeLeaveTurn
  deriving DecidableEq, Repr

namespace Gate

def takeTurn (gate : Gate) : Option Gate := if gate.turn then some { gate with turn := false } else none

def putTurn (gate : Gate) : Option Gate := if gate.turn then none else some { gate with turn := true }

def takeRoom (gate : Gate) : Option Gate := if gate.room then some { gate with room := false } else none

def putRoom (gate : Gate) : Option Gate := if gate.room then none else some { gate with room := true }

def takeReaders (gate : Gate) : Option (Gate × Int) :=
  gate.readers.map fun count => ({ gate with readers := none }, count)

def putReaders (gate : Gate) (count : Int) : Option Gate :=
  if gate.readers.isSome then none else some { gate with readers := some count }

/-- The next thing a thread does at the gate; `none` while the cell it needs is not free, and
where the thread is not on its way in or out. -/
def advance (gate : Gate) : Phase → Option (Gate × Phase)
  | .readTurn => gate.takeTurn.map (·, .readCount)
  | .readCount => gate.takeReaders.map fun taken => (taken.1, if taken.2 = 0 then .readRoom else .readStore taken.2)
  | .readRoom => gate.takeRoom.map (·, .readStore 0)
  | .readStore count => (gate.putReaders (count + 1)).map (·, .readYield)
  | .readYield => gate.putTurn.map (·, .reading)
  | .leaveCount => gate.takeReaders.map fun taken => (taken.1, if taken.2 = 1 then .leaveRoom else .leaveStore taken.2)
  | .leaveRoom => gate.putRoom.map (·, .leaveStore 1)
  | .leaveStore count => (gate.putReaders (count - 1)).map (·, .outside)
  | .cancelCount => (gate.putReaders 0).map (·, .cancelTurn)
  | .cancelTurn => gate.putTurn.map (·, .outside)
  | .writeTurn => gate.takeTurn.map (·, .writeRoom)
  | .writeRoom => gate.takeRoom.map (·, .writing)
  | .writeLeaveRoom => gate.putRoom.map (·, .writeLeaveTurn)
  | .writeLeaveTurn => gate.putTurn.map (·, .outside)
  | .outside | .reading | .writing | .lost => none

/-- What becomes of a thread that is cancelled on its way in or out. A reader can only be while it
waits; a reader that waits to give its count back keeps it for ever. -/
def cancel (gate : Gate) : Phase → Option Phase
  | .readTurn => if gate.turn then none else some .outside
  | .readCount => if gate.readers.isSome then none else some .cancelTurn
  | .readRoom => if gate.room then none else some .cancelCount
  | .leaveCount => if gate.readers.isSome then none else some .lost
  | .writeTurn => some .outside
  | .writeRoom => some .writeLeaveTurn
  | _ => none

end Gate

def Phase.enter (exclusive : Bool) : Phase := if exclusive then .writeTurn else .readTurn

/-- The body of a gate has ended. -/
def Phase.leave : Phase → Option Phase
  | .reading => some .leaveCount
  | .writing => some .writeLeaveRoom
  | _ => none

/-! ### What a phase holds -/

namespace Phase

def holdsTurn : Phase → Bool
  | .readCount | .readRoom | .readStore _ | .readYield | .cancelCount | .cancelTurn | .writeRoom | .writing
  | .writeLeaveRoom | .writeLeaveTurn => true
  | _ => false

/-- While `readers` is empty: how many are counted by then, as the one who took it knows. -/
def counted : Phase → Option Int
  | .readRoom | .cancelCount => some 0
  | .readStore count => some count
  | .leaveRoom => some 1
  | .leaveStore count => some (count - 1)
  | _ => none

def holdsCount (phase : Phase) : Bool := phase.counted.isSome

/-- The thread is counted among the readers. -/
def occupies : Phase → Bool
  | .readYield | .reading | .leaveCount | .leaveRoom | .lost => true
  | _ => false

/-- The room is the writer's. -/
def owns : Phase → Bool
  | .writing | .writeLeaveRoom => true
  | _ => false

/-- The room is taken and nobody is counted in it yet. -/
def opens : Phase → Bool
  | .writing | .writeLeaveRoom | .readStore _ => true
  | _ => false

/-- The thread waits for a cell, or has one to put back. -/
def moving : Phase → Bool
  | .outside | .reading | .writing | .lost => false
  | _ => true

theorem holdsTurn_of_owns {phase : Phase} (owned : phase.owns = true) : phase.holdsTurn = true := by
  cases phase <;> first | rfl | cases owned

theorem holdsTurn_of_opens {phase : Phase} (taken : phase.opens = true) : phase.holdsTurn = true := by
  cases phase <;> first | rfl | cases taken

theorem owns_or_counts {phase : Phase} (taken : phase.opens = true) : phase.owns = true ∨ phase.holdsCount = true := by
  cases phase <;> first | exact .inl rfl | exact .inr rfl | cases taken

end Phase

/-! ### Single cells -/

namespace Gate

variable {gate next : Gate} {count : Int}

@[simp] theorem takeTurn_eq_some : gate.takeTurn = some next ↔ gate.turn = true ∧ { gate with turn := false } = next := by
  simp [takeTurn]

@[simp] theorem putTurn_eq_some : gate.putTurn = some next ↔ gate.turn = false ∧ { gate with turn := true } = next := by
  simp [putTurn]

@[simp] theorem takeRoom_eq_some : gate.takeRoom = some next ↔ gate.room = true ∧ { gate with room := false } = next := by
  simp [takeRoom]

@[simp] theorem putRoom_eq_some : gate.putRoom = some next ↔ gate.room = false ∧ { gate with room := true } = next := by
  simp [putRoom]

@[simp] theorem takeReaders_eq_some :
    gate.takeReaders = some (next, count) ↔ gate.readers = some count ∧ { gate with readers := none } = next := by
  simp only [takeReaders, Option.map_eq_some_iff, Prod.mk.injEq]
  constructor
  · rintro ⟨found, kept, same, rfl⟩
    exact ⟨kept, same⟩
  · rintro ⟨kept, same⟩
    exact ⟨count, kept, same, rfl⟩

@[simp] theorem putReaders_eq_some :
    gate.putReaders count = some next ↔ gate.readers = none ∧ { gate with readers := some count } = next := by
  simp [putReaders]

end Gate

end ChuSQL.Server.Security
