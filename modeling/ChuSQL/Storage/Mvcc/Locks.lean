import ChuSQL.Storage.Mvcc.Publish

/-! Taking row locks. A call holds the mutex from one wait to the next, so one
function covers what happens between two waits: locks are taken in key order until
one is held by another transaction. -/

set_option autoImplicit false

namespace ChuSQL.Storage.Mvcc

open Library

/-- Columns by which a row is locked. -/
def keyColumns (schema : TableSchemaWire) : List String :=
  "id" :: (schema.columns.filter fun column => column.unique || column.primaryKey).map (·.name)

def Change.rowIds (change : Change) (old : List (Nat × Version)) : List Nat := (change.edits old).1

/-- Rows the change touches: old values of the edited ones, and the new values. -/
def Change.touchedRows (change : Change) (old : List (Nat × Version)) : List Row :=
  (change.rowIds old).filterMap (fun id => (old.find? fun entry => entry.1 = id).map (·.2.row)) ++
    (change.edits old).2

/-- Locks for one table: the table shared, rows and key values exclusive. -/
def changeKeys (schema : TableSchemaWire) (old : List (Nat × Version)) (change : Change) :
    List (Key × Bool) :=
  (.table change.table, false) ::
    ((change.rowIds old).map fun id => (.row change.table id, true)) ++
    (change.touchedRows old).flatMap fun row => (keyColumns schema).filterMap fun column =>
      (uniqueKey row column).map fun value => (.unique change.table column value, true)

def missingSchema : String := "transaction schema missing"

def wantedKeys (state : State) (tx : Transaction) (change : Change) :
    Except String (List (Key × Bool)) := do
  match tx.schemas.find? fun schema => schema.objectId = change.table with
  | none => .error missingSchema
  | some schema =>
      let history ← historyOf state.durable change.table
      pure (changeKeys schema (visible history tx.snapshot) change)

def readTables (tx : Transaction) (reads : List String) : Except String (List Nat) :=
  reads.mapM fun name =>
    match tx.schemaOf name with
    | none => .error "unknown transaction read table"
    | some schema => .ok schema.objectId

/-- First part of a lock call: what is to be locked, in key order. -/
def startLock (state : State) (token : Token) (ops : List StorageOp) (reads : List String) :
    Except String (State × List (Key × Bool)) := do
  validate state token false
  let tx ← state.transaction token
  let touched ← readTables tx reads
  let changes ← plans state token ops
  let wanted ← changes.mapM (wantedKeys state tx)
  let keys : SortedMap Key Bool := SortedMap.empty.insertAll wanted.flatten
  pure (state.setTransaction token { tx with reads := touched }, keys.entries)

/-- Live transactions whose lock on a key stands in the way. -/
def blockers (state : State) (token : Token) (key : Key) (exclusive : Bool) : List Token :=
  (state.transactions.entries.filter fun entry =>
    entry.1 ≠ token ∧ entry.2.aborted = none ∧
      (entry.2.held.get key).any fun held => held || exclusive).map (·.1)

def Transaction.acquire (tx : Transaction) (key : Key) (exclusive : Bool) : Transaction :=
  { tx with
    waiting := [], held := tx.held.insert key ((tx.held.get key).getD false || exclusive) }

/-- Transactions a transaction waits for. -/
def waitsOn (state : State) (token : Token) : List Token :=
  match state.transactions.get token with
  | some tx => tx.waiting
  | none => []

def waitNodes (state : State) (token : Token) : List Token :=
  token :: state.transactions.values.flatMap (·.waiting)

/-- Whether a waiting path leads from a transaction back to itself. -/
def cycle (state : State) (token : Token) : Bool :=
  (search (waitsOn state) token ((waitNodes state token).length + 1) [] token).1

def deadlockDetected : String := "deadlock_detected: transaction aborted"
def lockTimeout : String := "lock_timeout: transaction aborted"

inductive LockResult where
  | done
  | failed (error : String)
  | waiting (keys : List (Key × Bool))
deriving DecidableEq

/-- Take the locks in turn until all are held or one has to be waited for. `expired`
tells whether the deadline has passed when a lock is found taken. -/
def lockKeys (expired : Bool) (token : Token) (ops : List StorageOp) :
    State → List (Key × Bool) → State × LockResult
  | state, [] =>
      match validate state token false, state.transactions.get token with
      | .error error, _ => (state, .failed error)
      | .ok _, none => (state, .failed "transaction missing")
      | .ok _, some tx => (state.setTransaction token { tx with plan := ops }, .done)
  | state, (key, exclusive) :: rest =>
      match validate state token false, state.transactions.get token with
      | .error error, _ => (state, .failed error)
      | .ok _, none => (state, .failed "transaction missing")
      | .ok _, some tx =>
          match blockers state token key exclusive with
          | [] => lockKeys expired token ops (state.setTransaction token (tx.acquire key exclusive)) rest
          | owner :: owners =>
              let waiting := state.setTransaction token { tx with waiting := owner :: owners }
              if cycle waiting token then
                (abort waiting token deadlockDetected, .failed deadlockDetected)
              else if expired then (abort waiting token lockTimeout, .failed lockTimeout)
              else (waiting, .waiting ((key, exclusive) :: rest))

/-! ### Interleaved calls -/

/-- A lock call between two of its steps: asleep with the locks still to be taken, or
failed and about to abort its transaction. -/
inductive Phase where
  | waiting (keys : List (Key × Bool))
  | failing (error : String)
deriving DecidableEq

structure LockCall where
  token : Token
  ops : List StorageOp
  phase : Phase
deriving DecidableEq

structure World where
  state : State
  calls : List LockCall
deriving DecidableEq

def isSerializationFailure (error : String) : Bool :=
  "serialization_failure:".toList.isPrefixOf error.toList

/-- What remains of a lock call after a step. -/
def LockResult.call (result : LockResult) (token : Token) (ops : List StorageOp) : List LockCall :=
  match result with
  | .done => []
  | .failed error => if isSerializationFailure error then [⟨token, ops, .failing error⟩] else []
  | .waiting keys => [⟨token, ops, .waiting keys⟩]

/-- The first step of a lock call. -/
def World.lock (world : World) (expired : Bool) (token : Token) (ops : List StorageOp)
    (reads : List String) : World :=
  match startLock world.state token ops reads with
  | .error error =>
      { world with calls := world.calls ++ (LockResult.failed error).call token ops }
  | .ok (state, keys) =>
      let (state, result) := lockKeys expired token ops state keys
      ⟨state, world.calls ++ result.call token ops⟩

/-- The next step of a lock call that is under way. -/
def World.resume (world : World) (expired : Bool) (index : Nat) : World :=
  match world.calls[index]? with
  | none => world
  | some ⟨token, _, .failing error⟩ => ⟨abort world.state token error, world.calls.eraseIdx index⟩
  | some ⟨token, ops, .waiting keys⟩ =>
      let (state, result) := lockKeys expired token ops world.state keys
      ⟨state, world.calls.eraseIdx index ++ result.call token ops⟩

inductive Action where
  | begin (schemas : List TableSchemaWire) (serializable : Bool) (selected : Option (List String))
  | lock (expired : Bool) (token : Token) (ops : List StorageOp) (reads : List String)
  | resume (expired : Bool) (index : Nat)
  | publish (csn : Nat) (schemas : List TableSchemaWire) (tables : List (TableSchemaWire × List Row))
  | finish (token : Token)
  | failAll

/-- One mutex-protected step. A refused operation leaves the state as it was. -/
def step (world : World) : Action → World
  | .begin schemas serializable selected =>
      { world with state := (beginSelected world.state schemas serializable selected).1 }
  | .lock expired token ops reads => world.lock expired token ops reads
  | .resume expired index => world.resume expired index
  | .publish csn schemas tables =>
      match publishChanged world.state csn schemas tables with
      | .error _ => world
      | .ok state => { world with state }
  | .finish token => { world with state := finish world.state token }
  | .failAll => { world with state := failAll world.state }

/-- What opening the version catalog gives: no transaction outlives the process. -/
def World.opened (durable : Durable) : World := ⟨⟨durable, .empty, 0⟩, []⟩

def steps (world : World) (actions : List Action) : World := actions.foldl step world

end ChuSQL.Storage.Mvcc
