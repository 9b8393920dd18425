import ChuSQL.Library.Fallible
import ChuSQL.Engine.Join

/-! DELETE: the rows that meet the condition are removed by their ids where they all have
one, and by replacing the whole table where they do not. -/

set_option autoImplicit false

namespace ChuSQL.Engine

open Library Model

/-! ### The memory storage -/

abbrev MemoryStorage := StateT Database (Except String)

/-- Put a table in the place of the one of its name. -/
def replaceTable (name : String) (table : Table) (db : Database) : Database :=
  db.map fun entry => if entry.1 = name then (entry.1, table) else entry

def scan (target : String) : MemoryStorage (Except String (List Row)) := fun db => do
  let table ← lookupTable db target
  pure (.ok table.rows, db)

def replaceAll (target : String) (rows : List Row) : MemoryStorage (Except String Unit) := fun db => do
  let table ← lookupTable db target
  pure (.ok (), replaceTable target { table with rows := rows } db)

/-- Whether the row has one of the ids. -/
def doomed (keys : List Int64) (row : Row) : Bool :=
  match lookup "id" row with
  | some (.int key) => keys.contains key
  | _ => false

/-- Remove every row with one of the ids. -/
def deleteKeys (target : String) (keys : List Int64) : MemoryStorage (Except String Unit) := do
  let rows ← scan target
  match rows with
  | .error message => pure (.error message)
  | .ok rows => replaceAll target (rows.filter fun row => !doomed keys row)

/-! ### The statement -/

section Execute

variable (condition : Option (Row → MemoryStorage (Except String Bool)))

/-- Whether the row meets the condition; every row meets none. -/
def meets (row : Row) : MemoryStorage (Except String Bool) :=
  match condition with
  | none => pure (.ok true)
  | some holds => holds row

def splitRows : List Row → List Row → List Row → MemoryStorage (Except String (List Row × List Row))
  | gone, kept, [] => pure (.ok (gone.reverse, kept.reverse))
  | gone, kept, row :: rows => do
      let hit ← meets condition row
      match hit with
      | .error message => pure (.error message)
      | .ok true => splitRows (row :: gone) kept rows
      | .ok false => splitRows gone (row :: kept) rows

/-- The rows that meet the condition and those that do not. -/
def splitByConditionM (rows : List Row) : MemoryStorage (Except String (List Row × List Row)) :=
  splitRows condition [] [] rows

def rowId (row : Row) : Except String Int64 :=
  match lookup "id" row with
  | some (.int key) => .ok key
  | _ => .error "row has no integer id"

/-- Execute a DELETE whose condition is bound. -/
def executeDelete (target : String) (columns : List String) : MemoryStorage (Except String (List Row)) := do
  let current ← scan target
  match current.bind (orderedRows columns) with
  | .error message => pure (.error message)
  | .ok rows => do
      let split ← splitByConditionM condition rows
      match split with
      | .error message => pure (.error message)
      | .ok (gone, kept) =>
          match gone.mapM rowId with
          | .ok ids => do
              let result ← deleteKeys target ids
              pure (result.map fun _ => [])
          | .error _ => do
              let result ← replaceAll target kept
              pure (result.map fun _ => [])

end Execute

/-! ### Looking at the storage -/

/-- Evaluating the condition looks at the storage and does not change it. -/
def ReadsOnly (condition : Option (Row → MemoryStorage (Except String Bool))) : Prop :=
  ∀ row db verdict after, meets condition row db = .ok (verdict, after) → after = db

/-- The rows of the table, with their columns in order. -/
def contents (target : String) (columns : List String) (db : Database) : Except String (List Row) :=
  (lookupTable db target).bind fun table => orderedRows columns table.rows

/-- The condition of the row evaluates to the verdict. -/
def Decides (condition : Option (Row → MemoryStorage (Except String Bool))) (db : Database) (row : Row)
    (verdict : Bool) : Prop :=
  meets condition row db = .ok (.ok verdict, db)

/-- A row that is to go has no integer id, or no row that is to stay has the id of one
that is to go. -/
def IdsApart (hit : Row → Bool) (rows : List Row) : Prop :=
  (∃ row ∈ rows, hit row = true ∧ ∀ key, lookup "id" row ≠ some (.int key)) ∨
    ∀ row ∈ rows, hit row = true → ∀ other ∈ rows, hit other = false →
      ∀ key, lookup "id" row = some (.int key) → lookup "id" other ≠ some (.int key)

/-! ### Rows with their columns in order -/

theorem lookup_orderRow {columns : List String} {row ordered : Row} (orders : orderRow columns row = .ok ordered)
    (name : String) : lookup name ordered = if name ∈ columns then lookup name row else none := by
  induction columns generalizing ordered with
  | nil =>
      cases orders
      rfl
  | cons column columns ih =>
      rw [orderRow, List.mapM_cons, bind_eq_ok] at orders
      obtain ⟨entry, first, orders⟩ := orders
      obtain ⟨rest, later, same⟩ := bind_eq_ok.mp orders
      cases same
      cases present : lookup column row with
      | none =>
          rw [present] at first
          cases first
      | some value =>
          rw [present] at first
          cases first
          rw [lookup]
          by_cases here : column = name
          · simp [here, ← present]
          · rw [if_neg here, ih later]
            simp [Ne.symm here]

/-- Ordering the columns again changes nothing. -/
theorem orderRow_again {columns : List String} {row ordered : Row} (orders : orderRow columns row = .ok ordered) :
    orderRow columns ordered = .ok ordered := by
  have related := mapM_eq_ok.mp orders
  apply mapM_eq_ok.mpr
  refine List.forall₂_iff_get.mpr ⟨related.length_eq, fun slot left right => ?_⟩
  have here := related.get left right
  have inside : columns.get ⟨slot, left⟩ ∈ columns := List.get_mem columns ⟨slot, left⟩
  rw [lookup_orderRow orders, if_pos inside]
  exact here

theorem orderedRows_again {columns : List String} {raw rows : List Row} (orders : orderedRows columns raw = .ok rows)
    {part : List Row} (within : part ⊆ rows) : orderedRows columns part = .ok part := by
  apply mapM_eq_ok.mpr
  rw [List.forall₂_same]
  intro row member
  obtain ⟨source, _, orders⟩ := exists_of_mem_right (mapM_eq_ok.mp orders) (within member)
  exact orderRow_again orders

theorem doomed_orderRow {columns : List String} (known : "id" ∈ columns) {row ordered : Row}
    (orders : orderRow columns row = .ok ordered) (keys : List Int64) : doomed keys ordered = doomed keys row := by
  rw [doomed, doomed, lookup_orderRow orders, if_pos known]

/-- Rows that a test of the ordered rows keeps are those it keeps of the rows as stored. -/
theorem orderedRows_filter {columns : List String} {keys : List Int64} (agrees : ∀ row ordered,
    orderRow columns row = .ok ordered → doomed keys ordered = doomed keys row) {raw rows : List Row}
    (orders : orderedRows columns raw = .ok rows) :
    orderedRows columns (raw.filter fun row => !doomed keys row) = .ok (rows.filter fun row => !doomed keys row) := by
  have related := mapM_eq_ok.mp orders
  apply mapM_eq_ok.mpr
  clear orders
  induction related with
  | nil => exact .nil
  | cons first _ ih =>
      rw [List.filter_cons, List.filter_cons, agrees _ _ first]
      split
      · exact .cons first ih
      · exact ih

/-! ### The parts of the rows -/

section Parts

variable {condition : Option (Row → MemoryStorage (Except String Bool))} {db : Database}

theorem splitRows_eq {hit : Row → Bool} {rows : List Row} (decides : ∀ row ∈ rows, Decides condition db row (hit row))
    (gone kept : List Row) :
    splitRows condition gone kept rows db =
      .ok (.ok (gone.reverse ++ rows.filter hit, kept.reverse ++ rows.filter fun row => !hit row), db) := by
  induction rows generalizing gone kept with
  | nil => simp [splitRows, pure, StateT.pure, Except.pure]
  | cons row rows ih =>
      have first := decides row List.mem_cons_self
      have later := fun other member => decides other (List.mem_cons_of_mem _ member)
      rw [Decides] at first
      cases verdict : hit row with
      | true =>
          rw [verdict] at first
          simp only [splitRows, bind, StateT.bind, Except.bind, first]
          rw [ih later]
          simp [verdict]
      | false =>
          rw [verdict] at first
          simp only [splitRows, bind, StateT.bind, Except.bind, first]
          rw [ih later]
          simp [verdict]

/-- Telling the rows apart does not change the storage, and it needs every verdict. -/
theorem splitRows_reads (reads : ReadsOnly condition) {rows : List Row} {gone kept : List Row}
    {result : Except String (List Row × List Row)} {after : Database}
    (splits : splitRows condition gone kept rows db = .ok (result, after)) :
    after = db ∧ ((∃ message, result = .error message) ∨ ∀ row ∈ rows, ∃ verdict, Decides condition db row verdict) := by
  induction rows generalizing gone kept with
  | nil =>
      cases splits
      exact ⟨rfl, .inr fun _ member => nomatch member⟩
  | cons row rows ih =>
      simp only [splitRows, bind, StateT.bind, Except.bind] at splits
      cases met : meets condition row db with
      | error message =>
          rw [met] at splits
          cases splits
      | ok outcome =>
          obtain ⟨verdict, seen⟩ := outcome
          cases reads row db verdict seen met
          rw [met] at splits
          cases verdict with
          | error message =>
              cases splits
              exact ⟨rfl, .inl ⟨_, rfl⟩⟩
          | ok verdict =>
              have rest : after = db ∧
                  ((∃ message, result = .error message) ∨ ∀ row ∈ rows, ∃ verdict, Decides condition db row verdict) := by
                cases verdict with
                | true => exact ih splits
                | false => exact ih splits
              refine ⟨rest.1, rest.2.imp id fun later => ?_⟩
              exact List.forall_mem_cons.mpr ⟨⟨verdict, met⟩, later⟩

end Parts

/-! ### Removing rows by their ids -/

theorem filter_eq_iff {Item : Type} {keep want : Item → Bool} {items : List Item} :
    items.filter keep = items.filter want ↔ ∀ item ∈ items, keep item = want item := by
  constructor
  · intro same item member
    rw [Bool.eq_iff_iff]
    have left : item ∈ items.filter keep ↔ item ∈ items.filter want := by rw [same]
    simpa [List.mem_filter, member] using left
  · exact List.filter_congr

theorem rowId_eq_ok {row : Row} {key : Int64} : rowId row = .ok key ↔ lookup "id" row = some (.int key) := by
  rw [rowId]
  split
  · rename_i other found
    simp [found]
  · rename_i missing
    simp only [reduceCtorEq, false_iff]
    exact missing key

theorem doomed_iff {gone : List Row} {ids : List Int64} (numbered : gone.mapM rowId = .ok ids) (row : Row) :
    doomed ids row = true ↔ ∃ other ∈ gone, ∃ key, lookup "id" other = some (.int key) ∧ lookup "id" row = some (.int key) := by
  have related := mapM_eq_ok.mp numbered
  rw [doomed]
  constructor
  · intro inside
    split at inside
    · rename_i key found
      obtain ⟨other, member, same⟩ := exists_of_mem_right related (List.contains_iff_mem.mp inside)
      exact ⟨other, member, key, rowId_eq_ok.mp same, found⟩
    · cases inside
  · rintro ⟨other, member, key, same, found⟩
    obtain ⟨number, inside, numbered⟩ := exists_of_mem_left related member
    cases same.symm.trans (rowId_eq_ok.mp numbered)
    simpa [found] using inside

/-- Removing by id leaves what the condition leaves where no kept row has an id of a removed one. -/
theorem filter_doomed_iff {hit : Row → Bool} {rows : List Row} {ids : List Int64}
    (numbered : (rows.filter hit).mapM rowId = .ok ids) :
    (rows.filter fun row => !doomed ids row) = (rows.filter fun row => !hit row) ↔ IdsApart hit rows := by
  have identified : ∀ row ∈ rows, hit row = true → ∃ key, lookup "id" row = some (.int key) := by
    intro row member met
    obtain ⟨key, _, same⟩ := exists_of_mem_left (mapM_eq_ok.mp numbered) (List.mem_filter.mpr ⟨member, met⟩)
    exact ⟨key, rowId_eq_ok.mp same⟩
  rw [filter_eq_iff, IdsApart]
  constructor
  · intro same
    refine .inr fun row member met other present stays key left right => ?_
    have gone : doomed ids other = true :=
      (doomed_iff numbered other).mpr ⟨row, List.mem_filter.mpr ⟨member, met⟩, key, left, right⟩
    have kept := same other present
    rw [gone, stays] at kept
    cases kept
  · intro apart row member
    cases apart with
    | inl odd =>
        obtain ⟨other, present, met, missing⟩ := odd
        obtain ⟨key, found⟩ := identified other present met
        exact absurd found (missing key)
    | inr apart =>
        congr 1
        rw [Bool.eq_iff_iff, doomed_iff numbered]
        constructor
        · rintro ⟨other, present, key, left, right⟩
          obtain ⟨inside, met⟩ := List.mem_filter.mp present
          by_contra stays
          exact apart other inside met row member (Bool.eq_false_of_not_eq_true stays) key left right
        · intro met
          obtain ⟨key, found⟩ := identified row member met
          exact ⟨row, List.mem_filter.mpr ⟨member, met⟩, key, found, found⟩

/-! ### What is left of the table -/

theorem lookup_replaceTable {target : String} {db : Database} {old : Table} (present : lookupTable db target = .ok old)
    (table : Table) : lookupTable (replaceTable target table db) target = .ok table := by
  have found : lookup target (replaceTable target table db) = some table := by
    induction db with
    | nil => cases present
    | cons entry db ih =>
        rw [replaceTable, List.map_cons]
        by_cases here : entry.1 = target
        · simp [here, lookup]
        · rw [if_neg here, lookup, if_neg here]
          apply ih
          rw [lookupTable, lookup, if_neg here] at present
          exact present
  rw [lookupTable, found]

theorem contents_replaceTable {target : String} {db : Database} {table : Table}
    (present : lookupTable db target = .ok table) (columns : List String) (rows : List Row) :
    contents target columns (replaceTable target { table with rows := rows } db) = orderedRows columns rows := by
  rw [contents, lookup_replaceTable present]
  rfl

section Outcome

variable {condition : Option (Row → MemoryStorage (Except String Bool))} {target : String} {columns : List String}
  {db : Database} {table : Table} {rows : List Row}

theorem executeDelete_eq (present : lookupTable db target = .ok table)
    (ordered : orderedRows columns table.rows = .ok rows) :
    executeDelete condition target columns db = (do
      let split ← splitByConditionM condition rows
      match split with
      | .error message => pure (.error message)
      | .ok (gone, kept) =>
          match gone.mapM rowId with
          | .ok ids => do
              let result ← deleteKeys target ids
              pure (result.map fun _ => [])
          | .error _ => do
              let result ← replaceAll target kept
              pure (result.map fun _ => []) : MemoryStorage (Except String (List Row))) db := by
  rw [executeDelete]
  simp only [bind, StateT.bind, scan, present, Except.bind, pure, Except.pure, ordered]

theorem replaceAll_eq (present : lookupTable db target = .ok table) (rows : List Row) :
    replaceAll target rows db = .ok (.ok (), replaceTable target { table with rows := rows } db) := by
  rw [replaceAll, present]
  rfl

theorem deleteKeys_eq (present : lookupTable db target = .ok table) (ids : List Int64) :
    deleteKeys target ids db =
      .ok (.ok (), replaceTable target { table with rows := table.rows.filter fun row => !doomed ids row } db) := by
  rw [← replaceAll_eq present, deleteKeys]
  simp only [bind, StateT.bind, scan, present, Except.bind, pure, Except.pure]

/-- What is left, with the columns in order, by either way of removing. -/
theorem executeDelete_contents (present : lookupTable db target = .ok table)
    (ordered : orderedRows columns table.rows = .ok rows) {hit : Row → Bool}
    (decides : ∀ row ∈ rows, Decides condition db row (hit row)) :
    ∃ after, executeDelete condition target columns db = .ok (.ok [], after) ∧
      contents target columns after =
        (match (rows.filter hit).mapM rowId with
        | .ok ids => .ok (rows.filter fun row => !doomed ids row)
        | .error _ => .ok (rows.filter fun row => !hit row)) := by
  rw [executeDelete_eq present ordered]
  simp only [bind, StateT.bind, splitByConditionM, splitRows_eq decides, Except.bind, List.reverse_nil,
    List.nil_append]
  cases numbered : (rows.filter hit).mapM rowId with
  | error message =>
      refine ⟨_, by simp only [StateT.bind, replaceAll_eq present]; rfl, ?_⟩
      rw [contents_replaceTable present]
      exact orderedRows_again ordered List.filter_sublist.subset
  | ok ids =>
      refine ⟨_, by simp only [StateT.bind, deleteKeys_eq present]; rfl, ?_⟩
      rw [contents_replaceTable present]
      by_cases known : "id" ∈ columns
      · exact orderedRows_filter (fun _ _ orders => doomed_orderRow known orders ids) ordered
      · -- without an id column no row is numbered, so none was to go
        have none : ids = [] := by
          cases ids with
          | nil => rfl
          | cons key ids =>
              obtain ⟨row, member, same⟩ := exists_of_mem_right (mapM_eq_ok.mp numbered) List.mem_cons_self
              obtain ⟨raw, _, orders⟩ := exists_of_mem_right (mapM_eq_ok.mp ordered) (List.mem_filter.mp member).1
              have found := rowId_eq_ok.mp same
              rw [lookup_orderRow orders, if_neg known] at found
              cases found
        subst none
        have every : ∀ row, doomed [] row = false := by
          intro row
          rw [doomed]
          split <;> rfl
        simp only [every, Bool.not_false, List.filter_true]
        exact ordered

/-- A DELETE whose condition fails on a row changes nothing, and one whose condition has
a value on every row leaves the rows that do not meet it exactly where the ids are apart. -/
theorem delete_exact_iff (reads : ReadsOnly condition) (content : contents target columns db = .ok rows) :
    ((¬ ∀ row ∈ rows, ∃ verdict, Decides condition db row verdict) →
        ∀ result after, executeDelete condition target columns db = .ok (result, after) →
          after = db ∧ ∃ message, result = .error message) ∧
      ∀ hit : Row → Bool, (∀ row ∈ rows, Decides condition db row (hit row)) →
        ((∃ after, executeDelete condition target columns db = .ok (.ok [], after) ∧
            contents target columns after = .ok (rows.filter fun row => !hit row)) ↔ IdsApart hit rows) := by
  obtain ⟨table, present, ordered⟩ : ∃ table, lookupTable db target = .ok table ∧
      orderedRows columns table.rows = .ok rows := bind_eq_ok.mp content
  constructor
  · intro fails result after executes
    rw [executeDelete_eq present ordered] at executes
    simp only [bind, StateT.bind, Except.bind] at executes
    cases splits : splitByConditionM condition rows db with
    | error message =>
        rw [splits] at executes
        cases executes
    | ok outcome =>
        obtain ⟨split, seen⟩ := outcome
        obtain ⟨same, verdicts⟩ := splitRows_reads reads splits
        rw [splits] at executes
        cases verdicts with
        | inl failed =>
            obtain ⟨message, rfl⟩ := failed
            cases executes
            exact ⟨same, message, rfl⟩
        | inr decided => exact absurd decided fails
  · intro hit decides
    obtain ⟨final, executes, left⟩ := executeDelete_contents present ordered decides
    have settled : (∃ after, executeDelete condition target columns db = .ok (.ok [], after) ∧
        contents target columns after = .ok (rows.filter fun row => !hit row)) ↔
        contents target columns final = .ok (rows.filter fun row => !hit row) := by
      constructor
      · rintro ⟨after, same, kept⟩
        cases executes.symm.trans same
        exact kept
      · exact fun kept => ⟨final, executes, kept⟩
    rw [settled, left]
    cases numbered : (rows.filter hit).mapM rowId with
    | ok ids => simpa using filter_doomed_iff numbered
    | error message =>
        simp only [true_iff]
        left
        by_contra every
        push Not at every
        have numbers : ∃ ids, (rows.filter hit).mapM rowId = .ok ids := by
          choose! key found using every
          refine ⟨(rows.filter hit).map key, mapM_eq_ok.mpr (List.forall₂_map_right_iff.mpr (List.forall₂_same.mpr ?_))⟩
          intro row member
          obtain ⟨inside, met⟩ := List.mem_filter.mp member
          exact rowId_eq_ok.mpr (found row inside met)
        obtain ⟨ids, numbers⟩ := numbers
        rw [numbered] at numbers
        cases numbers

end Outcome

/-! ### Two rows of one id -/

/-- The condition that the column is 1. -/
def isOne (column : String) (row : Row) : Bool :=
  match lookup column row with
  | some (.int n) => n == 1
  | _ => false

def numberedRows (first second : Int64) : List Row :=
  [[("id", .int first), ("a", .int 1)], [("id", .int second), ("a", .int 2)]]

def numberedTable (first second : Int64) : Database :=
  [("t", ⟨"t", [("id", plainColumn .int), ("a", plainColumn .int)], numberedRows first second⟩)]

theorem delete_exact_pair :
    ∃ after, executeDelete (some fun row => pure (.ok (isOne "a" row))) "t" ["id", "a"] (numberedTable 1 2) =
        .ok (.ok [], after) ∧
      contents "t" ["id", "a"] after = .ok [[("id", .int 2), ("a", .int 2)]] := by
  have reads : ReadsOnly (some fun row => pure (.ok (isOne "a" row))) := by
    intro row db verdict after met
    cases met
    rfl
  have content : contents "t" ["id", "a"] (numberedTable 1 2) = .ok (numberedRows 1 2) := rfl
  have apart : IdsApart (isOne "a") (numberedRows 1 2) := by
    right
    simp [numberedRows, isOne, lookup]
  exact ((delete_exact_iff reads content).2 (isOne "a") fun _ _ => rfl).mpr apart

theorem delete_takes_twin :
    ¬ ∃ after, executeDelete (some fun row => pure (.ok (isOne "a" row))) "t" ["id", "a"] (numberedTable 1 1) =
        .ok (.ok [], after) ∧
      contents "t" ["id", "a"] after = .ok ((numberedRows 1 1).filter fun row => !isOne "a" row) := by
  rintro ⟨after, executes, kept⟩
  have emptied : executeDelete (some fun row => pure (.ok (isOne "a" row))) "t" ["id", "a"] (numberedTable 1 1) =
      .ok (.ok [], [("t", ⟨"t", [("id", plainColumn .int), ("a", plainColumn .int)], []⟩)]) := rfl
  cases emptied.symm.trans executes
  cases kept

end ChuSQL.Engine
