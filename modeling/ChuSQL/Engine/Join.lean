import ChuSQL.Library.Grouping
import ChuSQL.Model.Types
import ChuSQL.Engine.Equality
import ChuSQL.Engine.Subquery

/-! Joins: by a nested loop, by hashing the keys of an equality between two columns, and
by probing an index of the right table. -/

set_option autoImplicit false

namespace ChuSQL.Engine

open Library Model

/-! ### Keys -/

/-- The key that takes part in matching: NULL does not, whole doubles are integers. -/
def joinKey : Value → Option Value
  | .null => none
  | value => some (canonicalValue value)

def joinKeyOf (column : String) (row : Row) : Option Value := (lookup column row).bind joinKey

structure EquiKeys where
  left : String
  right : String

/-- The name of a column of the plan. -/
def columnName : Expr → Option String
  | .col name => some name
  | .columnSlot _ name => some name
  | _ => none

/-- Recognize the equality of a left and a right column, and which is which. -/
def equiKeys (lcols rcols : List String) : Expr → Option EquiKeys
  | .binary .eq left right =>
      match columnName left, columnName right with
      | some a, some b =>
          if a ≠ b ∧ a ∈ lcols ∧ b ∈ rcols then some ⟨a, b⟩
          else if a ≠ b ∧ b ∈ lcols ∧ a ∈ rcols then some ⟨b, a⟩
          else none
      | _, _ => none
  | _ => none

/-- The names of the columns of some rows, none for no rows. -/
def rowsCols : List Row → List String
  | [] => []
  | row :: _ => row.map (·.1)

def nullRow (columns : List String) : Row := columns.map fun column => (column, .null)

/-- A left row without a match is filled with NULL by a left join, and dropped by an inner one. -/
def unmatched (kind : JoinKind) (row : Row) (columns : List String) : List Row :=
  match kind with
  | .inner => []
  | .left => [row ++ nullRow columns]

/-! ### Hashing -/

/-- Put a row in front of those of its key, when it has one. -/
def addToBucket (column : String) (buckets : List (Value × List Row)) (row : Row) : List (Value × List Row) :=
  match joinKeyOf column row with
  | none => buckets
  | some key => Grouping.insertGroup Value.same key row buckets

def bucketsOf (column : String) (rows : List Row) : List (Value × List Row) := rows.foldl (addToBucket column) []

/-- Each left row looks its key up in the buckets, whose rows are put back in order. -/
def hashJoin (kind : JoinKind) (keys : EquiKeys) (ncols : List String) (lrows rrows : List Row) : List Row :=
  let buckets := (bucketsOf keys.right rrows).map fun bucket => (bucket.1, bucket.2.reverse)
  lrows.flatMap fun l =>
    match joinKeyOf keys.left l with
    | none => unmatched kind l ncols
    | some key =>
        match Grouping.lookupGroup Value.same key buckets with
        | [] => unmatched kind l ncols
        | rows => rows.map (l ++ ·)

/-! ### The nested loop -/

section Nested

variable [Host] [Printer] [BindingPrinter] {m : Type → Type} [Monad m]
  (run : Subquery → Row → m (Except String (List Row)))

/-- Compare a left row with the right rows, replacing the subqueries of the condition once
for each combination of the values they refer to. -/
def keepPairs (outer : Row) (cond : Expr) (l : Row) :
    List Row → List Row → List (String × Expr) → m (Except String (List Row × List (String × Expr)))
  | [], acc, cache => pure (.ok (acc.reverse, cache))
  | r :: rs, acc, cache =>
      match bindingKey (subquerySlotsIn cond) (l ++ r ++ outer) with
      | .error message => pure (.error message)
      | .ok key => do
          let resolved ← (match lookup key cache with
            | some expression => pure (.ok expression)
            | none => substSubqueries run cond (l ++ r ++ outer))
          match resolved with
          | .error message => pure (.error message)
          | .ok expression =>
              match evalCondForRow expression (l ++ r ++ outer) with
              | .error message => pure (.error message)
              | .ok matched =>
                  keepPairs outer cond l rs (if matched then (l ++ r) :: acc else acc) ((key, expression) :: cache)

def pairRows (outer : Row) (kind : JoinKind) (ncols : List String) (cond : Expr) (rrows : List Row) :
    List Row → List Row → List (String × Expr) → m (Except String (List Row))
  | [], acc, _ => pure (.ok acc.reverse)
  | l :: ls, acc, cache => do
      let hits ← keepPairs run outer cond l rrows [] cache
      match hits with
      | .error message => pure (.error message)
      | .ok (rows, next) =>
          let padded := if rows.isEmpty then unmatched kind l ncols else rows
          pairRows outer kind ncols cond rrows ls (padded.reverse ++ acc) next

/-- Pair the rows of the two sides that meet the condition. -/
def filterPairsM (outer : Row) (kind : JoinKind) (ncols : List String) (cond : Expr) (lrows rrows : List Row) :
    m (Except String (List Row)) :=
  pairRows run outer kind ncols cond rrows lrows [] []

def joinRowsIn (outer : Row) (kind : JoinKind) (rcols : List String) (cond : Expr) (lrows rrows : List Row) :
    m (Except String (List Row)) :=
  let ncols := if rrows.isEmpty then rcols else rowsCols rrows
  match equiKeys (rowsCols lrows) rcols cond with
  | some keys => pure (.ok (hashJoin kind keys ncols lrows rrows))
  | none => filterPairsM run outer kind ncols cond lrows rrows

/-! ### Probing an index -/

inductive IndexResult where
  | indexRows (rows : List Row)
  | noIndex

/-- Only keys whose encoding is unambiguous are looked up. -/
def indexSafe (db : Database) (table column : String) (key : Value) : Bool :=
  match lookupTable db table with
  | .error _ => false
  | .ok found =>
      match lookup column found.cols with
      | none => false
      | some definition =>
          (match key with
            | .int _ | .str _ => true
            | _ => false) && !floatType definition.type && !floatValue key

/-- Put the columns of a row in order, refusing a row that lacks one. -/
def orderRow (columns : List String) (row : Row) : Except String Row :=
  columns.mapM fun name =>
    match lookup name row with
    | some value => .ok (name, value)
    | none => .error ("missing bound column: " ++ name)

def prefixRows (label : Option String) (rows : List Row) : List Row :=
  rows.map fun row => row.map fun entry => (qualify label entry.1, entry.2)

def orderedRows (columns : List String) (rows : List Row) : Except String (List Row) :=
  rows.mapM (orderRow columns)

variable (lookupByColumn : String → String → Value → m (Except String IndexResult))

/-- The rows of one left row by the index, or nothing where the index does not apply. -/
def probeIndexJoin (db : Database) (outer : Row) (kind : JoinKind) (label : Option String) (table : String)
    (keys : EquiKeys) (rcols : List String) (cond : Expr) (l : Row) :
    m (Except String (Option (List Row))) :=
  match lookup keys.left l with
  | none => pure (.ok (some (unmatched kind l rcols)))
  | some key =>
      if indexSafe db table (unqualify label keys.right) key then do
        let found ← lookupByColumn table (unqualify label keys.right) key
        match found with
        | .error message => pure (.error message)
        | .ok .noIndex => pure (.ok none)
        | .ok (.indexRows rows) =>
            match orderedRows rcols (prefixRows label rows) with
            | .error message => pure (.error message)
            | .ok ordered => do
                let joined ← joinRowsIn run outer kind rcols cond [l] ordered
                pure (joined.map some)
      else pure (.ok none)

/-- A join whose right side is a table: every left row by the index, or else all of them
with the rows of a scan. -/
def joinScan (db : Database) (outer : Row) (kind : JoinKind) (label : Option String) (table : String)
    (lcols rcols : List String) (cond : Expr) (lrows : List Row) (scan : m (Except String (List Row))) :
    m (Except String (List Row)) :=
  let nested : m (Except String (List Row)) := do
    let scanned ← scan
    match scanned with
    | .error message => pure (.error message)
    | .ok rrows => joinRowsIn run outer kind rcols cond lrows rrows
  match equiKeys lcols rcols cond with
  | none => nested
  | some keys => do
      let probed ← lrows.mapM (probeIndexJoin run lookupByColumn db outer kind label table keys rcols cond)
      match probed.mapM id with
      | .error message => pure (.error message)
      | .ok found =>
          match found.mapM id with
          | some rows => pure (.ok rows.flatten)
          | none => nested

end Nested

end ChuSQL.Engine
