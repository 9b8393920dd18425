import ChuSQL.Engine.Analysis
import ChuSQL.Engine.Grouping
import ChuSQL.Engine.Join
import ChuSQL.Engine.Sort

/-! The operators of a query plan, their columns, and running a plan over a storage that is
only read. Conditions with subqueries are replaced before; here they are refused. -/

set_option autoImplicit false

namespace ChuSQL.Engine

open Library Model

inductive SemiKind where
  | matching
  | nonMatching
  | notIn
  deriving DecidableEq

/-- An end of a range, and whether it is inside. -/
abbrev Bound := Option (Value × Bool)

inductive RelOp where
  | scan (label : Option String) (table : String) (columns : Option (List String))
  | lookup (label : Option String) (table column : String) (key : Value)
  | range (label : Option String) (table column : String) (low high : Bound)
  | filter (condition : Expr) (source : RelOp)
  | project (columns : List String) (source : RelOp)
  | compute (items : List (String × Expr)) (source : RelOp)
  | aggregate (keys : List String) (aggregates : List (String × Expr)) (source : RelOp)
  | boundAggregate (keys aggregates : List (String × Expr)) (source : RelOp)
  | distinct (source : RelOp)
  | unit
  | sort (spec : SortSpec) (source : RelOp)
  | boundSort (spec : List (Expr × SortDir)) (source : RelOp)
  | limit (count : Int) (source : RelOp)
  | join (kind : JoinKind) (left right : RelOp) (condition : Expr)
  | semiJoin (kind : SemiKind) (leftKey rightKey : Expr) (left right : RelOp) (query : Option Statement)
  | derived (label : Option String) (source : RelOp)

def scanCols (db : Database) (label : Option String) (table : String) : Option (List String) → List String
  | some columns => columns.map (qualify label)
  | none =>
      match lookup table db with
      | none => []
      | some found => found.cols.map fun column => qualify label column.1

/-- The columns an operator gives. -/
def relOpCols (db : Database) : RelOp → List String
  | .unit => []
  | .compute items _ => items.map (·.1)
  | .aggregate keys aggregates _ => keys ++ aggregates.map (·.1)
  | .boundAggregate keys aggregates _ => keys.map (·.1) ++ aggregates.map (·.1)
  | .scan label table columns => scanCols db label table columns
  | .lookup label table _ _ => scanCols db label table none
  | .range label table _ _ _ => scanCols db label table none
  | .filter _ source => relOpCols db source
  | .project columns _ => columns
  | .distinct source => relOpCols db source
  | .sort _ source => relOpCols db source
  | .boundSort _ source => relOpCols db source
  | .limit _ source => relOpCols db source
  | .join _ left right _ => relOpCols db left ++ relOpCols db right
  | .semiJoin _ _ _ left _ _ => relOpCols db left
  | .derived label source => (relOpCols db source).map (qualify label)

/-- Whether a plan depends on columns that are bound already. -/
def hasBoundPlanColumns : RelOp → Bool
  | .filter condition source => hasBoundColumns condition || hasBoundPlanColumns source
  | .compute items source => items.any (fun item => hasBoundColumns item.2) || hasBoundPlanColumns source
  | .aggregate _ items source => items.any (fun item => hasBoundColumns item.2) || hasBoundPlanColumns source
  | .boundAggregate keys items source =>
      (keys ++ items).any (fun item => hasBoundColumns item.2) || hasBoundPlanColumns source
  | .boundSort items source => items.any (fun item => hasBoundColumns item.1) || hasBoundPlanColumns source
  | .join _ left right condition =>
      hasBoundColumns condition || hasBoundPlanColumns left || hasBoundPlanColumns right
  | .semiJoin _ leftKey rightKey left right _ =>
      hasBoundColumns leftKey || hasBoundColumns rightKey || hasBoundPlanColumns left || hasBoundPlanColumns right
  | .project _ source => hasBoundPlanColumns source
  | .distinct source => hasBoundPlanColumns source
  | .sort _ source => hasBoundPlanColumns source
  | .limit _ source => hasBoundPlanColumns source
  | .derived _ source => hasBoundPlanColumns source
  | .scan _ _ _ => false
  | .lookup _ _ _ _ => false
  | .range _ _ _ _ _ => false
  | .unit => false

/-! ### Storage -/

/-- The reads of a storage whose tables do not change while a plan runs. -/
structure Storage where
  scan : String → Except String (List Row)
  lookupByColumn : String → String → Value → Except String IndexResult
  scanRange : String → String → Bound → Bound → Except String (Option (List Row))

/-- Only the given columns of a table, in the given order. -/
def Storage.scanColumns (storage : Storage) (table : String) (columns : List String) : Except String (List Row) := do
  let rows ← storage.scan table
  pure (rows.map fun row => columns.filterMap fun name => (lookup name row).map fun value => (name, value))

/-- Tables in memory, without an index. -/
def memoryStorage (db : Database) : Storage where
  scan table := (lookupTable db table).map (·.rows)
  lookupByColumn _ _ _ := .ok .noIndex
  scanRange _ _ _ _ := .ok none

/-! ### Conditions that stand for an index -/

def lookupCondition (label : Option String) (column : String) (key : Value) : Expr :=
  .binary .eq (.col (qualify label column)) (valueLiteral key)

/-- One end of a range; a closed one is a comparison or an equality. -/
def boundCondition (column : Expr) (op : Operator) (bound : Value × Bool) : Expr :=
  if bound.2 then .binary .or (.binary op column (valueLiteral bound.1)) (.binary .eq column (valueLiteral bound.1))
  else .binary op column (valueLiteral bound.1)

def rangeCondition (label : Option String) (column : String) (low high : Bound) : Expr :=
  match low, high with
  | some l, some h =>
      .binary .and (boundCondition (.col (qualify label column)) .gt l)
        (boundCondition (.col (qualify label column)) .lt h)
  | some l, none => boundCondition (.col (qualify label column)) .gt l
  | none, some h => boundCondition (.col (qualify label column)) .lt h
  | none, none => .litBool true

/-! ### Running a plan -/

/-- Keep the listed columns that a row has, in the order of the list. -/
def project (columns : List String) (row : Row) : Row :=
  if columns = ["*"] then row
  else columns.filterMap fun name => (lookup name row).map fun value => (name, value)

section Run

variable [Host] [Printer] [BindingPrinter]

/-- Integers and doubles that are the same number only where they are equal. -/
def safeNumber : Value → Bool
  | .int n => decide (n.toInt.natAbs ≤ 9007199254740992)
  | .float d => (fromIntegral 9007199254740992).geq d.abs
  | _ => true

/-- Decide a semi-join for one left row, by the set of the right keys or one by one. -/
def semiKeeps (kind : SemiKind) (left : Expr) (outer : Row) (values : List Value) (row : Row) : Except String Bool := do
  let value ← evalExpr left (row ++ outer)
  if isNull value then pure (kind = .nonMatching || kind = .notIn && values.isEmpty)
  else if values.all safeNumber && safeNumber value then
    let found := (values.filter fun other => !isNull other).any fun other =>
      (canonicalValue other).same (canonicalValue value)
    pure (match kind with
      | .matching => found
      | .nonMatching => !found
      | .notIn => !found && !values.any isNull)
  else do
    let result ← inValues value values
    pure (match kind with
      | .matching => result.same (.bool true)
      | .nonMatching => !result.same (.bool true)
      | .notIn => result.same (.bool false))

/-- The items of a list that a fallible test keeps. -/
def filterM {Item : Type} (keep : Item → Except String Bool) : List Item → Except String (List Item)
  | [] => pure []
  | item :: items => do
      let kept ← keep item
      let others ← filterM keep items
      pure (if kept then item :: others else others)

def semiRows (kind : SemiKind) (left right : Expr) (outer : Row) (leftRows rightRows : List Row) :
    Except String (List Row) := do
  let values ← rightRows.mapM fun row => evalExpr right (row ++ outer)
  filterM (semiKeeps kind left outer values) leftRows

/-- Sort by bound keys, each computed once for a row. -/
def sortBoundRows (spec : List (Expr × SortDir)) (outer : Row) (rows : List Row) : Except String (List Row) :=
  if spec.isEmpty then pure rows
  else do
    let decorated ← rows.mapM fun row => do
      let keys ← spec.mapM fun entry => evalExpr entry.1 (row ++ outer)
      pure (keys.map some, row)
    pure ((sortBy (fun left right => compareKeys (spec.map (·.2)) left.1 right.1) decorated).map (·.2))

/-- The index of a storage, read in no monad. -/
def indexOf (storage : Storage) (table column : String) (key : Value) : Id (Except String IndexResult) :=
  storage.lookupByColumn table column key

/-- Subqueries are not run by a plan without them. -/
def refuseSubquery (_ : Subquery) (_ : Row) : Id (Except String (List Row)) := .error subqueryNeedsDatabase

section Evaluate

variable (storage : Storage) (db : Database) (outer : Row)

def scanRows (label : Option String) (table : String) (columns : Option (List String)) : Except String (List Row) := do
  let rows ← (match columns with
    | none => storage.scan table
    | some columns => storage.scanColumns table columns)
  orderedRows (scanCols db label table columns) (prefixRows label rows)

/-- A scan with the condition of an index that there is not. -/
def scanFiltered (label : Option String) (table : String) (condition : Expr) : Except String (List Row) := do
  let rows ← scanRows storage db label table none
  filterRows outer condition rows

/-- The rows of a plan, in their order. -/
def evalRelOpIn : RelOp → Except String (List Row)
  | .unit => pure [[]]
  | .compute items source => do
      let rows ← evalRelOpIn source
      rows.mapM (computeRow outer items)
  | .aggregate keys aggregates source => do
      let rows ← evalRelOpIn source
      evalAggregate outer (keys.map fun name => (name, .col name)) aggregates rows
  | .boundAggregate keys aggregates source => do
      let rows ← evalRelOpIn source
      evalAggregate outer keys aggregates rows
  | .scan label table columns => scanRows storage db label table columns
  | .lookup label table column key => do
      let found ← storage.lookupByColumn table column key
      match found with
      | .noIndex => scanFiltered storage db outer label table (lookupCondition label column key)
      | .indexRows rows => orderedRows (scanCols db label table none) (prefixRows label rows)
  | .range label table column low high => do
      let found ← storage.scanRange table column low high
      match found with
      | none => scanFiltered storage db outer label table (rangeCondition label column low high)
      | some rows => orderedRows (scanCols db label table none) (prefixRows label rows)
  | .filter condition source => do
      let rows ← evalRelOpIn source
      filterRows outer condition rows
  | .project columns source => do
      let rows ← evalRelOpIn source
      pure (rows.map (project columns))
  | .distinct source => do
      let rows ← evalRelOpIn source
      pure (distinctRows rows)
  | .sort spec source => do
      let rows ← evalRelOpIn source
      pure (sortRows spec rows)
  | .boundSort spec source => do
      let rows ← evalRelOpIn source
      sortBoundRows spec outer rows
  | .limit count (.compute items source) => do
      let rows ← evalRelOpIn source
      (Fused.compute items).limited outer count rows
  | .limit count (.filter condition source) => do
      let rows ← evalRelOpIn source
      (Fused.filter condition).limited outer count rows
  | .limit count (.sort spec source) => do
      let rows ← evalRelOpIn source
      (Fused.sort spec).limited outer count rows
  | .limit count source => do
      let rows ← evalRelOpIn source
      pure (rows.take count.toNat)
  | .derived label source => do
      let rows ← evalRelOpIn source
      pure (prefixRows label rows)
  | .semiJoin kind leftKey rightKey left right _ => do
      let leftRows ← evalRelOpIn left
      if leftRows.isEmpty then pure []
      else do
        let rightRows ← evalRelOpIn right
        semiRows kind leftKey rightKey outer leftRows rightRows
  | .join kind left (.scan label table columns) condition => do
      let leftRows ← evalRelOpIn left
      joinScan refuseSubquery (indexOf storage) db outer kind label table (relOpCols db left)
        (scanCols db label table columns) condition leftRows (scanRows storage db label table columns)
  | .join kind left right condition => do
      let leftRows ← evalRelOpIn left
      let rightRows ← evalRelOpIn right
      joinRowsIn refuseSubquery outer kind (relOpCols db right) condition leftRows rightRows

end Evaluate

end Run

end ChuSQL.Engine
