import ChuSQL.Engine.Folding
import ChuSQL.Engine.Plan.Basic

/-! Rewriting plans: conditions moved towards the tables, indexes, constants and the columns
that are needed. -/

set_option autoImplicit false

namespace ChuSQL.Engine

open Library Model

/-! ### Conditions -/

/-- The parts of a chain of AND. -/
def splitConj : Expr → List Expr
  | .binary .and left right => splitConj left ++ splitConj right
  | condition => [condition]

def combineConj : List Expr → Option Expr
  | [] => none
  | condition :: conditions => some (conditions.foldl (.binary .and) condition)

def isSubsetOf (need columns : List String) : Bool := columns = ["*"] || need.all (columns.contains ·)

/-- Conditions that only refer to some columns, and the others. -/
def partitionPred (columns : List String) (conditions : List Expr) : List Expr × List Expr :=
  conditions.partition fun condition => isSubsetOf (colsInExpr condition) columns

def applyFilters (conditions : List Expr) (source : RelOp) : RelOp :=
  conditions.foldl (fun op condition => .filter condition op) source

/-- Whether a division is seen in the conditions and items of a plan. -/
def planHasDivision : RelOp → Bool
  | .filter condition source => hasDivision condition || planHasDivision source
  | .join _ left right condition => hasDivision condition || planHasDivision left || planHasDivision right
  | .semiJoin _ leftKey rightKey left right _ =>
      hasDivision leftKey || hasDivision rightKey || planHasDivision left || planHasDivision right
  | .compute items source => items.any (fun item => hasDivision item.2) || planHasDivision source
  | .project _ source => planHasDivision source
  | .distinct source => planHasDivision source
  | .sort _ source => planHasDivision source
  | .limit _ source => planHasDivision source
  | .derived _ source => planHasDivision source
  | _ => false

/-! ### Semi-joins -/

/-- Keys that cannot fail. -/
def safeKey : Expr → Bool
  | .col _ => true
  | .litNull => true
  | .litInt _ => true
  | .litFloat _ => true
  | .litStr _ => true
  | .enumLiteral _ _ => true
  | .litBool _ => true
  | _ => false

def localProjection (columns : List String) : Expr → Bool
  | .col column => columns.contains column
  | expression => safeKey expression && (colsInExpr expression).isEmpty

/-- The local column that is compared with the only outer reference. -/
def localKey (columns : List String) (reference a b : String) : Option String :=
  if a = reference ∧ b ∈ columns ∧ b ≠ reference then some b
  else if b = reference ∧ a ∈ columns ∧ a ≠ reference then some a
  else none

def subqueryStatement : Subquery → Statement
  | .plain statement _ => statement
  | .bound statement _ _ => statement

/-- An independent IN, or an EXISTS over one equality, as a semi-join. -/
def semiJoin (db : Database) (translate : Statement → Except String RelOp) (condition : Expr) (source : RelOp) :
    Option RelOp :=
  match condition with
  | .inSub left query negated =>
      match translate (subqueryStatement query) with
      | .error _ => none
      | .ok right =>
          match relOpCols db right with
          | [column] =>
              if (subqueryRefs query).isEmpty ∧ safeKey left ∧ column ≠ "*" then
                some (.semiJoin (if negated then .notIn else .matching) left (.col column) source right
                  (some (subqueryStatement query)))
              else none
          | _ => none
  | .existsSub query negated =>
      match subqueryRefs query, subqueryStatement query with
      | [reference], .select items (.table label table) (some (.binary .eq (.col a) (.col b))) [] none [] none =>
          let columns := scanCols db label table none
          if items.all fun item => localProjection columns item.2 then
            match localKey columns reference a b with
            | none => none
            | some column =>
                let physical := if reference ∈ relOpCols db source then reference else lastTablePart reference
                if physical ∈ relOpCols db source then
                  some (.semiJoin (if negated then .nonMatching else .matching) (.col physical) (.col "$semikey") source
                    (.compute (items ++ [("$semikey", .col column)]) (.scan label table none)) none)
                else none
          else none
      | _, _ => none
  | _ => none

/-! ### One node -/

/-- What the statistics say of the worth of an index. -/
structure Estimates where
  worthLookup : String → String → Bool
  worthRange : String → String → Bound → Bound → Bool

/-- A literal that bounds a range. -/
def boundLiteral : Expr → Option Value
  | .litInt n => some (.int n)
  | .litStr text => some (.str text)
  | _ => none

def lowerBound : Expr → Option (String × (Value × Bool))
  | .binary .gt (.col column) literal => (boundLiteral literal).map fun value => (column, (value, false))
  | .binary .gtE (.col column) literal => (boundLiteral literal).map fun value => (column, (value, true))
  | _ => none

def upperBound : Expr → Option (String × (Value × Bool))
  | .binary .lt (.col column) literal => (boundLiteral literal).map fun value => (column, (value, false))
  | .binary .ltE (.col column) literal => (boundLiteral literal).map fun value => (column, (value, true))
  | _ => none

/-- Both ends are integers, or both are texts. -/
def sameKind : Value → Value → Bool
  | .int _, .int _ => true
  | .str _, .str _ => true
  | _, _ => false

/-- The range of one column that a condition asks for. -/
def rangeOf : Expr → Option (String × Bound × Bound)
  | .binary .and left right =>
      match lowerBound left, upperBound right with
      | some (column, low), some (other, high) =>
          if column = other ∧ sameKind low.1 high.1 then some (column, some low, some high) else none
      | _, _ => none
  | condition =>
      match lowerBound condition, upperBound condition with
      | some (column, low), _ => some (column, some low, none)
      | none, some (column, high) => some (column, none, some high)
      | none, none => none

section Rewrite

variable [Host] [Printer]

/-- The column and the key that a condition equates. -/
def lookupOf : Expr → Option (String × Value)
  | .binary .eq (.col column) (.enumLiteral type label) =>
      match evalExpr (.enumLiteral type label) [] with
      | .ok value => some (column, value)
      | .error _ => none
  | .binary .eq (.col column) literal => (boundLiteral literal).map fun value => (column, value)
  | _ => none

variable (db : Database) (estimates : Estimates) (translate : Statement → Except String RelOp)

/-- A condition over a whole table as a lookup or a range of an index, where that is worth it. -/
def rewriteScan (condition : Expr) : RelOp → Option RelOp
  | .scan label table none =>
      match lookupOf condition with
      | some (column, key) =>
          if estimates.worthLookup table (unqualify label column) then
            some (.lookup label table (unqualify label column) key)
          else none
      | none =>
          match rangeOf condition with
          | some (column, low, high) =>
              if estimates.worthRange table (unqualify label column) low high then
                some (.range label table (unqualify label column) low high)
              else none
          | none => none
  | _ => none

def filterAll (conditions : List Expr) (op : RelOp) : RelOp :=
  match combineConj conditions with
  | none => op
  | some condition => .filter condition op

/-- Move the conditions of each side of an inner join into it. -/
def pushJoin (condition : Expr) (left right : RelOp) (on : Expr) : RelOp :=
  let sides := partitionPred (relOpCols db left) (splitConj condition)
  let others := partitionPred (relOpCols db right) sides.2
  filterAll others.2 (.join .inner (applyFilters sides.1 left) (applyFilters others.1 right) on)

/-- Of a left join only the left side may be filtered before. -/
def pushLeftJoin (condition : Expr) (left right : RelOp) (on : Expr) : RelOp :=
  let sides := partitionPred (relOpCols db left) (splitConj condition)
  filterAll sides.2 (.join .left (applyFilters sides.1 left) right on)

/-- Merge two filters, or filter before sorting. -/
def pushOne : RelOp → RelOp
  | .filter condition (.filter inner source) =>
      if hasDivision condition || hasDivision inner then .filter condition (.filter inner source)
      else .filter (.binary .and condition inner) source
  | .filter condition (.sort spec source) =>
      if hasDivision condition then .filter condition (.sort spec source)
      else .sort spec (.filter condition source)
  | op => op

def rewriteJoin (condition : Expr) : RelOp → Option RelOp
  | .join kind left right on =>
      if hasDivision condition || planHasDivision (.join kind left right on) then none
      else match kind with
        | .inner => some (pushJoin db condition left right on)
        | .left => some (pushLeftJoin db condition left right on)
  | _ => none

def rewriteFilter (condition : Expr) (source : RelOp) : RelOp :=
  match semiJoin db translate condition source with
  | some op => op
  | none =>
      match rewriteScan estimates condition source with
      | some op => op
      | none =>
          match rewriteJoin db condition source with
          | some op => op
          | none =>
              match foldConstants condition with
              | .litBool true => source
              | folded => pushOne (.filter folded source)

def rewriteNode : RelOp → RelOp
  | .filter condition source => rewriteFilter db estimates translate condition source
  | .project ["*"] source => source
  | .compute items source => .compute (items.map fun item => (item.1, foldConstants item.2)) source
  | op => op

/-- One pass over a plan, from its leaves. -/
def optimizeRelOp : RelOp → RelOp
  | .filter condition source => rewriteNode db estimates translate (.filter condition (optimizeRelOp source))
  | .project columns source => rewriteNode db estimates translate (.project columns (optimizeRelOp source))
  | .compute items source => rewriteNode db estimates translate (.compute items (optimizeRelOp source))
  | .aggregate keys aggregates source => .aggregate keys aggregates (optimizeRelOp source)
  | .distinct source => .distinct (optimizeRelOp source)
  | .sort spec source => .sort spec (optimizeRelOp source)
  | .limit count source => .limit count (optimizeRelOp source)
  | .join kind left right on => .join kind (optimizeRelOp left) (optimizeRelOp right) on
  | .semiJoin kind leftKey rightKey left right query =>
      .semiJoin kind leftKey rightKey (optimizeRelOp left) (optimizeRelOp right) query
  | .derived label source => .derived label (optimizeRelOp source)
  | op => op

end Rewrite

/-! ### The columns that are needed -/

def needsAll (need : List String) : Bool := need.contains "*"

def pushProjectLeaf (db : Database) (need : List String) (leaf : RelOp) : RelOp :=
  if needsAll need then leaf
  else if (relOpCols db leaf).all (need.contains ·) then leaf
  else .project need leaf

def deriveQualifier (label : Option String) (table : String) : String := label.getD (lastTablePart table)

/-- The columns of a table that are asked for, each once, in the order they are first asked for. -/
def scanned (db : Database) (label : Option String) (table : String) (need : List String) : List String :=
  let available := (scanCols db label table none).map (unqualify label)
  let asked := need.map fun requested => unqualify (some (deriveQualifier label table)) (unqualify label requested)
  (asked.filter (available.contains ·)).eraseDups

/-- The columns that one side of a join must give. -/
def sideNeed (need columns : List String) : List String :=
  if needsAll columns then ["*"] else need.filter (columns.contains ·)

/-- Drop the columns that the operators above do not read. -/
def pushProjectUnbound (db : Database) : List String → RelOp → RelOp
  | _, .unit => .unit
  | _, .boundSort spec source => .boundSort spec source
  | _, .boundAggregate keys aggregates source => .boundAggregate keys aggregates source
  | _, .compute items source =>
      .compute items (pushProjectUnbound db (items.flatMap fun item => colsInExpr item.2) source)
  | _, .aggregate keys aggregates source =>
      .aggregate keys aggregates
        (pushProjectUnbound db (keys ++ aggregates.flatMap fun item => colsInExpr item.2) source)
  | _, .project columns source =>
      match pushProjectUnbound db columns source with
      | .project others inner => if others = columns then .project columns inner else .project columns (.project others inner)
      | other => .project columns other
  | need, .filter condition source => .filter condition (pushProjectUnbound db (need ++ colsInExpr condition) source)
  | _, .distinct source => .distinct (pushProjectUnbound db (relOpCols db source) source)
  | need, .sort spec source => .sort spec (pushProjectUnbound db (need ++ spec.map (·.1)) source)
  | need, .limit count source => .limit count (pushProjectUnbound db need source)
  | need, .semiJoin kind leftKey rightKey left right query =>
      .semiJoin kind leftKey rightKey (pushProjectUnbound db (need ++ colsInExpr leftKey) left)
        (pushProjectUnbound db (colsInExpr rightKey) right) query
  | need, .join kind left right on =>
      if needsAll need then .join kind (pushProjectUnbound db need left) (pushProjectUnbound db need right) on
      else
        .join kind (pushProjectUnbound db (sideNeed (need ++ colsInExpr on) (relOpCols db left)) left)
          (pushProjectUnbound db (sideNeed (need ++ colsInExpr on) (relOpCols db right)) right) on
  | need, .scan label table columns =>
      if needsAll need then .scan label table columns
      else if (scanCols db label table columns).all (need.contains ·) then .scan label table columns
      else .scan label table (some (scanned db label table need))
  | need, .derived label source =>
      let wanted := (need.map (unqualify label)).eraseDups
      if needsAll need || (relOpCols db source).all (wanted.contains ·) then
        .derived label (pushProjectUnbound db ["*"] source)
      else .derived label (.project wanted (pushProjectUnbound db wanted source))
  | need, .lookup label table column key => pushProjectLeaf db need (.lookup label table column key)
  | need, .range label table column low high => pushProjectLeaf db need (.range label table column low high)

def pushProject (db : Database) (need : List String) (op : RelOp) : RelOp :=
  if hasBoundPlanColumns op then op else pushProjectUnbound db need op

end ChuSQL.Engine
