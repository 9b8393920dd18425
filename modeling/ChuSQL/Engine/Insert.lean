import ChuSQL.Engine.Expr
import ChuSQL.Model.Types

/-! INSERT: the rows it builds, with the values it fills in and those it generates. -/

set_option autoImplicit false

namespace ChuSQL.Engine

open Library Model

/-- A column of the table, with its place among the values of a row when it is named. -/
structure BoundInsertColumn where
  name : String
  column : Column
  slot : Option Nat

/-- The bound columns, how many values a row has, the generated column, and what the checks
and constraints of the table say of the rows there are and the rows built. -/
structure InsertPlan where
  layout : List BoundInsertColumn
  width : Nat
  auto : Option (String × Column)
  accept : List Row → List Row → Except String Unit

/-- The number to count on from; what is not an integer counts as 0. -/
def valueInt : Value → Int64
  | .int n => n
  | _ => 0

def autoColumn (table : Table) : Option (String × Column) := table.cols.find? fun entry => entry.2.autoIncrement

def integerIn (name : String) (row : Row) : Option Int64 :=
  match lookup name row with
  | some (Value.int n) => some n
  | _ => none

/-- The integers of a column. -/
def integersOf (name : String) (rows : List Row) : List Int64 := rows.filterMap (integerIn name)

def larger (a b : Int64) : Int64 := if a ≤ b then b else a

/-- The next number to generate. -/
def autoStart (auto : Option (String × Column)) (rows : List Row) : Int64 :=
  match auto with
  | none => 1
  | some (name, _) =>
      match integersOf name rows with
      | [] => 1
      | n :: ns => ns.foldl larger n + 1

/-- Generated numbers go on after the values given. -/
def bump (auto : Option (String × Column)) (name : String) (counter : Int64) (value : Value) : Int64 :=
  if auto.map (·.1) = some name then larger (counter + 1) (valueInt value + 1) else counter

/-- Whether a value is generated where it is left out or NULL. -/
def omitted : Option Value → Bool
  | none => true
  | some value => isNull value

/-- The value of a column: generated, given, its default or NULL. -/
def pickValue (auto : Option (String × Column)) (target : BoundInsertColumn) (supplied : Option Value)
    (counter : Int64) : Except String (Value × Int64) :=
  if auto.map (·.1) = some target.name ∧ omitted supplied then .ok (.int counter, counter + 1)
  else match supplied with
    | some value => .ok (value, bump auto target.name counter value)
    | none =>
        match target.column.default with
        | some value => .ok (value, counter)
        | none =>
            if target.column.nullable then .ok (.null, counter)
            else .error ("INSERT: column " ++ target.name ++ " is NOT NULL and has no default")

def suppliedValue (values : List Value) (target : BoundInsertColumn) : Except String (Option Value) :=
  match target.slot with
  | none => .ok none
  | some slot =>
      match values[slot]? with
      | some value => .ok (some value)
      | none => .error ("missing bound INSERT value: " ++ target.name)

section Build

variable [Host]

/-- Fill a row column by column. -/
def buildRow (auto : Option (String × Column)) (values : List Value) :
    List BoundInsertColumn → Int64 → Row → Except String (Row × Int64)
  | [], counter, acc => .ok (acc.reverse, counter)
  | target :: rest, counter, acc => do
      let supplied ← suppliedValue values target
      let (value, next) ← pickValue auto target supplied counter
      let stored ← coerceValue target.column.type value
      buildRow auto values rest next ((target.name, stored) :: acc)

def buildEach (plan : InsertPlan) : Int64 → List (List Value) → List Row → Except String (List Row)
  | _, [], acc => .ok acc.reverse
  | counter, values :: rest, acc => do
      let (row, next) ← buildRow plan.auto values plan.layout counter []
      buildEach plan next rest (row :: acc)

/-- Evaluate the values, build the rows one after another, and check them at the end. -/
def buildRows [Printer] (plan : InsertPlan) (current : List Row) (rows : List (List Expr)) :
    Except String (List Row) := do
  let values ← rows.mapM fun row => row.mapM fun expression => evalExpr expression []
  if values.any fun row => row.length != plan.width then .error "column count does not match value count"
  else do
    let built ← buildEach plan (autoStart plan.auto current) values []
    plan.accept current built
    pure built

end Build

end ChuSQL.Engine
