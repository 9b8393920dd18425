import ChuSQL.Engine.Builtin
import ChuSQL.Model.Table

/-! The syntax of queries: expressions, subqueries and the statements inside them. -/

set_option autoImplicit false

namespace ChuSQL.Engine

open Library Model

inductive SortDir where
  | asc
  | desc
  deriving DecidableEq

inductive JoinKind where
  | inner
  | left
  deriving DecidableEq

inductive Quantifier where
  | any
  | all
  deriving DecidableEq

inductive CompareOp where
  | eq
  | ne
  | gt
  | gtE
  | lt
  | ltE
  deriving DecidableEq

/-- A column by its source in the plan and its place there. -/
structure ColumnId where
  source : List Int
  place : Int
  deriving DecidableEq

mutual

/-- Expressions. The two-operand nodes are one constructor with their operator, the
aggregates with an argument one with their built-in. -/
inductive Expr where
  | col (name : String)
  | columnRef (id : ColumnId) (name : String)
  | outerColumnRef (id : ColumnId) (name : String)
  | columnSlot (slot : Int) (name : String)
  | outerColumnSlot (width slot : Int) (name : String)
  | functionCall (name : String) (arguments : List Expr)
  | boundFunction (id : Int64) (result : TypeId) (arguments : List Expr)
  | construct (type : TypeExpr) (arguments : List Expr)
  | boundConstruct (type : TypeId) (arguments : List Expr)
  | enumLiteral (type : ColumnType) (label : String)
  | typedLiteral (type : ColumnType) (text : String)
  | runtimeLiteral (type : TypeId) (value : RuntimeValue)
  | litNull
  | litInt (n : Int64)
  | litFloat (d : Double)
  | litStr (text : String)
  | litBool (flag : Bool)
  | litDate (text : String)
  | litTimestamp (text : String)
  | litBlob (text : String)
  | binary (op : Operator) (left right : Expr)
  | neg (operand : Expr)
  | isNull (operand : Expr)
  | isNotNull (operand : Expr)
  | countAll
  | aggregate (builtin : Builtin) (argument : Expr)
  | scalarSub (query : Subquery)
  | inSub (left : Expr) (query : Subquery) (negated : Bool)
  | inList (left : Expr) (items : List Expr) (negated : Bool)
  | existsSub (query : Subquery) (negated : Bool)
  | quantCmp (op : CompareOp) (left : Expr) (query : Subquery) (quantifier : Quantifier)

/-- A subquery with the outer columns it refers to. -/
inductive Subquery where
  | plain (statement : Statement) (references : List String)
  | bound (statement : Statement) (references : List String) (slots : List (String × Expr))

/-- The statements a subquery may hold; the others are not queries. -/
inductive Statement where
  | select (items : List (String × Expr)) (source : FromClause) (condition : Option Expr)
      (groupBy : List String) (having : Option Expr) (orderBy : List (OrderKey × SortDir))
      (limit : Option Int64)
  | selectDistinct (inner : Statement)
  | other

inductive FromClause where
  | table (label : Option String) (name : String)
  | subquery (label : Option String) (statement : Statement)
  | join (kind : JoinKind) (left right : FromClause) (condition : Expr)
  | unit

inductive OrderKey where
  | column (name : String)
  | position (place : Int64)
  | expression (expression : Expr)

end

end ChuSQL.Engine
