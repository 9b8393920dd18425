import ChuSQL.Engine.Expr

/-! Subqueries in expressions: the outer columns they refer to, and replacing them by
literals. -/

set_option autoImplicit false

namespace ChuSQL.Engine

open Library Model

/-! ### References -/

/-- The outer columns of a subquery, as written or as bound. -/
def subqueryColumns : Subquery → List (String × Expr)
  | .plain _ names => names.map fun name => (name, .col name)
  | .bound _ _ slots => slots

mutual

/-- The outer references of the subqueries in an expression. -/
def subquerySlotsIn : Expr → List Expr
  | .construct _ arguments => subquerySlotsInAll arguments
  | .boundConstruct _ arguments => subquerySlotsInAll arguments
  | .functionCall _ arguments => subquerySlotsInAll arguments
  | .boundFunction _ _ arguments => subquerySlotsInAll arguments
  | .scalarSub query => (subqueryColumns query).map (·.2)
  | .inSub left query _ => subquerySlotsIn left ++ (subqueryColumns query).map (·.2)
  | .inList left items _ => subquerySlotsIn left ++ subquerySlotsInAll items
  | .existsSub query _ => (subqueryColumns query).map (·.2)
  | .quantCmp _ left query _ => subquerySlotsIn left ++ (subqueryColumns query).map (·.2)
  | .binary _ left right => subquerySlotsIn left ++ subquerySlotsIn right
  | .neg operand => subquerySlotsIn operand
  | .isNull operand => subquerySlotsIn operand
  | .isNotNull operand => subquerySlotsIn operand
  | .aggregate _ argument => subquerySlotsIn argument
  | _ => []

def subquerySlotsInAll : List Expr → List Expr
  | [] => []
  | expression :: expressions => subquerySlotsIn expression ++ subquerySlotsInAll expressions

end

/-- The value of a resolved outer column; a qualified name falls back to a bare column. -/
def bindingValue (column : String) (env : Row) : Option Value :=
  match lookup column env with
  | some value => some value
  | none =>
      if column.toList.contains '.' then
        lookup (lastTablePart column) (env.filter fun entry => !entry.1.toList.contains '.')
      else none

/-- The derived rendering of bound references, which tells bindings apart. -/
class BindingPrinter where
  showBindings : List (Expr × Value) → String

section Bind

variable [Host] [Printer] [BindingPrinter]

def bindingReferenceValue (reference : Expr) (env : Row) : Except String Value :=
  match reference with
  | .col name =>
      match bindingValue name env with
      | some value => .ok value
      | none => .error ("unknown outer column: " ++ name)
  | expression => evalExpr expression env

def bindingKey (references : List Expr) (env : Row) : Except String String := do
  let bindings ← references.mapM fun reference => do
    let value ← bindingReferenceValue reference env
    pure (reference, value)
  pure (BindingPrinter.showBindings bindings)

end Bind

/-! ### Substitution -/

def valueLiteral : Value → Expr
  | .int n => .litInt n
  | .float d => .litFloat d
  | .str text => .litStr text
  | .enum name labels label => .enumLiteral (.enum name labels) label
  | .bool flag => .litBool flag
  | .runtime type value => .runtimeLiteral type value
  | .null => .litNull

def operatorOfCompare : CompareOp → Operator
  | .eq => .eq
  | .ne => .ne
  | .gt => .gt
  | .gtE => .gtE
  | .lt => .lt
  | .ltE => .ltE

/-- Chain the comparisons from the right with AND or OR. -/
def chainCompare (op : CompareOp) (left : Expr) (join : Operator) : List Expr → Expr
  | [] => .litNull
  | [item] => .binary (operatorOfCompare op) left item
  | item :: items => .binary join (.binary (operatorOfCompare op) left item) (chainCompare op left join items)

def quantifiedCompare (op : CompareOp) (left : Expr) (items : List Expr) (quantifier : Quantifier) : Expr :=
  if items.isEmpty then .litBool (quantifier == .all)
  else chainCompare op left (if quantifier = .all then .and else .or) items

/-- The value of the only column of a subquery's row. -/
def rowValue : Row → Except String Value
  | [(_, value)] => .ok value
  | _ => .error "subquery must return exactly one column"

/-- No row is NULL, more than one is an error. -/
def scalarResult (rows : Except String (List Row)) : Except String Expr := do
  let rows ← rows
  match rows with
  | [] => pure .litNull
  | [row] => do
      let value ← rowValue row
      pure (valueLiteral value)
  | _ => .error "scalar subquery returned more than one row"

section Substitute

variable {m : Type → Type} [Monad m] (run : Subquery → Row → m (Except String (List Row)))

mutual

/-- Replace the subqueries of an expression by literals; their errors pass through. -/
def substSubqueries : Expr → Row → m (Except String Expr)
  | .construct type arguments, env => do
      let bound ← substAll arguments env
      pure (do
        let arguments ← bound.mapM id
        pure (.construct type arguments))
  | .boundConstruct type arguments, env => do
      let bound ← substAll arguments env
      pure (do
        let arguments ← bound.mapM id
        pure (.boundConstruct type arguments))
  | .functionCall name arguments, env => do
      let bound ← substAll arguments env
      pure (do
        let arguments ← bound.mapM id
        pure (.functionCall name arguments))
  | .boundFunction id' result arguments, env => do
      let bound ← substAll arguments env
      pure (do
        let arguments ← bound.mapM id
        pure (.boundFunction id' result arguments))
  | .scalarSub query, env => do
      let rows ← run query env
      pure (scalarResult rows)
  | .inSub left query negated, env => do
      let left ← substSubqueries left env
      let rows ← run query env
      pure (do
        let left ← left
        let rows ← rows
        let values ← rows.mapM rowValue
        pure (.inList left (values.map valueLiteral) negated))
  | .existsSub query negated, env => do
      let rows ← run query env
      pure (do
        let rows ← rows
        pure (.litBool (if negated then rows.isEmpty else !rows.isEmpty)))
  | .quantCmp op left query quantifier, env => do
      let left ← substSubqueries left env
      let rows ← run query env
      pure (do
        let left ← left
        let rows ← rows
        let values ← rows.mapM rowValue
        pure (quantifiedCompare op left (values.map valueLiteral) quantifier))
  | .inList left items negated, env => do
      let left ← substSubqueries left env
      let items ← substAll items env
      pure (do
        let left ← left
        let items ← items.mapM id
        pure (.inList left items negated))
  | .binary op left right, env => do
      let first ← substSubqueries left env
      match first with
      | .error message => pure (.error message)
      | .ok left => do
          let second ← substSubqueries right env
          pure (second.map (.binary op left))
  | .neg operand, env => do
      let operand ← substSubqueries operand env
      pure (operand.map .neg)
  | .isNull operand, env => do
      let operand ← substSubqueries operand env
      pure (operand.map .isNull)
  | .isNotNull operand, env => do
      let operand ← substSubqueries operand env
      pure (operand.map .isNotNull)
  | .aggregate builtin argument, env => do
      let argument ← substSubqueries argument env
      pure (argument.map (.aggregate builtin))
  | expression, _ => pure (.ok expression)

def substAll : List Expr → Row → m (List (Except String Expr))
  | [], _ => pure []
  | expression :: expressions, env => do
      let first ← substSubqueries expression env
      let rest ← substAll expressions env
      pure (first :: rest)

end

end Substitute

end ChuSQL.Engine
