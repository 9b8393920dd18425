import ChuSQL.Engine.Syntax

/-! Evaluating expressions on a row, in three-valued logic. -/

set_option autoImplicit false

namespace ChuSQL.Engine

open Library Model

/-! ### Functions and constructors -/

structure FunctionSignature where
  id : Int64
  name : String
  arguments : List TypeId
  result : TypeId

def stringLength : List RuntimeValue → Except String RuntimeValue
  | [.string text] => .ok (.int (Int64.ofNat text.length))
  | _ => .error "length expects String"

def booleanNot : List RuntimeValue → Except String RuntimeValue
  | [.bool value] => .ok (.bool (!value))
  | _ => .error "not expects Bool"

abbrev FunctionRegistry := List (FunctionSignature × (List RuntimeValue → Except String RuntimeValue))

def builtinFunctions (types : TypeRegistry) : Except String FunctionRegistry := do
  let int ← resolveType types intType
  let bool ← resolveType types boolType
  let string ← resolveType types stringType
  pure [(⟨1, "length", [string.id], int.id⟩, stringLength), (⟨2, "not", [bool.id], bool.id⟩, booleanNot)]

def unknownFunction (id : Int64) : String :=
  "unknown function identity: FunctionId " ++
    if id.toInt < 0 then "(" ++ toString id.toInt ++ ")" else toString id.toInt

def functionSignature (functions : FunctionRegistry) (id : Int64) : Except String FunctionSignature :=
  match functions.filter fun entry => entry.1.id = id with
  | [entry] => .ok entry.1
  | _ => .error (unknownFunction id)

def validateAll (types : TypeRegistry) : List TypeId → List RuntimeValue → Except String Unit
  | type :: rest, value :: values => do
      validateValue types type value
      validateAll types rest values
  | _, _ => .ok ()

def invokeFunction (types : TypeRegistry) (functions : FunctionRegistry) (id : Int64)
    (values : List RuntimeValue) : Except String RuntimeValue :=
  match functions.filter fun entry => entry.1.id = id with
  | [(signature, implementation)] =>
      if values.length = signature.arguments.length then do
        validateAll types signature.arguments values
        let result ← implementation values
        validateValue types signature.result result
        pure result
      else .error "function argument count mismatch"
  | _ => .error (unknownFunction id)

def runtimeValue : Value → Except String RuntimeValue
  | .int n => .ok (.int n)
  | .float n => .ok (.double n)
  | .bool flag => .ok (.bool flag)
  | .str text => .ok (.string text)
  | .runtime type value => do
      validateValue builtinTypes type value
      pure value
  | .enum _ _ _ => .error "enum values require an explicit cast for runtime functions"
  | .null => .error "untyped SQL NULL has no runtime scalar value"

def sqlValue : RuntimeValue → Except String Value
  | .int n => .ok (.int n)
  | .double n => .ok (.float n)
  | .bool flag => .ok (.bool flag)
  | .string text => .ok (.str text)
  | _ => .error "composite runtime result has no SQL scalar representation"

/-- Check the arguments of a call; NULL fits every type. -/
def validateArguments : List TypeId → List Value → Except String Unit
  | type :: types, value :: values => do
      (match value with
        | .null => .ok ()
        | value => do
            let runtime ← runtimeValue value
            validateValue builtinTypes type runtime)
      validateArguments types values
  | _, _ => .ok ()

def invokeSQLFunction (id : Int64) (expected : TypeId) (values : List Value) : Except String Value := do
  let functions ← builtinFunctions builtinTypes
  let signature ← functionSignature functions id
  if signature.result ≠ expected then .error "bound function result identity mismatch"
  else if values.length ≠ signature.arguments.length then .error "function argument count mismatch"
  else do
    validateArguments signature.arguments values
    (if values.any isNull then pure .null
    else do
      let arguments ← values.mapM runtimeValue
      let result ← invokeFunction builtinTypes functions id arguments
      sqlValue result)

def construct : TypeId → List RuntimeValue → Except String RuntimeValue
  | ⟨.apply 5 [_]⟩, arguments => .ok (.list arguments)
  | ⟨.apply 6 [_]⟩, [] => .ok (.maybe none)
  | ⟨.apply 6 [_]⟩, [argument] => .ok (.maybe (some argument))
  | ⟨.apply 6 [_]⟩, _ => .error "Maybe constructor expects zero or one argument"
  | ⟨.apply 7 _⟩, arguments => .ok (.tuple arguments)
  | _, _ => .error "type is not a composite constructor"

def constructSQLValue (type : TypeId) (values : List Value) : Except String Value := do
  let arguments ← values.mapM runtimeValue
  let value ← construct type arguments
  validateValue builtinTypes type value
  pure (.runtime type value)

/-! ### Expressions -/

/-- The value at a bound place, when the column there has the bound name. -/
def slotValue (slot : Int) (name : String) (row : Row) : Except String Value :=
  match row.drop slot.toNat with
  | [] => .error ("missing bound column: " ++ name)
  | (key, value) :: _ =>
      if 0 ≤ slot ∧ key = name then .ok value else .error ("bound column position mismatch: " ++ name)

def subqueryNeedsDatabase : String := "subquery needs a database to run"

/-- The derived rendering of expressions in messages. -/
class Printer where
  showExpr : Expr → String

/-- A host that is never asked, and a printer of empty texts. -/
@[reducible]
def silentHost : Host where
  normalizeScalar _ text := .ok text
  showValue _ := ""
  showLabels _ := ""
  wideFraction d := (0, d)

@[reducible]
def silentPrinter : Printer where
  showExpr _ := ""

section Evaluate

variable [Host] [Printer]

mutual

def evalExpr : Expr → Row → Except String Value
  | .col name, row =>
      match lookup name row with
      | some value => .ok value
      | none => .error ("unknown column: " ++ name)
  | .columnRef _ name, _ => .error ("unbound column identity: " ++ name)
  | .outerColumnRef _ name, _ => .error ("unbound outer column identity: " ++ name)
  | .columnSlot slot name, row => slotValue slot name row
  | .outerColumnSlot width slot name, row =>
      if width < 0 ∨ slot < 0 then .error ("bound column position mismatch: " ++ name)
      else slotValue slot name (row.drop width.toNat)
  | .functionCall name _, _ => .error ("unbound function call: " ++ name)
  | .construct _ _, _ => .error "unbound runtime constructor"
  | .boundConstruct type arguments, row => do
      let values ← evalExprs arguments row
      constructSQLValue type values
  | .enumLiteral type label, _ => coerceValue type (.str label)
  | .typedLiteral type text, _ => coerceValue type (.str text)
  | .runtimeLiteral type value, _ => coerceValue (.runtime type) (.runtime type value)
  | .boundFunction id result arguments, row => do
      let values ← evalExprs arguments row
      invokeSQLFunction id result values
  | .litNull, _ => .ok .null
  | .litInt n, _ => .ok (.int n)
  | .litFloat d, _ => .ok (.float d)
  | .litStr text, _ => .ok (.str text)
  | .litBool flag, _ => .ok (.bool flag)
  | .litDate text, _ => .ok (.str text)
  | .litTimestamp text, _ => .ok (.str text)
  | .litBlob text, _ => .ok (.str text)
  | .binary op left right, row => do
      let x ← evalExpr left row
      let y ← evalExpr right row
      executeOperator op [x, y]
  | .neg operand, row => do
      let value ← evalExpr operand row
      executeOperator .neg [value]
  | .isNull operand, row => do
      let value ← evalExpr operand row
      pure (.bool (isNull value))
  | .isNotNull operand, row => do
      let value ← evalExpr operand row
      pure (.bool (!isNull value))
  | .inList left items negated, row => do
      let value ← evalExpr left row
      let values ← evalExprs items row
      let result ← inValues value values
      pure (if negated then threeValuedNot result else result)
  | .scalarSub _, _ => .error subqueryNeedsDatabase
  | .inSub _ _ _, _ => .error subqueryNeedsDatabase
  | .existsSub _ _, _ => .error subqueryNeedsDatabase
  | .quantCmp _ _ _ _, _ => .error subqueryNeedsDatabase
  | .countAll, _ => .error ("aggregate functions are not allowed here: " ++ Printer.showExpr .countAll)
  | .aggregate builtin argument, _ =>
      .error ("aggregate functions are not allowed here: " ++ Printer.showExpr (.aggregate builtin argument))

def evalExprs : List Expr → Row → Except String (List Value)
  | [], _ => pure []
  | expression :: expressions, row => do
      let value ← evalExpr expression row
      let values ← evalExprs expressions row
      pure (value :: values)

end

/-- Only TRUE passes a condition; NULL does not. -/
def evalCondForRow (condition : Expr) (row : Row) : Except String Bool := do
  let value ← evalExpr condition row
  match value with
  | .bool flag => .ok flag
  | .null => .ok false
  | _ => .error "type error: WHERE condition must be a boolean"

end Evaluate

end ChuSQL.Engine
