import ChuSQL.Model.Column

/-! The built-in aggregates and the operators. -/

set_option autoImplicit false

namespace ChuSQL.Engine

open Library Model

inductive Builtin where
  | countAll
  | count
  | sum
  | avg
  | min
  | max
  deriving DecidableEq

def isNull : Value → Bool
  | .null => true
  | _ => false

def nonNull (values : List Value) : List Value := values.filter fun value => !isNull value

/-- The sum of two numbers; two integers stay an integer. -/
def addValue : Value → Value → Except String Value
  | .int a, .int b => .ok (.int (a + b))
  | .int a, .float b => .ok (.float ((fromIntegral a).add b))
  | .float a, .int b => .ok (.float (a.add (fromIntegral b)))
  | .float a, .float b => .ok (.float (a.add b))
  | _, _ => .error "type error: expected two numbers"

def numberOf : Value → Except String Double
  | .int n => .ok (fromIntegral n)
  | .float d => .ok d
  | _ => .error "type error: expected a number"

/-- The extreme of some values, NULL when there is none. -/
def extremeOf (pick : Value → Value → Value) : List Value → Except String Value
  | [] => .ok .null
  | value :: values => .ok (values.foldl pick value)

def lower (a b : Value) : Value := if compareValue b a = .lt then b else a

def higher (a b : Value) : Value := if compareValue b a = .gt then b else a

def sumValues (values : List Value) : Except String Value := values.foldlM addValue (.int 0)

/-- A built-in over a group: the number of its rows and the argument in each. -/
def invokeBuiltin (builtin : Builtin) (rows : Nat) (values : List Value) : Except String Value :=
  match builtin with
  | .countAll => .ok (.int (Int64.ofNat rows))
  | .count => .ok (.int (Int64.ofNat (nonNull values).length))
  | .sum => if (nonNull values).isEmpty then .ok .null else sumValues (nonNull values)
  | .avg =>
      if (nonNull values).isEmpty then .ok .null
      else do
        let total ← sumValues (nonNull values)
        let sum ← numberOf total
        pure (.float (sum.div (fromIntegral (Int64.ofNat (nonNull values).length))))
  | .min => extremeOf lower (nonNull values)
  | .max => extremeOf higher (nonNull values)

/-! ### Operators -/

inductive Operator where
  | add
  | sub
  | mul
  | div
  | neg
  | gt
  | lt
  | eq
  | gtE
  | ltE
  | ne
  | and
  | or
  deriving DecidableEq

def operatorSymbol : Operator → String
  | .add => "+"
  | .sub => "-"
  | .mul => "*"
  | .div => "/"
  | .neg => "-"
  | .gt => ">"
  | .lt => "<"
  | .eq => "="
  | .gtE => ">="
  | .ltE => "<="
  | .ne => "<>"
  | .and => "AND"
  | .or => "OR"

def evalNeg : Value → Except String Value
  | .null => .ok .null
  | .int n => .ok (.int (-n))
  | .float d => .ok (.float d.neg)
  | _ => .error "type error: expected a number"

/-- Arithmetic on integers and on doubles. -/
structure Arith where
  int : Int64 → Int64 → Except String Int64
  float : Double → Double → Except String Double

/-- Division towards zero refuses what does not fit; no division by zero. -/
def divArith : Arith where
  int x y :=
    if y = 0 then .error "division by zero"
    else if x = Int64.minValue ∧ y = -1 then .error "integer division overflow"
    else .ok (x / y)
  float x y := if y.same Double.zero then .error "division by zero" else .ok (x.div y)

def arithOf : Operator → Option Arith
  | .add => some ⟨fun x y => .ok (x + y), fun x y => .ok (x.add y)⟩
  | .sub => some ⟨fun x y => .ok (x - y), fun x y => .ok (x.sub y)⟩
  | .mul => some ⟨fun x y => .ok (x * y), fun x y => .ok (x.mul y)⟩
  | .div => some divArith
  | _ => none

def asDouble : Value → Option Double
  | .int n => some (fromIntegral n)
  | .float d => some d
  | _ => none

/-- NULL on a side gives NULL; two integers give an integer. -/
def evalArith (ops : Arith) : Value → Value → Except String Value
  | .null, _ => .ok .null
  | _, .null => .ok .null
  | .int x, .int y => do
      let n ← ops.int x y
      pure (.int n)
  | x, y =>
      match asDouble x, asDouble y with
      | some p, some q => do
          let d ← ops.float p q
          pure (.float d)
      | _, _ => .error "type error: expected two numbers"

/-- Whether the values are of one family that the order may compare. -/
def comparableValue (capability : TypeCapability) : Value → Value → Bool
  | .int _, .float _ => true
  | .float _, .int _ => true
  | .int _, .int _ => true
  | .float _, .float _ => true
  | .str _, .str _ => true
  | .bool _, .bool _ => true
  | .enum left xs _, .enum right ys _ => left == right && xs == ys
  | .runtime left x, .runtime right y =>
      left == right && hasTypeCapability capability (.runtime left) &&
        (validateValue builtinTypes left x).isOk && (validateValue builtinTypes right y).isOk
  | _, _ => false

def compareValues (capability : TypeCapability) (holds : Ordering → Bool) (x y : Value) : Except String Value :=
  if isNull x || isNull y then .ok .null
  else if comparableValue capability x y then .ok (.bool (holds (compareValue x y)))
  else .error "type error: cannot compare these values"

def andValues : Value → Value → Except String Value
  | .bool false, _ => .ok (.bool false)
  | _, .bool false => .ok (.bool false)
  | .bool true, .bool true => .ok (.bool true)
  | .null, .bool true => .ok .null
  | .bool true, .null => .ok .null
  | .null, .null => .ok .null
  | _, _ => .error "type error: expected two booleans"

def orValues : Value → Value → Except String Value
  | .bool true, _ => .ok (.bool true)
  | _, .bool true => .ok (.bool true)
  | .bool false, .bool false => .ok (.bool false)
  | .null, .bool false => .ok .null
  | .bool false, .null => .ok .null
  | .null, .null => .ok .null
  | _, _ => .error "type error: expected two booleans"

def wrongCount (op : Operator) : Except String Value :=
  .error ("internal error: wrong operand count for operator " ++ operatorSymbol op)

def executeOperator (op : Operator) (operands : List Value) : Except String Value :=
  match op, operands with
  | .neg, [x] => evalNeg x
  | .gt, [x, y] => compareValues .ord (· == .gt) x y
  | .lt, [x, y] => compareValues .ord (· == .lt) x y
  | .eq, [x, y] => compareValues .eq (· == .eq) x y
  | .gtE, [x, y] => compareValues .ord (· != .lt) x y
  | .ltE, [x, y] => compareValues .ord (· != .gt) x y
  | .ne, [x, y] => compareValues .eq (· != .eq) x y
  | .and, [x, y] => andValues x y
  | .or, [x, y] => orValues x y
  | op, [x, y] =>
      match arithOf op with
      | some arith => evalArith arith x y
      | none => wrongCount op
  | op, _ => wrongCount op

def threeValuedNot : Value → Value
  | .bool flag => .bool (!flag)
  | _ => .null

/-- Membership: false in an empty list, else by three-valued logic. -/
def inValues (value : Value) (values : List Value) : Except String Value :=
  if values.isEmpty then .ok (.bool false)
  else if isNull value then .ok .null
  else do
    let results ← values.mapM fun other => executeOperator .eq [value, other]
    pure (if results.any (·.same (.bool true)) then .bool true
      else if results.any isNull then .null else .bool false)

end ChuSQL.Engine
