import ChuSQL.Model.Value

/-! Column types, and what a column makes of a value stored in it. -/

set_option autoImplicit false

namespace ChuSQL.Model

open Library

inductive ScalarType where
  | time
  | timeTZ
  | timestampTZ
  | uuid
  | json
  | inet
  | cidr
  | mac
  | interval
  deriving DecidableEq

def scalarName : ScalarType → String
  | .time => "time"
  | .timeTZ => "timetz"
  | .timestampTZ => "timestamptz"
  | .uuid => "uuid"
  | .json => "json"
  | .inet => "inet"
  | .cidr => "cidr"
  | .mac => "macaddr"
  | .interval => "interval"

/-- Only the formats whose canonical text sorts rightly are ordered. -/
def scalarOrdering (kind : ScalarType) : Bool :=
  [ScalarType.time, .timeTZ, .timestampTZ, .uuid, .mac].contains kind

inductive ColumnType where
  | int
  | bigInt
  | smallInt
  | str
  | enum (name : String) (labels : List String)
  | varchar (length : Int)
  | char (length : Int)
  | bool
  | float
  | double
  | decimal (precision scale : Int)
  | date
  | timestamp
  | blob
  | scalar (kind : ScalarType)
  | null
  | domain (name : String) (base : ColumnType)
  | runtime (id : TypeId)
  deriving DecidableEq

mutual

def renderTypeExpr : TypeExpr → String
  | .apply 1 [] => "Int"
  | .apply 2 [] => "Double"
  | .apply 3 [] => "Bool"
  | .apply 4 [] => "String"
  | .apply 5 [child] => "[" ++ renderTypeExpr child ++ "]"
  | .apply 6 [child] => "Maybe " ++ renderTypeExpr child
  | .apply 7 fields => "(" ++ joinTypes fields ++ ")"
  | .apply constructor arguments =>
      "TypeApply (" ++ TypeConstructorId.show constructor ++ ") [" ++ showTypes arguments ++ "]"

def joinTypes : List TypeExpr → String
  | [] => ""
  | [field] => renderTypeExpr field
  | field :: fields => renderTypeExpr field ++ ", " ++ joinTypes fields

/-- The derived rendering of the arguments of a constructor that is not a built-in one. -/
def showTypes : List TypeExpr → String
  | [] => ""
  | [.apply constructor arguments] =>
      "TypeApply (" ++ TypeConstructorId.show constructor ++ ") [" ++ showTypes arguments ++ "]"
  | .apply constructor arguments :: rest =>
      "TypeApply (" ++ TypeConstructorId.show constructor ++ ") [" ++ showTypes arguments ++ "]," ++ showTypes rest

end

/-- The name of a type in messages. -/
def typeLabel : ColumnType → String
  | .int => "TInt"
  | .bigInt => "TBigInt"
  | .smallInt => "TSmallInt"
  | .str => "TStr"
  | .enum name _ => name
  | .varchar length => "TVarchar " ++ toString length
  | .char length => "TChar " ++ toString length
  | .bool => "TBool"
  | .float => "TFloat"
  | .double => "TDouble"
  | .decimal precision scale => "TDecimal " ++ toString precision ++ " " ++ toString scale
  | .date => "TDate"
  | .timestamp => "TTimestamp"
  | .blob => "TBlob"
  | .scalar kind => scalarName kind
  | .null => "NULL"
  | .domain name _ => name
  | .runtime id => renderTypeExpr id.expression

/-- A domain has what its base type has. -/
def hasTypeCapability (capability : TypeCapability) : ColumnType → Bool
  | .domain _ base => hasTypeCapability capability base
  | .scalar kind => if capability = .ord then scalarOrdering kind else true
  | .runtime id =>
      match describeType builtinTypes id with
      | .ok descriptor => descriptor.capabilities.contains capability
      | .error _ => false
  | _ => true

def scalarRuntimeValue : Value → Option RuntimeValue
  | .int n => some (.int n)
  | .float n => some (.double n)
  | .bool flag => some (.bool flag)
  | .str text => some (.string text)
  | _ => none

/-- Labels are distinct and short, and there is one. -/
def validEnumLabels (labels : List String) : Bool :=
  !labels.isEmpty && decide labels.Nodup &&
    labels.all fun label => !label.toList.contains '\x00' && label.utf8ByteSize ≤ 63

/-- What the model leaves to the scalar formats, to the derived renderings, and to the
conversion of a double that no machine integer stands for. -/
class Host where
  normalizeScalar : ScalarType → String → Except String String
  showValue : Value → String
  showLabels : List String → String
  wideFraction : Double → Int64 × Double

def isInt64 (n : Int) : Prop := Int64.minValue.toInt ≤ n ∧ n ≤ Int64.maxValue.toInt

instance (n : Int) : Decidable (isInt64 n) := inferInstanceAs (Decidable (_ ∧ _))

/-! ### Storing a value in a column -/

section Coerce

variable [Host]

/-- The integer part, when it is a machine integer, and the rest. -/
def properFraction (d : Double) : Int64 × Double :=
  if d.isFinite ∧ isInt64 d.truncate then
    (Int64.ofInt d.truncate, Double.sub d (fromIntegral (Int64.ofInt d.truncate)))
  else Host.wideFraction d

def toInt (type : ColumnType) : Value → Except String Value
  | .int n => .ok (.int n)
  | .float d =>
      if (properFraction d).2.same Double.zero then .ok (.int (properFraction d).1)
      else .error ("cannot put a fractional number into " ++ typeLabel type)
  | _ => .error ("cannot put this value into " ++ typeLabel type)

def toFloat (type : ColumnType) : Value → Except String Value
  | .int n => .ok (.float (fromIntegral n))
  | .float d => .ok (.float d)
  | _ => .error ("cannot put this value into " ++ typeLabel type)

def ten : Double := Double.ofInt 10

/-- Round to the scale, within the precision. -/
def roundDecimal (precision scale : Int) (d : Double) : Except String Value :=
  let factor := ten.pow scale.toNat
  let result := (Double.ofInt (roundEven (d.mul factor).value)).div factor
  if d.isNaN || d.isInfinite || (d.mul factor).isInfinite then
    .error "decimal value is not finite or exceeds precision"
  else if result.abs.geq (ten.pow (precision - scale).toNat) then
    .error "decimal value exceeds precision"
  else .ok (.float result)

def toDecimal (precision scale : Int) (value : Value) : Except String Value :=
  if precision ≤ 0 ∨ 308 < precision ∨ scale < 0 ∨ precision < scale then
    .error "invalid decimal precision or scale"
  else match value with
    | .int n => roundDecimal precision scale (fromIntegral n)
    | .float d => roundDecimal precision scale d
    | _ => .error ("cannot put this value into " ++ typeLabel (.decimal precision scale))

def toText (type : ColumnType) : Value → Except String Value
  | .str text => .ok (.str text)
  | .enum _ _ label => .ok (.str label)
  | _ => .error ("cannot put this value into " ++ typeLabel type)

def toSized (length : Int) : Value → Except String Value
  | .str text =>
      if text.length ≤ length then .ok (.str text)
      else .error ("value is longer than " ++ toString length ++ " characters")
  | _ => .error "cannot put this value into a character column"

def toBool (type : ColumnType) : Value → Except String Value
  | .bool flag => .ok (.bool flag)
  | _ => .error ("cannot put this value into " ++ typeLabel type)

def allOf (count : Nat) (text : List Char) : Bool := text.length == count && text.all Char.isDigit

def validDateText (text : List Char) : Bool :=
  match text.splitOn '-' with
  | [year, month, day] => allOf 4 year && allOf 2 month && allOf 2 day
  | _ => false

def validTimeText (text : List Char) : Bool :=
  match text.splitOn ':' with
  | [hour, minute, second] => allOf 2 hour && allOf 2 minute && allOf 2 second
  | _ => false

def validTimestampText (text : List Char) : Bool :=
  match text.span fun c => !(c == ' ' || c == 'T') with
  | (date, _ :: time) => validDateText date && validTimeText time
  | _ => false

def toDate : Value → Except String Value
  | .str text =>
      if validDateText text.toList then .ok (.str text) else .error "date must look like YYYY-MM-DD"
  | _ => .error "date must be a string"

def toTimestamp : Value → Except String Value
  | .str text =>
      if validTimestampText text.toList then .ok (.str text)
      else .error "timestamp must look like YYYY-MM-DD HH:MM:SS"
  | _ => .error "timestamp must be a string"

def invalidEnum (name : String) (labels : List String) (value : Value) : Except String Value :=
  .error ("invalid ENUM value for " ++ name ++ ": " ++ Host.showValue value ++ "; expected one of " ++
    Host.showLabels labels)

/-- Put a value into a column type: NULL passes, a value of another type is refused. -/
def coerceValue : ColumnType → Value → Except String Value
  | _, .null => .ok .null
  | .int, value => toInt .int value
  | .bigInt, value => toInt .bigInt value
  | .smallInt, value => toInt .smallInt value
  | .float, value => toFloat .float value
  | .double, value => toFloat .double value
  | .decimal precision scale, value => toDecimal precision scale value
  | .enum name labels, .str label =>
      if label ∈ labels then .ok (.enum name labels label) else invalidEnum name labels (.str label)
  | .enum name labels, .enum other supplied label =>
      if name = other ∧ labels = supplied ∧ label ∈ labels then .ok (.enum other supplied label)
      else invalidEnum name labels (.enum other supplied label)
  | .enum name labels, value => invalidEnum name labels value
  | .str, value => toText .str value
  | .varchar length, value => toSized length value
  | .char length, value => toSized length value
  | .bool, value => toBool .bool value
  | .date, value => toDate value
  | .timestamp, value => toTimestamp value
  | .blob, value => toText .blob value
  | .scalar kind, .str text => do
      let normal ← Host.normalizeScalar kind text
      pure (.str normal)
  | .scalar kind, _ => .error (scalarName kind ++ " must be a string")
  | .null, _ => .error "a NULL output cannot contain a non-NULL value"
  | .domain _ base, value => coerceValue base value
  | .runtime expected, .runtime supplied value =>
      if supplied = expected then do
        validateValue builtinTypes expected value
        pure (.runtime supplied value)
      else .error "runtime value type identity mismatch"
  | .runtime expected, value =>
      match scalarRuntimeValue value with
      | some runtime => do
          validateValue builtinTypes expected runtime
          pure (.runtime expected runtime)
      | none => .error "runtime value type identity mismatch"

end Coerce

end ChuSQL.Model
