import ChuSQL.Library.Fallible
import ChuSQL.Library.Binary64
import ChuSQL.Library.FlatOrder

/-! Runtime types and values: their identities, their equality and order, and the check
that a value fits a type. -/

set_option autoImplicit false

namespace ChuSQL.Model

open Library

/-! ### Types -/

inductive TypeExpr where
  | apply (constructor : Int64) (arguments : List TypeExpr)

/-- Identifies a full type instance. -/
@[ext]
structure TypeId where
  expression : TypeExpr

inductive Kind where
  | type
  | arrow (argument result : Kind)
  | product
  deriving DecidableEq

inductive PhysicalType where
  | signedInteger
  | floatingPoint
  | boolean
  | utf8
  | sequence (child : PhysicalType)
  | optional (child : PhysicalType)
  | product (fields : List PhysicalType)

inductive TypeCapability where
  | eq
  | ord
  | hash
  deriving DecidableEq

structure TypeDescriptor where
  id : TypeId
  name : String
  physical : PhysicalType
  capabilities : List TypeCapability

/-- The constructors with their names and kinds. -/
abbrev TypeRegistry := List (Int64 × String × Kind)

def builtinTypes : TypeRegistry :=
  [(1, "Int", .type), (2, "Double", .type), (3, "Bool", .type), (4, "String", .type),
    (5, "List", .arrow .type .type), (6, "Maybe", .arrow .type .type), (7, "Tuple", .product)]

def intType : TypeExpr := .apply 1 []
def doubleType : TypeExpr := .apply 2 []
def boolType : TypeExpr := .apply 3 []
def stringType : TypeExpr := .apply 4 []

mutual

/-- The derived order. -/
def TypeExpr.compare : TypeExpr → TypeExpr → Ordering
  | .apply first xs, .apply second ys => (Ord.compare first.toInt second.toInt).then (compareAll xs ys)

def TypeExpr.compareAll : List TypeExpr → List TypeExpr → Ordering
  | [], [] => .eq
  | [], _ :: _ => .lt
  | _ :: _, [] => .gt
  | x :: xs, y :: ys => (x.compare y).then (compareAll xs ys)

end

mutual

theorem TypeExpr.compare_eq : ∀ left right : TypeExpr, left.compare right = .eq ↔ left = right
  | .apply first xs, .apply second ys => by
      rw [compare, Ordering.then_eq_eq, compareAll_eq xs ys, compare_eq_iff_eq, Int64.toInt_inj,
        TypeExpr.apply.injEq]

theorem TypeExpr.compareAll_eq : ∀ left right : List TypeExpr, compareAll left right = .eq ↔ left = right
  | [], [] => by simp [compareAll]
  | [], _ :: _ => by simp [compareAll]
  | _ :: _, [] => by simp [compareAll]
  | x :: xs, y :: ys => by
      rw [compareAll, Ordering.then_eq_eq, compare_eq x y, compareAll_eq xs ys, List.cons.injEq]

end

instance : DecidableEq TypeExpr := fun left right => decidable_of_iff _ (TypeExpr.compare_eq left right)

instance : DecidableEq TypeId := fun left right =>
  decidable_of_iff (left.expression = right.expression) TypeId.ext_iff.symm

def TypeId.compare (left right : TypeId) : Ordering := left.expression.compare right.expression

def TypeConstructorId.show (id : Int64) : String :=
  "TypeConstructorId " ++ if id.toInt < 0 then "(" ++ toString id.toInt ++ ")" else toString id.toInt

/-- What a constructor of this number and kind makes of its arguments. -/
def applyConstructor : Int64 → Kind → List PhysicalType → Option PhysicalType
  | 1, .type, [] => some .signedInteger
  | 2, .type, [] => some .floatingPoint
  | 3, .type, [] => some .boolean
  | 4, .type, [] => some .utf8
  | 5, .arrow .type .type, [child] => some (.sequence child)
  | 6, .arrow .type .type, [child] => some (.optional child)
  | 7, .product, fields => some (.product fields)
  | _, _, _ => none

mutual

/-- Resolve a type instance, checking the kinds. -/
def resolveType (registry : TypeRegistry) : TypeExpr → Except String TypeDescriptor
  | .apply constructor arguments => do
      let (name, kind) ← (match registry.filter fun entry => entry.1 = constructor with
        | [entry] => .ok entry.2
        | _ => .error ("unknown type constructor: " ++ TypeConstructorId.show constructor))
      let children ← resolveTypes registry arguments
      let physical ← (match applyConstructor constructor kind (children.map (·.physical)) with
        | some physical => .ok physical
        | none => .error ("invalid type constructor application: " ++ name))
      let capabilities := [TypeCapability.eq, .ord, .hash].filter fun capability =>
        children.all fun child => child.capabilities.contains capability
      pure ⟨⟨.apply constructor arguments⟩, name, physical, capabilities⟩

def resolveTypes (registry : TypeRegistry) : List TypeExpr → Except String (List TypeDescriptor)
  | [] => pure []
  | expression :: rest => do
      let descriptor ← resolveType registry expression
      let descriptors ← resolveTypes registry rest
      pure (descriptor :: descriptors)

end

def describeType (registry : TypeRegistry) (id : TypeId) : Except String TypeDescriptor :=
  resolveType registry id.expression

/-! ### Values -/

inductive RuntimeValue where
  | int (n : Int64)
  | double (n : Double)
  | bool (flag : Bool)
  | string (text : String)
  | list (values : List RuntimeValue)
  | maybe (value : Option RuntimeValue)
  | tuple (values : List RuntimeValue)

namespace RuntimeValue

/-- The place of the constructor in the declaration. -/
def tag : RuntimeValue → Nat
  | int _ => 1
  | double _ => 2
  | bool _ => 3
  | string _ => 4
  | list _ => 5
  | maybe _ => 6
  | tuple _ => 7

mutual

/-- The derived equality, in which the two zeros are equal. -/
def same : RuntimeValue → RuntimeValue → Bool
  | int left, int right => left == right
  | double left, double right => left.same right
  | bool left, bool right => left == right
  | string left, string right => left == right
  | list left, list right => sameAll left right
  | maybe none, maybe none => true
  | maybe (some left), maybe (some right) => left.same right
  | tuple left, tuple right => sameAll left right
  | _, _ => false

def sameAll : List RuntimeValue → List RuntimeValue → Bool
  | [], [] => true
  | left :: lefts, right :: rights => left.same right && sameAll lefts rights
  | _, _ => false

end

mutual

/-- The derived order. -/
def compare : RuntimeValue → RuntimeValue → Ordering
  | int left, int right => Ord.compare left.toInt right.toInt
  | double left, double right => left.compare right
  | bool left, bool right => Ord.compare left right
  | string left, string right => Ord.compare left right
  | list left, list right => compareAll left right
  | maybe none, maybe none => .eq
  | maybe none, maybe (some _) => .lt
  | maybe (some _), maybe none => .gt
  | maybe (some left), maybe (some right) => left.compare right
  | tuple left, tuple right => compareAll left right
  | left, right => Ord.compare left.tag right.tag

def compareAll : List RuntimeValue → List RuntimeValue → Ordering
  | [], [] => .eq
  | [], _ :: _ => .lt
  | _ :: _, [] => .gt
  | left :: lefts, right :: rights => (left.compare right).then (compareAll lefts rights)

end

mutual

/-- Every double in the value is a number. -/
def isFinite : RuntimeValue → Bool
  | double n => n.isFinite
  | list values => allFinite values
  | maybe (some value) => value.isFinite
  | tuple values => allFinite values
  | _ => true

def allFinite : List RuntimeValue → Bool
  | [] => true
  | value :: values => value.isFinite && allFinite values

end

end RuntimeValue

mutual

def PhysicalType.show : PhysicalType → String
  | .signedInteger => "SignedInteger"
  | .floatingPoint => "FloatingPoint"
  | .boolean => "Boolean"
  | .utf8 => "Utf8"
  | .sequence child => "Sequence " ++ child.showArgument
  | .optional child => "Optional " ++ child.showArgument
  | .product fields => "Product [" ++ PhysicalType.showFields fields ++ "]"

/-- The rendering as an argument of a constructor. -/
def PhysicalType.showArgument : PhysicalType → String
  | .sequence child => "(Sequence " ++ child.showArgument ++ ")"
  | .optional child => "(Optional " ++ child.showArgument ++ ")"
  | .product fields => "(Product [" ++ PhysicalType.showFields fields ++ "])"
  | .signedInteger => "SignedInteger"
  | .floatingPoint => "FloatingPoint"
  | .boolean => "Boolean"
  | .utf8 => "Utf8"

def PhysicalType.showFields : List PhysicalType → String
  | [] => ""
  | [field] => field.show
  | field :: fields => field.show ++ "," ++ PhysicalType.showFields fields

end

def misfit (physical : PhysicalType) : Except String Unit :=
  .error ("value does not fit physical type: " ++ physical.show)

mutual

/-- Check the physical structure of a value. -/
def validatePhysical : PhysicalType → RuntimeValue → Except String Unit
  | .signedInteger, .int _ => .ok ()
  | .floatingPoint, .double n => if n.isNaN || n.isInfinite then misfit .floatingPoint else .ok ()
  | .boolean, .bool _ => .ok ()
  | .utf8, .string _ => .ok ()
  | .sequence child, .list values => validateElements child values
  | .optional _, .maybe none => .ok ()
  | .optional child, .maybe (some value) => validatePhysical child value
  | .product fields, .tuple values =>
      if fields.length = values.length then validateFields fields values else misfit (.product fields)
  | physical, _ => misfit physical

def validateElements (child : PhysicalType) : List RuntimeValue → Except String Unit
  | [] => .ok ()
  | value :: values => do
      validatePhysical child value
      validateElements child values

def validateFields : List PhysicalType → List RuntimeValue → Except String Unit
  | field :: fields, value :: values => do
      validatePhysical field value
      validateFields fields values
  | _, _ => .ok ()

end

/-- Check a value against its logical type. -/
def validateValue (registry : TypeRegistry) (id : TypeId) (value : RuntimeValue) : Except String Unit := do
  let descriptor ← describeType registry id
  validatePhysical descriptor.physical value

end ChuSQL.Model
