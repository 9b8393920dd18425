import ChuSQL.Model.Runtime

/-! The JSON forms of runtime types and values, with their version and type identity. -/

set_option autoImplicit false

namespace ChuSQL.Model

open Library

inductive Json where
  | null
  | bool (flag : Bool)
  | number (value : ℚ)
  | string (text : String)
  | array (items : List Json)
  | object (fields : List (String × Json))

/-- A number that is whole stays an integer, any other becomes a double. -/
def floatingOrInteger (n : ℚ) : Double ⊕ Int :=
  if n.den = 1 then .inr n.num else .inl (Double.ofRational n)

/-- How a failed parser reports, for a failure at the root. -/
def parseEither {α : Type} : Except String α → Except String α
  | .ok result => .ok result
  | .error message => .error ("Error in $: " ++ message)

/-! ### Types -/

mutual

def typeJson : TypeExpr → Json
  | .apply constructor arguments => .array [.number constructor.toInt, .array (typeJsons arguments)]

def typeJsons : List TypeExpr → List Json
  | [] => []
  | argument :: arguments => typeJson argument :: typeJsons arguments

end

mutual

def parseTypeJson : Json → Except String TypeExpr
  | .array [.number n, .array arguments] =>
      match floatingOrInteger n with
      | .inr id =>
          if 0 < id ∧ id ≤ Int64.maxValue.toInt then do
            let arguments ← parseTypeJsons arguments
            pure (.apply (Int64.ofInt id) arguments)
          else .error "invalid type constructor identity"
      | .inl _ => .error "invalid type constructor identity"
  | _ => .error "invalid type expression"

def parseTypeJsons : List Json → Except String (List TypeExpr)
  | [] => pure []
  | argument :: arguments => do
      let expression ← parseTypeJson argument
      let expressions ← parseTypeJsons arguments
      pure (expression :: expressions)

end

/-! ### Values -/

mutual

def valueJson : RuntimeValue → Json
  | .int n => .number n.toInt
  | .double n => .number n.toRational
  | .bool flag => .bool flag
  | .string text => .string text
  | .list values => .array (valueJsons values)
  | .maybe none => .array []
  | .maybe (some value) => .array [valueJson value]
  | .tuple values => .array (valueJsons values)

def valueJsons : List RuntimeValue → List Json
  | [] => []
  | value :: values => valueJson value :: valueJsons values

end

mutual

/-- Parse a value by its physical description. -/
def parseValue : PhysicalType → Json → Except String RuntimeValue
  | .signedInteger, .number n =>
      match floatingOrInteger n with
      | .inr i =>
          if Int64.minValue.toInt ≤ i ∧ i ≤ Int64.maxValue.toInt then .ok (.int (Int64.ofInt i))
          else .error "integer is fractional or out of range"
      | .inl _ => .error "integer is fractional or out of range"
  | .floatingPoint, .number n => .ok (.double (Double.ofRational n))
  | .boolean, .bool flag => .ok (.bool flag)
  | .utf8, .string text => .ok (.string text)
  | .sequence child, .array items => do
      let values ← parseElements child items
      pure (.list values)
  | .optional _, .array [] => .ok (.maybe none)
  | .optional child, .array [item] => do
      let value ← parseValue child item
      pure (.maybe (some value))
  | .optional _, .array _ => .error "invalid optional value"
  | .product fields, .array items =>
      if fields.length = items.length then do
        let values ← parseFields fields items
        pure (.tuple values)
      else .error "invalid physical value"
  | _, _ => .error "invalid physical value"

def parseElements (child : PhysicalType) : List Json → Except String (List RuntimeValue)
  | [] => pure []
  | item :: items => do
      let value ← parseValue child item
      let values ← parseElements child items
      pure (value :: values)

def parseFields : List PhysicalType → List Json → Except String (List RuntimeValue)
  | field :: fields, item :: items => do
      let value ← parseValue field item
      let values ← parseFields fields items
      pure (value :: values)
  | _, _ => pure []

end

def runtimeToJSON (id : TypeId) (value : RuntimeValue) : Json :=
  .array [.number 1, typeJson id.expression, valueJson value]

def parseEnvelope : Json → Except String (TypeExpr × Json)
  | .array [.number version, expression, payload] =>
      if version = 1 then do
        let type ← parseTypeJson expression
        pure (type, payload)
      else .error "unsupported value encoding version or invalid envelope"
  | .array _ => .error "unsupported value encoding version or invalid envelope"
  | _ => .error "invalid value envelope"

/-- Parse and check a typed value of the protocol. -/
def runtimeFromJSON (registry : TypeRegistry) (json : Json) : Except String (TypeId × RuntimeValue) := do
  let (expression, payload) ← parseEither (parseEnvelope json)
  let descriptor ← resolveType registry expression
  let value ← parseEither (parseValue descriptor.physical payload)
  validateValue registry descriptor.id value
  pure (descriptor.id, value)

end ChuSQL.Model
