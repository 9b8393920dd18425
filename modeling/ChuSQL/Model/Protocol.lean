import ChuSQL.Model.Column

/-! The JSON forms of the values of a row. -/

set_option autoImplicit false

namespace ChuSQL.Model

open Library

/-- What the model leaves to the JSON and number libraries: the shortest decimal number
that reads back as a double, and what a failed parser of a tuple says. -/
class Codec where
  fromFloatDigits : Double → ℚ
  mismatch : Json → String

section Protocol

variable [Host] [Codec]

def stringsJson (texts : List String) : Json := .array (texts.map .string)

def valueToJSON : Value → Json
  | .null => .null
  | .int n => .number n.toInt
  | .float d => .number (Codec.fromFloatDigits d)
  | .str text => .string text
  | .bool flag => .bool flag
  | .enum name labels label =>
      .object [("__chusql_enum_v1", .array [.string name, stringsJson labels, .string label])]
  | .runtime id value => .object [("__chusql_runtime_v1", runtimeToJSON id value)]

def parseString : Json → Except String String
  | .string text => .ok text
  | json => .error (Codec.mismatch json)

def parseStrings : Json → Except String (List String)
  | .array items => items.mapM parseString
  | json => .error (Codec.mismatch json)

/-- A tuple of a name, labels and a label. -/
def parseEnum : Json → Except String (String × List String × String)
  | .array [name, labels, label] => do
      let name ← parseString name
      let labels ← parseStrings labels
      let label ← parseString label
      pure (name, labels, label)
  | json => .error (Codec.mismatch json)

/-- A whole number becomes an integer, and keeps its last 64 bits only. -/
def valueFromJSON : Json → Except String Value
  | .null => .ok .null
  | .number n =>
      match floatingOrInteger n with
      | .inr i => .ok (.int (Int64.ofInt i))
      | .inl d => .ok (.float d)
  | .string text => .ok (.str text)
  | .bool flag => .ok (.bool flag)
  | .object [(key, payload)] =>
      if key = "__chusql_enum_v1" then do
        let (name, labels, label) ← parseEnum payload
        if name ≠ "" ∧ validEnumLabels labels then coerceValue (.enum name labels) (.str label)
        else .error "invalid enum value encoding"
      else if key = "__chusql_runtime_v1" then do
        let (id, value) ← runtimeFromJSON builtinTypes payload
        pure (.runtime id value)
      else .error "unsupported value type"
  | _ => .error "unsupported value type"

end Protocol

end ChuSQL.Model
