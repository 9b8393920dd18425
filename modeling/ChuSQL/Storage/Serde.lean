import ChuSQL.Storage.Value

/-! JSON text is read and written by a library, which stays a parameter here. The
conversions between records and JSON values follow the derived implementations:
objects have their fields sorted, unknown fields are ignored, missing fields
take their declared defaults. -/

set_option autoImplicit false

namespace ChuSQL.Storage

/-- The JSON text library. `mismatch` is its message for a value of the wrong shape,
`badUtf8` the message for bytes that are no text. -/
structure Serde where
  toVec : Json → Bytes
  fromSlice : Bytes → Except String Json
  mismatch : Json → String
  badUtf8 : Bytes → String

/-- The library reads back the value it wrote. -/
def Serde.Faithful (serde : Serde) (value : Json) : Prop :=
  serde.fromSlice (serde.toVec value) = .ok value

instance (serde : Serde) (value : Json) : Decidable (serde.Faithful value) :=
  inferInstanceAs (Decidable (serde.fromSlice (serde.toVec value) = .ok value))

namespace Json

def ofNat (value : Nat) : Json := .number (.int value)
def ofInt (value : Int) : Json := .number (.int value)
def ofOption {α : Type} (write : α → Json) : Option α → Json
  | none => .null
  | some value => write value

def asBool : Json → Option Bool
  | bool value => some value
  | _ => none

/-- An unsigned integer below a bound. -/
def asNat (bound : Nat) : Json → Option Nat
  | number (.int (.ofNat value)) => if value < bound then some value else none
  | _ => none

def asU8 : Json → Option Nat := asNat (2 ^ 8)

def asU64 : Json → Option Nat := asNat (2 ^ 64)

/-- A signed 64-bit integer. -/
def asInt64 : Json → Option Int
  | number (.int value) => if -2 ^ 63 ≤ value ∧ value < 2 ^ 63 then some value else none
  | _ => none

def asObject : Json → Option (List (String × Json))
  | object fields => some fields
  | _ => none

def readItems {α : Type} (read : Json → Option α) : List Json → Option (List α)
  | [] => some []
  | item :: rest => do
      let value ← read item
      let values ← readItems read rest
      some (value :: values)

def asList {α : Type} (read : Json → Option α) (value : Json) : Option (List α) :=
  value.asArray.bind (readItems read)

def requiredField {α : Type} (read : Json → Option α) (field : Option Json) : Option α :=
  field.bind read

/-- An optional field: missing and null mean none. -/
def optionField {α : Type} (read : Json → Option α) : Option Json → Option (Option α)
  | none => some none
  | some null => some none
  | some value => (read value).map some

def defaultField {α : Type} (read : Json → Option α) (missing : α) : Option Json → Option α
  | none => some missing
  | some value => read value

theorem requiredField_some {α : Type} (read : Json → Option α) (value : Json) :
    requiredField read (some value) = read value := by
  rw [requiredField, Option.bind_some]

@[simp] theorem asBool_bool (value : Bool) : asBool (.bool value) = some value := rfl
@[simp] theorem asString_string (value : String) : asString (.string value) = some value := rfl

@[simp] theorem asNat_ofNat {bound value : Nat} (small : value < bound) :
    asNat bound (ofNat value) = some value :=
  if_pos small

theorem asU8_ofNat {value : Nat} (small : value < 2 ^ 8) : asU8 (ofNat value) = some value :=
  asNat_ofNat small

theorem asU64_ofNat {value : Nat} (small : value < 2 ^ 64) : asU64 (ofNat value) = some value :=
  asNat_ofNat small

@[simp] theorem asInt64_ofInt {value : Int} (low : -2 ^ 63 ≤ value) (high : value < 2 ^ 63) :
    asInt64 (ofInt value) = some value := by
  simp only [asInt64, ofInt]
  rw [if_pos ⟨low, high⟩]

theorem asList_map {α : Type} {read : Json → Option α} {write : α → Json} {values : List α}
    (each : ∀ value ∈ values, read (write value) = some value) :
    asList read (.array (values.map write)) = some values := by
  simp only [asList, asArray, Option.bind_some]
  induction values with
  | nil => rfl
  | cons value rest ih =>
      have here := each value List.mem_cons_self
      have later := ih fun other member => each other (List.mem_cons_of_mem _ member)
      simp [readItems, here, later]

theorem optionField_ofOption {α : Type} {read : Json → Option α} {write : α → Json}
    {value : Option α} (each : ∀ inner ∈ value, read (write inner) = some inner)
    (visible : ∀ inner, write inner ≠ .null) :
    optionField read (some (ofOption write value)) = some value := by
  cases value with
  | none => rfl
  | some inner =>
      have here := each inner rfl
      have shown := visible inner
      simp only [ofOption]
      cases written : write inner with
      | null => exact absurd written shown
      | _ => simp [optionField, ← written, here]

end Json

/-- A row as a JSON object, and back. -/
def Row.toJson (row : Row) : Json := .object row.fields

def Row.ofJson : Json → Option Row
  | .object fields =>
      if sorted : fields.Pairwise fun first second => first.1 < second.1 then some ⟨fields, sorted⟩
      else none
  | _ => none

@[simp] theorem Row.ofJson_toJson (row : Row) : Row.ofJson row.toJson = some row := by
  exact dif_pos row.sorted

end ChuSQL.Storage
