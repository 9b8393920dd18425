import ChuSQL.Storage.Page

/-! Cell values, rows, and the byte keys under which indexes file them. Numbers
are what JSON decoding produces: integers of the 64-bit ranges, or finite floating
point values, kept as exact rationals. -/

set_option autoImplicit false

namespace ChuSQL.Storage

inductive Number where
  | int (value : Int)
  | float (value : Rat)
deriving Repr, DecidableEq

/-- JSON values. The fields of an object are sorted by name. -/
inductive Json where
  | null
  | bool (value : Bool)
  | number (value : Number)
  | string (value : String)
  | array (items : List Json)
  | object (fields : List (String × Json))

namespace Json

mutual

def decEq : (first second : Json) → Decidable (first = second)
  | null, second =>
      match second with
      | null => isTrue rfl
      | bool _ | number _ | string _ | array _ | object _ => isFalse nofun
  | bool value, second =>
      match second with
      | bool other => decidable_of_iff (value = other) (by simp)
      | null | number _ | string _ | array _ | object _ => isFalse nofun
  | number value, second =>
      match second with
      | number other => decidable_of_iff (value = other) (by simp)
      | null | bool _ | string _ | array _ | object _ => isFalse nofun
  | string value, second =>
      match second with
      | string other => decidable_of_iff (value = other) (by simp)
      | null | bool _ | number _ | array _ | object _ => isFalse nofun
  | array items, second =>
      match second with
      | array others =>
          have := decEqItems items others
          decidable_of_iff (items = others) (by simp)
      | null | bool _ | number _ | string _ | object _ => isFalse nofun
  | object fields, second =>
      match second with
      | object others =>
          have := decEqFields fields others
          decidable_of_iff (fields = others) (by simp)
      | null | bool _ | number _ | string _ | array _ => isFalse nofun

def decEqItems : (first second : List Json) → Decidable (first = second)
  | [], [] => isTrue rfl
  | [], _ :: _ => isFalse nofun
  | _ :: _, [] => isFalse nofun
  | item :: items, other :: others =>
      have := decEq item other
      have := decEqItems items others
      decidable_of_iff (item = other ∧ items = others) (by simp)

def decEqFields : (first second : List (String × Json)) → Decidable (first = second)
  | [], [] => isTrue rfl
  | [], _ :: _ => isFalse nofun
  | _ :: _, [] => isFalse nofun
  | (name, value) :: fields, (otherName, other) :: others =>
      have := decEq value other
      have := decEqFields fields others
      decidable_of_iff ((name = otherName ∧ value = other) ∧ fields = others) (by simp)

end

instance : DecidableEq Json := decEq

def asString : Json → Option String
  | string value => some value
  | _ => none

def asArray : Json → Option (List Json)
  | array items => some items
  | _ => none

end Json

/-- A row: values by column name. A row is a map, so its fields are kept sorted
by name and each name occurs once. -/
structure Row where
  fields : List (String × Json)
  sorted : fields.Pairwise fun first second => first.1 < second.1
deriving DecidableEq

namespace Row

def get (row : Row) (column : String) : Option Json := row.fields.lookup column

/-- Keep the columns a predicate allows. -/
def filter (row : Row) (keep : String → Bool) : Row :=
  ⟨row.fields.filter fun field => keep field.1, row.sorted.sublist List.filter_sublist⟩

end Row

/-! ### Index keys -/

/-- The integer of a number; whole floats count, large ones do not. -/
def scalarInt : Json → Option Int
  | .number (.int value) => if -2 ^ 63 ≤ value ∧ value < 2 ^ 63 then some value else none
  | .number (.float value) =>
      if value.den = 1 ∧ value.num.natAbs ≤ 9007199254740992 then some value.num else none
  | _ => none

def rowInt (row : Row) (column : String) : Option Int := (row.get column).bind scalarInt

def bigEndian : (width : Nat) → Nat → Bytes
  | 0, _ => []
  | width + 1, value => bigEndian width (value / 256) ++ [Fin.ofNat 256 value]

/-- Eight bytes in the order of the integers: the sign bit is flipped. -/
def keyOf (value : Int) : Bytes := bigEndian 8 ((value + 2 ^ 63) % 2 ^ 64).toNat

def utf8 (text : String) : Bytes := text.toUTF8.data.toList.map fun byte => Fin.ofNat 256 byte.toNat

/-- Labels of an enumeration: short texts without NUL, each once. -/
def enumLabels : List Json → Option (List String)
  | [] => some []
  | item :: rest => do
      let label ← item.asString
      let labels ← enumLabels rest
      if label.utf8ByteSize > 63 ∨ Char.ofNat 0 ∈ label.toList ∨ label ∈ labels then none
      else some (label :: labels)

/-- Position of an enumeration value among its labels. -/
def enumRank : Json → Option Int
  | .object [(name, payload)] =>
      if name = "__chusql_enum_v1" then
        match payload.asArray with
        | some [typeName, labels, value] => do
            let type ← typeName.asString
            if type.isEmpty then none
            else
              let labels ← labels.asArray
              let labels ← enumLabels labels
              let label ← value.asString
              let rank ← labels.findIdx? (· == label)
              some rank
        | _ => none
      else none
  | _ => none

/-- The key bytes of a value, for lookups as for stored rows. -/
def valueKey (value : Json) : Option Bytes :=
  match value with
  | .number _ => (scalarInt value).map keyOf
  | .string text => some (utf8 text)
  | .bool flag => some [if flag then 1 else 0]
  | .object _ => (enumRank value).map keyOf
  | .null | .array _ => none

/-- A row's key in the index of a column; nulls and missing columns have none. -/
def rowKey (row : Row) (column : String) : Option Bytes := (row.get column).bind valueKey

end ChuSQL.Storage
