import ChuSQL.Library.Fallible
import ChuSQL.Model.Column

/-! The families of column types: which may be compared, and what a column holds. -/

set_option autoImplicit false

namespace ChuSQL.Model

open Library

inductive TypeClass where
  | numeric
  | text
  | temporal
  | boolean
  | null
  | runtime
  | enum
  | scalar
  deriving DecidableEq

def typeClassOf : ColumnType → TypeClass
  | .int | .bigInt | .smallInt | .float | .double | .decimal _ _ => .numeric
  | .str | .varchar _ | .char _ | .blob => .text
  | .enum _ _ => .enum
  | .date | .timestamp => .temporal
  | .scalar _ => .scalar
  | .bool => .boolean
  | .null => .null
  | .domain _ base => typeClassOf base
  | .runtime _ => .runtime

/-- Types of one class compare; scalars, enums and runtime types only with themselves. -/
def comparableClasses (a b : ColumnType) : Bool :=
  if a = .null ∨ b = .null then true
  else if typeClassOf a = .scalar ∨ typeClassOf b = .scalar then a = b
  else if typeClassOf a = .enum ∨ typeClassOf b = .enum then a = b
  else if typeClassOf a = .runtime ∨ typeClassOf b = .runtime then decide (a = b) && hasTypeCapability .eq a
  else
    decide (typeClassOf a = typeClassOf b) ||
      decide (typeClassOf a = .temporal ∧ typeClassOf b = .text) ||
      decide (typeClassOf a = .text ∧ typeClassOf b = .temporal)

/-- A second domain is replaced by its base type. -/
def comparableBase (a : ColumnType) : ColumnType → Bool
  | .domain _ base => comparableBase a base
  | b => comparableClasses a b

/-- Whether values of the types may be compared, domains by their base types. -/
def comparableTypes : ColumnType → ColumnType → Bool
  | .domain _ base, other => comparableTypes base other
  | a, b => comparableBase a b

def floatType : ColumnType → Bool
  | .float | .double | .decimal _ _ => true
  | .domain _ base => floatType base
  | _ => false

def integerType : ColumnType → Bool
  | .int | .bigInt | .smallInt => true
  | .domain _ base => integerType base
  | _ => false

def floatValue : Value → Bool
  | .float _ => true
  | _ => false

/-- The types without their domains. -/
def baseType : ColumnType → ColumnType
  | .domain _ base => baseType base
  | type => type

/-- The classes of types that hold a value, NULL apart. -/
def holdsClass : Value → TypeClass → Bool
  | .int _, type | .float _, type => type == .numeric
  | .str _, type => type == .text || type == .temporal || type == .scalar
  | .bool _, type => type == .boolean
  | .enum _ _ _, type => type == .enum
  | .runtime _ _, type => type == .runtime
  | .null, _ => true

/-- Labels and composite values belong to their own type. -/
def belongs : ColumnType → Value → Bool
  | .enum name labels, .enum other supplied label => name == other && labels == supplied && labels.contains label
  | .runtime id, .runtime other content => id == other && (validateValue builtinTypes other content).isOk
  | _, _ => true

/-- What a column of the type holds, as stored or as read back: a whole double is read
back as an integer, so any number stands in any numeric column. -/
def ofType (type : ColumnType) (value : Value) : Bool :=
  holdsClass value (typeClassOf type) && belongs (baseType type) value

theorem typeClassOf_base (type : ColumnType) : typeClassOf (baseType type) = typeClassOf type := by
  induction type with
  | domain name base ih => exact ih
  | _ => rfl

theorem baseType_ne_domain (type : ColumnType) (name : String) (inner : ColumnType) :
    baseType type ≠ .domain name inner := by
  induction type with
  | domain _ base ih => exact ih
  | _ => simp [baseType]

theorem hasTypeCapability_base (capability : TypeCapability) (type : ColumnType) :
    hasTypeCapability capability (baseType type) = hasTypeCapability capability type := by
  induction type with
  | domain name base ih => exact ih
  | _ => rfl

theorem comparableTypes_base (a b : ColumnType) :
    comparableTypes a b = comparableClasses (baseType a) (baseType b) := by
  induction a with
  | domain name base ih => exact ih
  | _ =>
      induction b with
      | domain name base ih => exact ih
      | _ => rfl

theorem comparableClasses_of_ne {a b : ColumnType} (comparable : comparableClasses a b = true) (left : typeClassOf a ≠ .null)
    (right : typeClassOf b ≠ .null) :
    (typeClassOf a = typeClassOf b ∨ (typeClassOf a = .temporal ∧ typeClassOf b = .text) ∨
        (typeClassOf a = .text ∧ typeClassOf b = .temporal)) ∧
      (typeClassOf a = .enum ∨ typeClassOf a = .runtime → a = b) ∧
      (typeClassOf a = .runtime → hasTypeCapability .eq a = true) := by
  have first : a ≠ .null := fun equal => left (equal ▸ rfl)
  have second : b ≠ .null := fun equal => right (equal ▸ rfl)
  rw [comparableClasses, if_neg (by simp [first, second])] at comparable
  split_ifs at comparable with scalar enum runtime
  · cases of_decide_eq_true comparable
    exact ⟨.inl rfl, fun _ => rfl, fun equal => by simp [equal] at scalar⟩
  · cases of_decide_eq_true comparable
    exact ⟨.inl rfl, fun _ => rfl, fun equal => by simp [equal] at enum⟩
  · rw [Bool.and_eq_true, decide_eq_true_eq] at comparable
    obtain ⟨rfl, capable⟩ := comparable
    exact ⟨.inl rfl, fun _ => rfl, fun _ => capable⟩
  · simp only [Bool.or_eq_true, decide_eq_true_eq, or_assoc] at comparable
    exact ⟨comparable, fun special => by
      cases special with
      | inl equal => simp [equal] at enum
      | inr equal => simp [equal] at runtime, fun equal => by simp [equal] at runtime⟩

/-! ### What a column stores is of its type -/

theorem toInt_class [Host] {type : ColumnType} {value stored : Value} (stores : toInt type value = .ok stored) :
    holdsClass stored .numeric = true := by
  cases value with
  | int n => cases stores; rfl
  | float d =>
      rw [toInt] at stores
      split at stores
      · cases stores
        rfl
      · cases stores
  | _ => cases stores

theorem toFloat_class {type : ColumnType} {value stored : Value} (stores : toFloat type value = .ok stored) :
    holdsClass stored .numeric = true := by
  cases value with
  | int n => cases stores; rfl
  | float d => cases stores; rfl
  | _ => cases stores

theorem roundDecimal_float {precision scale : Int} {d : Double} {stored : Value}
    (stores : roundDecimal precision scale d = .ok stored) : ∃ e, stored = .float e := by
  rw [roundDecimal] at stores
  split_ifs at stores
  cases stores
  exact ⟨_, rfl⟩

theorem toDecimal_class {precision scale : Int} {value stored : Value}
    (stores : toDecimal precision scale value = .ok stored) : holdsClass stored .numeric = true := by
  cases value with
  | int n | float d =>
      simp only [toDecimal] at stores
      split at stores
      · cases stores
      · obtain ⟨e, rfl⟩ := roundDecimal_float stores
        rfl
  | _ =>
      simp only [toDecimal] at stores
      split at stores <;> cases stores

theorem toText_class {type : ColumnType} {value stored : Value} (stores : toText type value = .ok stored) :
    ∃ text, stored = .str text := by
  cases value with
  | str text | enum _ _ text => cases stores; exact ⟨_, rfl⟩
  | _ => cases stores

theorem toSized_class {length : Int} {value stored : Value} (stores : toSized length value = .ok stored) :
    ∃ text, stored = .str text := by
  cases value with
  | str text =>
      simp only [toSized] at stores
      split at stores
      · cases stores
        exact ⟨_, rfl⟩
      · cases stores
  | _ => cases stores

theorem toDate_class {value stored : Value} (stores : toDate value = .ok stored) : ∃ text, stored = .str text := by
  cases value with
  | str text =>
      simp only [toDate] at stores
      split at stores
      · cases stores
        exact ⟨_, rfl⟩
      · cases stores
  | _ => cases stores

theorem toTimestamp_class {value stored : Value} (stores : toTimestamp value = .ok stored) :
    ∃ text, stored = .str text := by
  cases value with
  | str text =>
      simp only [toTimestamp] at stores
      split at stores
      · cases stores
        exact ⟨_, rfl⟩
      · cases stores
  | _ => cases stores

theorem ofType_null (type : ColumnType) : ofType type .null = true := by
  rw [ofType]
  cases baseType type <;> rfl

/-- What a column makes of a value is a value of the column's type. -/
theorem ofType_of_coerce [Host] {type : ColumnType} {value stored : Value}
    (stores : coerceValue type value = .ok stored) : ofType type stored = true := by
  by_cases null : value = .null
  · subst null
    have same : stored = .null := by
      cases type <;> (simp only [coerceValue] at stores; cases stores; rfl)
    rw [same]
    exact ofType_null type
  · induction type with
    | domain name base ih =>
        rw [coerceValue.eq_def] at stores
        cases value <;> first | exact absurd rfl null | exact ih stores
    | int | bigInt | smallInt =>
        obtain ⟨type, stores⟩ : ∃ type, toInt type value = .ok stored := by
          cases value <;> first | exact absurd rfl null | exact ⟨_, stores⟩
        simp [ofType, typeClassOf, baseType, belongs, toInt_class stores]
    | float | double =>
        obtain ⟨type, stores⟩ : ∃ type, toFloat type value = .ok stored := by
          cases value <;> first | exact absurd rfl null | exact ⟨_, stores⟩
        simp [ofType, typeClassOf, baseType, belongs, toFloat_class stores]
    | decimal precision scale =>
        have stores : toDecimal precision scale value = .ok stored := by
          cases value <;> first | exact absurd rfl null | exact stores
        simp [ofType, typeClassOf, baseType, belongs, toDecimal_class stores]
    | str | blob =>
        obtain ⟨text, rfl⟩ : ∃ text, stored = .str text := by
          cases value <;> first | exact absurd rfl null | exact toText_class stores
        rfl
    | varchar | char =>
        obtain ⟨text, rfl⟩ : ∃ text, stored = .str text := by
          cases value <;> first | exact absurd rfl null | exact toSized_class stores
        rfl
    | date =>
        obtain ⟨text, rfl⟩ : ∃ text, stored = .str text := by
          cases value <;> first | exact absurd rfl null | exact toDate_class stores
        rfl
    | timestamp =>
        obtain ⟨text, rfl⟩ : ∃ text, stored = .str text := by
          cases value <;> first | exact absurd rfl null | exact toTimestamp_class stores
        rfl
    | bool =>
        cases value with
        | null => exact absurd rfl null
        | bool flag =>
            cases stores
            rfl
        | _ => cases stores
    | scalar kind =>
        cases value with
        | null => exact absurd rfl null
        | str text =>
            obtain ⟨normal, _, rest⟩ := bind_eq_ok.mp stores
            cases rest
            rfl
        | _ => cases stores
    | null =>
        cases value with
        | null => exact absurd rfl null
        | _ => cases stores
    | enum name labels =>
        cases value with
        | null => exact absurd rfl null
        | str label =>
            rw [coerceValue] at stores
            split at stores
            · rename_i member
              cases stores
              simp [ofType, typeClassOf, holdsClass, baseType, belongs, member]
            · cases stores
        | enum other supplied label =>
            rw [coerceValue] at stores
            split at stores
            · rename_i same
              obtain ⟨rfl, rfl, member⟩ := same
              cases stores
              simp [ofType, typeClassOf, holdsClass, baseType, belongs, member]
            · cases stores
        | _ => cases stores
    | runtime expected =>
        cases value with
        | null => exact absurd rfl null
        | runtime supplied content =>
            rw [coerceValue] at stores
            split at stores
            · rename_i same
              subst same
              obtain ⟨_, valid, rest⟩ := bind_eq_ok.mp stores
              cases rest
              simp [ofType, typeClassOf, holdsClass, baseType, belongs, valid, Except.isOk, Except.toBool]
            · cases stores
        | int | float | bool | str =>
            obtain ⟨_, valid, rest⟩ := bind_eq_ok.mp stores
            cases rest
            simp [ofType, typeClassOf, holdsClass, baseType, belongs, valid, Except.isOk, Except.toBool]
        | enum => cases stores

end ChuSQL.Model
