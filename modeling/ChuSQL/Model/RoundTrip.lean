import ChuSQL.Engine.Equality
import ChuSQL.Engine.Expr
import ChuSQL.Model.Protocol
import ChuSQL.Model.Types

/-! What the protocol makes of a stored value: the same value, unless the value is a double
whose decimal number is a whole one beyond the machine integers. -/

set_option autoImplicit false

namespace ChuSQL.Model

open Library

/-! ### Numbers -/

theorem abs_value_le (d : Double) : |d.value| ≤ largestDouble := by
  cases d with
  | finite value held => exact held.2
  | _ => exact (abs_zero (α := ℚ)).trans_le ((by positivity : (0 : ℚ) ≤ 2 ^ 64).trans le_largestDouble)

/-- A number that rounds to a double is read as the double. -/
theorem ofRational_same {d : Double} (finite : d.isFinite) {q : ℚ} (rounds : nearest q = d.value) :
    (Double.ofRational q).isFinite ∧ (Double.ofRational q).same d = true := by
  have held : |nearest q| ≤ largestDouble := rounds ▸ abs_value_le d
  obtain ⟨back, value⟩ := @Double.value_round (decide (q < 0)) _ held
  refine ⟨back, ?_⟩
  rw [Double.ofRational, Double.same_value back finite, value, rounds]
  exact decide_eq_true rfl

/-- A double is read back from its rational; only the sign of a zero is lost. -/
theorem ofRational_toRational {d : Double} (finite : d.isFinite) :
    (Double.ofRational d.toRational).isFinite ∧ (Double.ofRational d.toRational).same d = true := by
  have exact : d.toRational = d.value := by
    cases d with
    | nan | infinity => cases finite
    | _ => rfl
  exact ofRational_same finite (exact ▸ d.representable_value.nearest)

theorem floatingOrInteger_int (n : Int) : floatingOrInteger n = .inr n := by
  rw [floatingOrInteger, if_pos (Rat.den_intCast n), Rat.num_intCast]

theorem floatingOrInteger_eq {q : ℚ} {n : Int} (whole : floatingOrInteger q = .inr n) : q = n := by
  rw [floatingOrInteger] at whole
  split at whole
  · rename_i integral
    cases whole
    exact (Rat.coe_int_num_of_den_eq_one integral).symm
  · cases whole

/-! ### Types -/

/-- A known constructor has a positive number. -/
theorem known_constructor {constructor : Int64} {entry : Int64 × String × Kind}
    (known : builtinTypes.filter (fun entry => entry.1 = constructor) = [entry]) :
    0 < constructor.toInt ∧ constructor.toInt ≤ Int64.maxValue.toInt := by
  have member : entry ∈ builtinTypes.filter (fun entry => entry.1 = constructor) := known ▸ List.mem_singleton_self _
  obtain ⟨inside, same⟩ := List.mem_filter.mp member
  rw [decide_eq_true_eq] at same
  have positive : ∀ entry ∈ builtinTypes, 0 < entry.1.toInt ∧ entry.1.toInt ≤ Int64.maxValue.toInt := by decide
  exact same ▸ positive entry inside

mutual

/-- The identity of a type that resolves is read back. -/
theorem parseTypeJson_typeJson : ∀ (expression : TypeExpr) {descriptor : TypeDescriptor},
    resolveType builtinTypes expression = .ok descriptor →
    parseTypeJson (typeJson expression) = .ok expression ∧ descriptor.id = ⟨expression⟩
  | .apply constructor arguments, descriptor, resolves => by
      rw [resolveType] at resolves
      obtain ⟨⟨name, kind⟩, known, resolves⟩ := bind_eq_ok.mp resolves
      obtain ⟨children, resolved, resolves⟩ := bind_eq_ok.mp resolves
      obtain ⟨physical, _, resolves⟩ := bind_eq_ok.mp resolves
      cases resolves
      have range : 0 < constructor.toInt ∧ constructor.toInt ≤ Int64.maxValue.toInt := by
        split at known
        · rename_i only
          exact known_constructor only
        · cases known
      rw [typeJson, parseTypeJson, floatingOrInteger_int]
      simp only [range, and_self, if_true, parseTypeJsons_typeJsons arguments resolved, Int64.ofInt_toInt]
      exact ⟨rfl, trivial⟩

theorem parseTypeJsons_typeJsons : ∀ (expressions : List TypeExpr) {descriptors : List TypeDescriptor},
    resolveTypes builtinTypes expressions = .ok descriptors →
    parseTypeJsons (typeJsons expressions) = .ok expressions
  | [], _, _ => rfl
  | expression :: expressions, descriptors, resolves => by
      obtain ⟨descriptor, first, resolves⟩ := bind_eq_ok.mp resolves
      obtain ⟨rest, later, _⟩ := bind_eq_ok.mp resolves
      rw [typeJsons, parseTypeJsons, (parseTypeJson_typeJson expression first).1,
        parseTypeJsons_typeJsons expressions later]
      rfl

end

/-! ### Runtime values -/

/-- A value is read back, equal to what was written, and still fits. -/
def ReadBack (physical : PhysicalType) (value : RuntimeValue) : Prop :=
  ∃ decoded, parseValue physical (valueJson value) = .ok decoded ∧ value.same decoded = true ∧
    validatePhysical physical decoded = .ok ()

theorem valueJsons_length (values : List RuntimeValue) : (valueJsons values).length = values.length := by
  induction values with
  | nil => rfl
  | cons value values ih => rw [valueJsons, List.length_cons, List.length_cons, ih]

mutual

theorem parseValue_valueJson (physical : PhysicalType) (value : RuntimeValue)
    (fits : validatePhysical physical value = .ok ()) : ReadBack physical value := by
  cases value <;> cases physical
  case int.signedInteger n =>
    refine ⟨.int n, ?_, by simp [RuntimeValue.same], rfl⟩
    rw [valueJson, parseValue, floatingOrInteger_int]
    simp only [n.minValue_le_toInt, n.toInt_le, and_self, if_true, Int64.ofInt_toInt]
  case double.floatingPoint d =>
    have finite : d.isFinite := by
      rw [validatePhysical] at fits
      split at fits
      · cases fits
      · rename_i number
        rw [Double.isFinite]
        simpa using number
    obtain ⟨back, equal⟩ := ofRational_toRational finite
    refine ⟨.double (Double.ofRational d.toRational), rfl, Double.same_symm equal, ?_⟩
    rw [validatePhysical, if_neg]
    rw [Double.isFinite] at back
    simpa using back
  case bool.boolean flag => exact ⟨.bool flag, rfl, by simp [RuntimeValue.same], rfl⟩
  case string.utf8 text => exact ⟨.string text, rfl, by simp [RuntimeValue.same], rfl⟩
  case list.sequence values child =>
    obtain ⟨decoded, parsed, equal, fit⟩ := parseElements_valueJsons child values fits
    exact ⟨.list decoded, by rw [valueJson, parseValue, parsed]; rfl, equal, fit⟩
  case maybe.optional value child =>
    cases value with
    | none => exact ⟨.maybe none, rfl, rfl, rfl⟩
    | some value =>
        obtain ⟨decoded, parsed, equal, fit⟩ := parseValue_valueJson child value fits
        exact ⟨.maybe (some decoded), by rw [valueJson, parseValue, parsed]; rfl, equal, fit⟩
  case tuple.product values fields =>
    rw [validatePhysical] at fits
    split at fits
    · rename_i lengths
      obtain ⟨decoded, parsed, equal, fit, count⟩ := parseFields_valueJsons fields values lengths fits
      refine ⟨.tuple decoded, ?_, equal, ?_⟩
      · rw [valueJson, parseValue, if_pos (lengths.trans (valueJsons_length values).symm), parsed]
        rfl
      · rw [validatePhysical, if_pos (lengths.trans count), fit]
    · cases fits
  all_goals cases fits

theorem parseElements_valueJsons (child : PhysicalType) (values : List RuntimeValue)
    (fits : validateElements child values = .ok ()) :
    ∃ decoded, parseElements child (valueJsons values) = .ok decoded ∧ RuntimeValue.sameAll values decoded = true ∧
      validateElements child decoded = .ok () := by
  cases values with
  | nil => exact ⟨[], rfl, rfl, rfl⟩
  | cons value values =>
      obtain ⟨_, first, rest⟩ := bind_eq_ok.mp fits
      obtain ⟨decoded, parsed, equal, fit⟩ := parseValue_valueJson child value first
      obtain ⟨others, later, equals, fitted⟩ := parseElements_valueJsons child values rest
      refine ⟨decoded :: others, ?_, ?_, ?_⟩
      · rw [valueJsons, parseElements, parsed, later]
        rfl
      · rw [RuntimeValue.sameAll, equal, equals]
        rfl
      · rw [validateElements, fit, fitted]
        rfl

theorem parseFields_valueJsons (fields : List PhysicalType) (values : List RuntimeValue)
    (lengths : fields.length = values.length) (fits : validateFields fields values = .ok ()) :
    ∃ decoded, parseFields fields (valueJsons values) = .ok decoded ∧ RuntimeValue.sameAll values decoded = true ∧
      validateFields fields decoded = .ok () ∧ values.length = decoded.length := by
  cases values with
  | nil =>
      cases fields with
      | nil => exact ⟨[], rfl, rfl, rfl, rfl⟩
      | cons => cases lengths
  | cons value values =>
      cases fields with
      | nil => cases lengths
      | cons field fields =>
          obtain ⟨_, first, rest⟩ := bind_eq_ok.mp fits
          obtain ⟨decoded, parsed, equal, fit⟩ := parseValue_valueJson field value first
          obtain ⟨others, later, equals, fitted, count⟩ :=
            parseFields_valueJsons fields values (Nat.succ.inj lengths) rest
          refine ⟨decoded :: others, ?_, ?_, ?_, congrArg (· + 1) count⟩
          · rw [valueJsons, parseFields, parsed, later]
            rfl
          · rw [RuntimeValue.sameAll, equal, equals]
            rfl
          · rw [validateFields, fit, fitted]
            rfl

end

/-! ### Envelopes -/

theorem runtimeFromJSON_toJSON {id : TypeId} {value : RuntimeValue}
    (valid : validateValue builtinTypes id value = .ok ()) :
    ∃ decoded, runtimeFromJSON builtinTypes (runtimeToJSON id value) = .ok (id, decoded) ∧
      value.same decoded = true := by
  obtain ⟨descriptor, resolved, fits⟩ := bind_eq_ok.mp valid
  obtain ⟨parsed, identity⟩ := parseTypeJson_typeJson id.expression resolved
  obtain ⟨decoded, back, equal, fit⟩ := parseValue_valueJson descriptor.physical value fits
  have envelope : parseEnvelope (runtimeToJSON id value) = .ok (id.expression, valueJson value) := by
    rw [runtimeToJSON, parseEnvelope, if_pos rfl, parsed]
    rfl
  have checked : validateValue builtinTypes id decoded = .ok () :=
    bind_eq_ok.mpr ⟨descriptor, resolved, fit⟩
  have same : resolveType builtinTypes id.expression = .ok descriptor := resolved
  refine ⟨decoded, ?_, equal⟩
  rw [runtimeFromJSON, envelope]
  simp only [parseEither, bind, Except.bind, same, back, identity, checked]
  rfl

mutual

/-- A type is read only from its own form. -/
theorem typeJson_of_parse (json : Json) {expression : TypeExpr} (parsed : parseTypeJson json = .ok expression) :
    json = typeJson expression := by
  cases json with
  | array items =>
      cases items with
      | nil => cases parsed
      | cons first rest =>
          cases rest with
          | nil => cases first <;> cases parsed
          | cons second rest =>
              cases rest with
              | cons => cases first <;> cases second <;> cases parsed
              | nil =>
                  cases first <;> cases second
                  case number.array n arguments =>
                    rw [parseTypeJson] at parsed
                    split at parsed
                    · rename_i id whole
                      split at parsed
                      · rename_i range
                        obtain ⟨expressions, others, parsed⟩ := bind_eq_ok.mp parsed
                        cases parsed
                        have small : id ≤ 9223372036854775807 := range.2
                        have back : (Int64.ofInt id).toInt = id := Int64.toInt_ofInt_of_le (by omega) (by omega)
                        rw [typeJson, ← typeJsons_of_parse arguments others, floatingOrInteger_eq whole, back]
                      · cases parsed
                    · cases parsed
                  all_goals cases parsed
  | _ => cases parsed

theorem typeJsons_of_parse (items : List Json) {expressions : List TypeExpr}
    (parsed : parseTypeJsons items = .ok expressions) : items = typeJsons expressions := by
  cases items with
  | nil =>
      cases parsed
      rfl
  | cons item items =>
      obtain ⟨expression, first, parsed⟩ := bind_eq_ok.mp parsed
      obtain ⟨rest, later, parsed⟩ := bind_eq_ok.mp parsed
      cases parsed
      rw [typeJsons, ← typeJson_of_parse item first, ← typeJsons_of_parse items later]

end

mutual

/-- The JSON writes the value: integers as they are, doubles by a number that rounds to them. -/
def Writes : RuntimeValue → Json → Prop
  | .int n, .number q => q = n.toInt
  | .double d, .number q => d = Double.ofRational q
  | .bool flag, .bool other => flag = other
  | .string text, .string other => text = other
  | .list values, .array items => WritesAll values items
  | .maybe none, .array items => items = []
  | .maybe (some value), .array [item] => Writes value item
  | .tuple values, .array items => WritesAll values items
  | _, _ => False

def WritesAll : List RuntimeValue → List Json → Prop
  | [], [] => True
  | value :: values, item :: items => Writes value item ∧ WritesAll values items
  | _, _ => False

end

mutual

theorem writes_of_parse (physical : PhysicalType) (json : Json) {value : RuntimeValue}
    (parsed : parseValue physical json = .ok value) : Writes value json := by
  cases json <;> cases physical
  case number.signedInteger q =>
    rw [parseValue] at parsed
    split at parsed
    · rename_i i whole
      split at parsed
      · rename_i range
        cases parsed
        have low : -9223372036854775808 ≤ i := range.1
        have high : i ≤ 9223372036854775807 := range.2
        rw [Writes, Int64.toInt_ofInt_of_le (by omega) (by omega), floatingOrInteger_eq whole]
      · cases parsed
    · cases parsed
  case number.floatingPoint q =>
    cases parsed
    rfl
  case bool.boolean flag =>
    cases parsed
    rfl
  case string.utf8 text =>
    cases parsed
    rfl
  case array.sequence items child =>
    obtain ⟨values, each, parsed⟩ := bind_eq_ok.mp parsed
    cases parsed
    exact writesAll_of_elements child items each
  case array.optional items child =>
    cases items with
    | nil =>
        cases parsed
        rfl
    | cons item rest =>
        cases rest with
        | nil =>
            obtain ⟨inner, first, parsed⟩ := bind_eq_ok.mp parsed
            cases parsed
            exact writes_of_parse child item first
        | cons => cases parsed
  case array.product items fields =>
    rw [parseValue] at parsed
    split at parsed
    · rename_i lengths
      obtain ⟨values, each, parsed⟩ := bind_eq_ok.mp parsed
      cases parsed
      exact writesAll_of_fields fields items lengths each
    · cases parsed
  all_goals cases parsed

theorem writesAll_of_elements (child : PhysicalType) (items : List Json) {values : List RuntimeValue}
    (parsed : parseElements child items = .ok values) : WritesAll values items := by
  cases items with
  | nil =>
      cases parsed
      trivial
  | cons item items =>
      obtain ⟨value, first, parsed⟩ := bind_eq_ok.mp parsed
      obtain ⟨rest, later, parsed⟩ := bind_eq_ok.mp parsed
      cases parsed
      exact ⟨writes_of_parse child item first, writesAll_of_elements child items later⟩

theorem writesAll_of_fields (fields : List PhysicalType) (items : List Json) {values : List RuntimeValue}
    (lengths : fields.length = items.length) (parsed : parseFields fields items = .ok values) :
    WritesAll values items := by
  cases items with
  | nil =>
      cases fields with
      | nil =>
          cases parsed
          trivial
      | cons => cases lengths
  | cons item items =>
      cases fields with
      | nil => cases lengths
      | cons field fields =>
          obtain ⟨value, first, parsed⟩ := bind_eq_ok.mp parsed
          obtain ⟨rest, later, parsed⟩ := bind_eq_ok.mp parsed
          cases parsed
          exact ⟨writes_of_parse field item first, writesAll_of_fields fields items (Nat.succ.inj lengths) later⟩

end

/-- An envelope is that of the value: its type, and a payload that writes the value. -/
def Envelope (id : TypeId) (value : RuntimeValue) (json : Json) : Prop :=
  ∃ payload, json = .array [.number 1, typeJson id.expression, payload] ∧ Writes value payload

theorem resolveType_id (registry : TypeRegistry) (expression : TypeExpr) {descriptor : TypeDescriptor}
    (resolved : resolveType registry expression = .ok descriptor) : descriptor.id = ⟨expression⟩ := by
  cases expression with
  | apply constructor arguments =>
      rw [resolveType] at resolved
      obtain ⟨⟨_, _⟩, _, resolved⟩ := bind_eq_ok.mp resolved
      obtain ⟨_, _, resolved⟩ := bind_eq_ok.mp resolved
      obtain ⟨_, _, resolved⟩ := bind_eq_ok.mp resolved
      cases resolved
      rfl

theorem parseEither_ok {α : Type} {result : Except String α} {item : α} (parsed : parseEither result = .ok item) :
    result = .ok item := by
  cases result with
  | ok => exact parsed
  | error => cases parsed

theorem parseEnvelope_ok {json payload : Json} {expression : TypeExpr}
    (parsed : parseEnvelope json = .ok (expression, payload)) :
    json = .array [.number 1, typeJson expression, payload] := by
  rw [parseEnvelope.eq_def] at parsed
  split at parsed
  · split at parsed
    · rename_i version
      obtain ⟨read, first, parsed⟩ := bind_eq_ok.mp parsed
      cases parsed
      rw [version, ← typeJson_of_parse _ first]
    · cases parsed
  · cases parsed
  · cases parsed

/-- What is read of an envelope is its value, and fits its type. -/
theorem runtimeFromJSON_ok {registry : TypeRegistry} {json : Json} {id : TypeId} {value : RuntimeValue}
    (read : runtimeFromJSON registry json = .ok (id, value)) :
    validateValue registry id value = .ok () ∧ Envelope id value json := by
  rw [runtimeFromJSON] at read
  obtain ⟨⟨expression, payload⟩, envelope, read⟩ := bind_eq_ok.mp read
  obtain ⟨descriptor, resolved, read⟩ := bind_eq_ok.mp read
  obtain ⟨decoded, parsed, read⟩ := bind_eq_ok.mp read
  obtain ⟨_, valid, read⟩ := bind_eq_ok.mp read
  cases read
  refine ⟨valid, payload, ?_, writes_of_parse _ _ (parseEither_ok parsed)⟩
  rw [parseEnvelope_ok (parseEither_ok envelope), resolveType_id registry expression resolved]

/-! ### Values -/

/-- What is asked of the shortest decimal number of a double: it rounds to the double, and
is the double itself where that is a whole number up to 2^53. -/
structure ShortestDigits [Codec] : Prop where
  rounds : ∀ d : Double, d.isFinite → nearest (Codec.fromFloatDigits d) = d.value
  whole : ∀ d : Double, d.isFinite → d.value.den = 1 → |d.value| ≤ 9007199254740992 →
    Codec.fromFloatDigits d = d.value

/-- The decimal number of a double is a whole one outside of the machine integers. -/
def WideDecimal [Codec] : Value → Prop
  | .float d => ∃ n : Int, Codec.fromFloatDigits d = n ∧ ¬isInt64 n
  | _ => False

/-- An enumeration has a name and valid labels, as its declaration is checked for. -/
def declared : ColumnType → Bool
  | .enum name labels => name != "" && validEnumLabels labels
  | .domain _ base => declared base
  | _ => true

/-- A value is read back as one that is equal in the order, and an integer as it was written. -/
def Denotes [Host] [Codec] (stored : Value) : Prop :=
  ∃ decoded, valueFromJSON (valueToJSON stored) = .ok decoded ∧ compareValue stored decoded = .eq ∧
    ∀ n, decoded = .int n → valueToJSON stored = .number n.toInt

theorem compareValue_of_same {left right : Value} (equal : left.same right = true) : compareValue left right = .eq :=
  (compareValue_eq_iff left right).mpr (.inl (canonical_same equal))

theorem declared_base (type : ColumnType) : declared (baseType type) = declared type := by
  induction type with
  | domain name base ih => exact ih
  | _ => rfl

section Codec

variable [Codec]

/-- A whole decimal within the machine integers is the integer that the double equals in
the order. -/
theorem compare_digits (digits : ShortestDigits) {d : Double} (finite : d.isFinite) {n : Int}
    (written : Codec.fromFloatDigits d = n) (range : isInt64 n) :
    compareValue (.float d) (.int (Int64.ofInt n)) = .eq := by
  have low : -9223372036854775808 ≤ n := range.1
  have high : n ≤ 9223372036854775807 := range.2
  have back : (Int64.ofInt n).toInt = n := Int64.toInt_ofInt_of_le (by omega) (by omega)
  rw [compareValue]
  cases canonical_float finite with
  | inl folded =>
      obtain ⟨m, same, number, small⟩ := folded
      have exact := digits.whole d finite (number ▸ Rat.den_intCast _) (by
        rw [← number, ← Int.cast_abs]
        exact_mod_cast small)
      rw [written, ← number, Int.cast_inj] at exact
      rw [same, exact, Int64.ofInt_toInt]
      simp [canonicalValue, compareCanonical]
  | inr stays =>
      obtain ⟨whole, rounded⟩ := fromIntegral_value (Int64.ofInt n)
      rw [stays.1]
      refine (double_compare_eq _ _).mpr ?_
      rw [Double.same_value finite whole, rounded, back, ← written, digits.rounds d finite]
      exact decide_eq_true rfl

variable [Host]

/-- A whole number is read as an integer, of which 64 bits are kept. -/
theorem valueFromJSON_int (n : Int) : valueFromJSON (.number n) = .ok (.int (Int64.ofInt n)) := by
  rw [valueFromJSON, floatingOrInteger_int]

theorem denotes_float_iff (digits : ShortestDigits) {d : Double} (finite : d.isFinite) :
    Denotes (.float d) ↔ ¬WideDecimal (.float d) := by
  rw [Denotes, valueToJSON, valueFromJSON]
  cases read : floatingOrInteger (Codec.fromFloatDigits d) with
  | inr n =>
      have written := floatingOrInteger_eq read
      constructor
      · intro denotes wide
        obtain ⟨decoded, same, _, exact⟩ := denotes
        cases same
        obtain ⟨m, equal, outside⟩ := wide
        have number := exact _ rfl
        rw [equal, Json.number.injEq, Int.cast_inj] at number
        exact outside (number ▸ ⟨Int64.minValue_le_toInt _, Int64.toInt_le _⟩)
      · intro apart
        have range : isInt64 n := not_not.mp fun outside => apart ⟨n, written, outside⟩
        refine ⟨_, rfl, compare_digits digits finite written range, fun k same => ?_⟩
        cases same
        rw [written, Int64.toInt_ofInt_of_le]
        · exact range.1
        · exact lt_of_le_of_lt range.2 (by decide)
  | inl e =>
      have fraction : (Codec.fromFloatDigits d).den ≠ 1 ∧ e = Double.ofRational (Codec.fromFloatDigits d) := by
        rw [floatingOrInteger] at read
        split at read
        · cases read
        · rename_i fraction
          cases read
          exact ⟨fraction, rfl⟩
      constructor
      · intro _ wide
        obtain ⟨n, equal, _⟩ := wide
        exact fraction.1 (equal ▸ Rat.den_intCast n)
      · intro _
        refine ⟨.float e, rfl, compareValue_of_same ?_, fun n same => by cases same⟩
        exact fraction.2 ▸ Double.same_symm (ofRational_same finite (digits.rounds d finite)).2

omit [Host] in
theorem parseString_texts (texts : List String) : (texts.map .string).mapM parseString = .ok texts := by
  induction texts with
  | nil => rfl
  | cons text texts ih =>
      rw [List.map_cons, List.mapM_cons, ih]
      rfl

/-- Values other than doubles are read back, when they are of a declared type. -/
theorem denotes_of_type {type : ColumnType} {stored : Value} (known : declared type = true)
    (held : ofType type stored = true) (plain : floatValue stored = false) : Denotes stored := by
  rw [ofType, ← typeClassOf_base, Bool.and_eq_true] at held
  rw [← declared_base] at known
  have plainType := baseType_ne_domain type
  generalize baseType type = base at *
  obtain ⟨family, belonging⟩ := held
  cases stored with
  | null => exact ⟨.null, rfl, rfl, fun n same => by cases same⟩
  | int n =>
      refine ⟨.int n, ?_, compareValue_of_same (beq_self_eq_true _), fun m same => by cases same; rfl⟩
      rw [valueToJSON, valueFromJSON_int, Int64.ofInt_toInt]
  | float d => cases plain
  | str text => exact ⟨.str text, rfl, compareValue_of_same (beq_self_eq_true _), fun n same => by cases same⟩
  | bool flag => exact ⟨.bool flag, rfl, compareValue_of_same (beq_self_eq_true _), fun n same => by cases same⟩
  | enum name labels label =>
      cases base with
      | enum expected supplied =>
          simp only [belongs, Bool.and_eq_true, beq_iff_eq, List.contains_iff_mem] at belonging
          obtain ⟨⟨rfl, rfl⟩, member⟩ := belonging
          simp only [declared, Bool.and_eq_true, bne_iff_ne] at known
          refine ⟨.enum expected supplied label, ?_, compareValue_of_same ?_, fun n same => by cases same⟩
          · rw [valueToJSON, valueFromJSON, if_pos rfl, parseEnum, parseString, stringsJson, parseStrings,
              parseString_texts, parseString]
            simp only [bind, Except.bind, pure, Except.pure, known, ne_eq, not_false_eq_true, and_self, if_true]
            rw [coerceValue, if_pos member]
          · simp [Value.same]
      | domain name inner => exact absurd rfl (plainType name inner)
      | _ => exact absurd family Bool.false_ne_true
  | runtime id content =>
      cases base with
      | runtime expected =>
          simp only [belongs, Bool.and_eq_true, beq_iff_eq] at belonging
          obtain ⟨rfl, valid⟩ := belonging
          have fits : validateValue builtinTypes expected content = .ok () := by
            cases checked : validateValue builtinTypes expected content with
            | ok => rfl
            | error =>
                rw [checked] at valid
                cases valid
          obtain ⟨decoded, read, equal⟩ := runtimeFromJSON_toJSON fits
          refine ⟨.runtime expected decoded, ?_, compareValue_of_same ?_, fun n same => by cases same⟩
          · rw [valueToJSON, valueFromJSON, if_neg (by decide), if_pos rfl, read]
            rfl
          · rw [Value.same, equal]
            simp
      | domain name inner => exact absurd rfl (plainType name inner)
      | _ => exact absurd family Bool.false_ne_true

/-- A stored value is read back unless it is a double whose decimal is a whole number
outside of the machine integers, and what is read of an envelope is always its value. -/
theorem value_codec_iff (digits : ShortestDigits) {type : ColumnType} {value stored : Value}
    (known : declared type = true) (stores : coerceValue type value = .ok stored) (finite : stored.isFinite) :
    (Denotes stored ∧ ∀ json id content, runtimeFromJSON builtinTypes json = .ok (id, content) →
        validateValue builtinTypes id content = .ok () ∧ Envelope id content json) ↔
      ¬WideDecimal stored := by
  have envelopes : ∀ json id content, runtimeFromJSON builtinTypes json = .ok (id, content) →
      validateValue builtinTypes id content = .ok () ∧ Envelope id content json := fun _ _ _ => runtimeFromJSON_ok
  rw [and_iff_left envelopes]
  cases number : floatValue stored with
  | false =>
      have narrow : ¬WideDecimal stored := by
        cases stored with
        | float => cases number
        | _ => exact id
      exact iff_of_true (denotes_of_type known (ofType_of_coerce stores) number) narrow
  | true =>
      cases stored with
      | float d => exact denotes_float_iff digits finite
      | _ => cases number

end Codec

/-! ### A double beyond the machine integers -/

/-- Doubles written by their own values, as the shortest decimals of small ones are. -/
@[reducible]
def exactDigits : Codec where
  fromFloatDigits d := d.value
  mismatch _ := ""

theorem exactDigits_shortest : @ShortestDigits exactDigits :=
  @ShortestDigits.mk exactDigits (fun d _ => d.representable_value.nearest) fun _ _ _ _ => rfl

def half : Double := Double.one.div (Double.ofInt 2)

theorem half_read_back : @Denotes Engine.silentHost exactDigits (.float half) := by
  refine ((@value_codec_iff exactDigits Engine.silentHost exactDigits_shortest .double (.float half) (.float half)
    rfl rfl (by decide +kernel)).mpr ?_).1
  intro wide
  obtain ⟨n, written, _⟩ := wide
  have value : half.value = 1 / 2 := by decide +kernel
  have fraction := congrArg Rat.den (value.symm.trans written)
  rw [Rat.den_intCast] at fraction
  exact absurd fraction (by decide +kernel)

def tenQuintillion : Double := Double.ofInt 10000000000000000000

/-- A double column takes 10^19, and it is read back as a negative integer. -/
theorem wide_double_wraps :
    @coerceValue Engine.silentHost .double (.float tenQuintillion) = .ok (.float tenQuintillion) ∧
      @valueFromJSON Engine.silentHost exactDigits (@valueToJSON exactDigits (.float tenQuintillion)) =
        .ok (.int (-8446744073709551616)) ∧
      compareValue (.float tenQuintillion) (.int (-8446744073709551616)) ≠ .eq := by
  have value : tenQuintillion.value = 10000000000000000000 := by decide +kernel
  have written : @valueToJSON exactDigits (.float tenQuintillion) = .number ((10000000000000000000 : Int) : ℚ) := by
    refine congrArg Json.number (value.trans ?_)
    norm_num
  have wrapped : Int64.ofInt 10000000000000000000 = -8446744073709551616 := by decide
  refine ⟨rfl, ?_, by decide +kernel⟩
  rw [written, @valueFromJSON_int exactDigits Engine.silentHost, wrapped]

end ChuSQL.Model
