import ChuSQL.Engine.Expr
import ChuSQL.Model.Scalar.Meaning
import ChuSQL.Model.TypeNames
import ChuSQL.Model.Types

/-! What a column stores fits the column and is stored as it is, except for intervals whose
amounts outgrow the digits that are read. -/

set_option autoImplicit false

namespace ChuSQL.Model

open Library

section Fits

variable [Host]

/-- Whether a value may stand in a column, NULL always. -/
def valueFits : ColumnType → Value → Bool
  | .domain _ base, value => valueFits base value
  | .runtime expected, .runtime supplied value =>
      expected == supplied && (validateValue builtinTypes expected value).isOk
  | .runtime expected, value =>
      match scalarRuntimeValue value with
      | some runtime => (validateValue builtinTypes expected runtime).isOk
      | none => value.same .null
  | _, .null => true
  | .int, .int _ => true
  | .bigInt, .int _ => true
  | .smallInt, .int _ => true
  | .float, .int _ => true
  | .float, .float _ => true
  | .double, .int _ => true
  | .double, .float _ => true
  | .decimal _ _, .int _ => true
  | .decimal _ _, .float _ => true
  | .str, .str _ => true
  | .enum name labels, .enum other supplied label => name == other && labels == supplied && labels.contains label
  | .varchar _, .str _ => true
  | .char _, .str _ => true
  | .bool, .bool _ => true
  | .date, .str _ => true
  | .timestamp, .str _ => true
  | .blob, .str _ => true
  | .scalar kind, .str text => (Host.normalizeScalar kind text).isOk
  | _, _ => false

/-- Decimal columns round, all others keep what they store. -/
def rounds : ColumnType → Bool
  | .decimal _ _ => true
  | .domain _ base => rounds base
  | _ => false

/-- A stored value fits its column, and is stored again as it is where the column does not
round. -/
def Settles (type : ColumnType) (stored : Value) : Prop :=
  valueFits type stored = true ∧ (rounds type = false → coerceValue type stored = .ok stored)

theorem coerceValue_null (type : ColumnType) : coerceValue type .null = .ok .null := by
  cases type <;> rfl

theorem coerceValue_domain (name : String) (base : ColumnType) (value : Value) :
    coerceValue (.domain name base) value = coerceValue base value := by
  cases value with
  | null => rw [coerceValue_null, coerceValue_null]
  | _ => rfl

theorem valueFits_domain (name : String) (base : ColumnType) (value : Value) :
    valueFits (.domain name base) value = valueFits base value := by
  rw [valueFits]

theorem settles_domain (name : String) (base : ColumnType) (stored : Value) :
    Settles (.domain name base) stored ↔ Settles base stored := by
  rw [Settles, Settles, valueFits_domain, coerceValue_domain, rounds]

theorem settles_null (type : ColumnType) : Settles type .null := by
  refine ⟨?_, fun _ => coerceValue_null type⟩
  induction type with
  | domain name base ih => exact (valueFits_domain name base .null).trans ih
  | _ => rfl

/-- What a column without a scalar format stores settles. -/
theorem settles_plain {type : ColumnType} {value stored : Value} (plain : ∀ kind, baseType type ≠ .scalar kind)
    (stores : coerceValue type value = .ok stored) : Settles type stored := by
  by_cases null : value = .null
  · rw [null, coerceValue_null] at stores
    cases stores
    exact settles_null type
  induction type with
  | domain name base ih =>
      rw [settles_domain]
      rw [coerceValue_domain] at stores
      exact ih plain stores
  | int | bigInt | smallInt =>
      obtain ⟨type, stores⟩ : ∃ type, toInt type value = .ok stored := by
        cases value <;> first | exact absurd rfl null | exact ⟨_, stores⟩
      obtain ⟨n, rfl⟩ : ∃ n, stored = .int n := by
        cases value with
        | int n => cases stores; exact ⟨n, rfl⟩
        | float d =>
            rw [toInt] at stores
            split_ifs at stores
            cases stores
            exact ⟨_, rfl⟩
        | _ => cases stores
      exact ⟨rfl, fun _ => rfl⟩
  | float | double =>
      obtain ⟨type, stores⟩ : ∃ type, toFloat type value = .ok stored := by
        cases value <;> first | exact absurd rfl null | exact ⟨_, stores⟩
      obtain ⟨d, rfl⟩ : ∃ d, stored = .float d := by
        cases value <;> first | (cases stores; exact ⟨_, rfl⟩) | cases stores
      exact ⟨rfl, fun _ => rfl⟩
  | decimal precision scale =>
      have stores : toDecimal precision scale value = .ok stored := by
        cases value <;> first | exact absurd rfl null | exact stores
      have number := toDecimal_class stores
      refine ⟨?_, fun exact' => by cases exact'⟩
      cases stored with
      | int | float | null => rfl
      | _ => cases number
  | str | blob =>
      obtain ⟨text, rfl⟩ : ∃ text, stored = .str text := by
        cases value <;> first | exact absurd rfl null | exact toText_class stores
      exact ⟨rfl, fun _ => rfl⟩
  | varchar length | char length =>
      have stores : toSized length value = .ok stored := by
        cases value <;> first | exact absurd rfl null | exact stores
      cases value with
      | str text =>
          have again := stores
          rw [toSized] at stores
          split_ifs at stores
          cases stores
          exact ⟨rfl, fun _ => again⟩
      | _ => cases stores
  | date =>
      cases value with
      | null => exact absurd rfl null
      | str text =>
          have again := stores
          change toDate (.str text) = .ok stored at stores
          rw [toDate] at stores
          split_ifs at stores
          cases stores
          exact ⟨rfl, fun _ => again⟩
      | _ => cases stores
  | timestamp =>
      cases value with
      | null => exact absurd rfl null
      | str text =>
          have again := stores
          change toTimestamp (.str text) = .ok stored at stores
          rw [toTimestamp] at stores
          split_ifs at stores
          cases stores
          exact ⟨rfl, fun _ => again⟩
      | _ => cases stores
  | bool =>
      cases value with
      | null => exact absurd rfl null
      | bool flag =>
          cases stores
          exact ⟨rfl, fun _ => rfl⟩
      | _ => cases stores
  | scalar kind => exact absurd rfl (plain kind)
  | null =>
      cases value with
      | null => exact absurd rfl null
      | _ => cases stores
  | enum name labels =>
      obtain ⟨label, member, rfl⟩ : ∃ label ∈ labels, stored = .enum name labels label := by
        cases value with
        | null => exact absurd rfl null
        | str label =>
            rw [coerceValue] at stores
            split at stores
            · cases stores
              exact ⟨label, ‹_›, rfl⟩
            · cases stores
        | enum other supplied label =>
            rw [coerceValue] at stores
            split at stores
            · rename_i same
              cases stores
              exact ⟨label, same.2.2, by rw [same.1, same.2.1]⟩
            · cases stores
        | _ => cases stores
      constructor
      · simp [valueFits, member]
      · intro _
        rw [coerceValue, if_pos ⟨rfl, rfl, member⟩]
  | runtime expected =>
      obtain ⟨content, valid, rfl⟩ : ∃ content, validateValue builtinTypes expected content = .ok () ∧
          stored = .runtime expected content := by
        cases value with
        | null => exact absurd rfl null
        | runtime supplied content =>
            rw [coerceValue] at stores
            split at stores
            · rename_i same
              subst same
              obtain ⟨_, valid, rest⟩ := bind_eq_ok.mp stores
              cases rest
              exact ⟨content, valid, rfl⟩
            · cases stores
        | int | float | bool | str =>
            obtain ⟨_, valid, rest⟩ := bind_eq_ok.mp stores
            cases rest
            exact ⟨_, valid, rfl⟩
        | enum => cases stores
      constructor
      · simp [valueFits, valid, Except.isOk, Except.toBool]
      · intro _
        rw [coerceValue, if_pos rfl, valid]
        rfl

end Fits

theorem timeTZ_again {micros : Nat} (small : micros < dayMicros) :
    (zoned ("2000-01-02T".toList ++ (clockText micros ++ ['Z']))).map formatClock = some (clockText micros ++ ['Z']) := by
  have valid : (⟨2000, 1, 2⟩ : Date).valid := by decide
  have front : "2000-01-02T".toList ++ (clockText micros ++ ['Z']) =
      dateText ⟨2000, 1, 2⟩ ++ 'T' :: (clockText micros ++ ['Z']) := rfl
  rw [front, zoned_canonical valid (by decide) small, Option.map_some, formatClock_eq, (utc_of_parts valid small).2]

/-- An interval whose months or whose days need more than eighteen digits. -/
def Outgrows (kind : ScalarType) (input : String) : Prop :=
  kind = .interval ∧ ∃ fields : IntervalFields, fields.text = input.toList ∧ ¬eighteenDigits fields.calendar fields.micros

/-- The values of a column that are accepted but not again as they are stored. -/
def OutgrowsColumn (type : ColumnType) (value : Value) : Prop :=
  ∃ kind text, baseType type = .scalar kind ∧ value = .str text ∧ Outgrows kind text

theorem outgrowsColumn_domain (name : String) (base : ColumnType) (value : Value) :
    OutgrowsColumn (.domain name base) value ↔ OutgrowsColumn base value := Iff.rfl

section Scalars

variable [Aeson]

theorem coerceValue_scalar (host : Host) (kind : ScalarType) (text : String) :
    @coerceValue (scalarHost host) (.scalar kind) (.str text) = normalizeScalar kind text >>= fun normal => pure (.str normal) :=
  rfl

theorem valueFits_scalar (host : Host) (kind : ScalarType) (text : String) :
    @valueFits (scalarHost host) (.scalar kind) (.str text) = (normalizeScalar kind text).isOk :=
  rfl

/-- A canonical text that is not one of an interval is accepted again, and stays. -/
theorem canonicalText_again {kind : ScalarType} {meaning : Meaning} {text : List Char} (canonical : CanonicalText kind meaning text)
    (plain : kind ≠ .interval) : scalarText kind (String.ofList text) = some text := by
  cases kind with
  | interval => exact absurd rfl plain
  | time =>
      obtain ⟨micros, small, _, same⟩ := canonical
      rw [scalarText, String.toList_ofList, same, clock_clockText small]
  | timeTZ =>
      obtain ⟨micros, small, _, same⟩ := canonical
      change (zoned ("2000-01-02T".toList ++ (String.ofList text).toList)).map formatClock = some text
      rw [@String.toList_ofList text, same, timeTZ_again small]
  | timestampTZ =>
      obtain ⟨time, four, _, same⟩ := canonical
      rw [scalarText, String.toList_ofList, same, zoned_formatTimestamp four, Option.map_some]
  | uuid =>
      obtain ⟨n, bound, _, same⟩ := canonical
      rw [scalarText, String.toList_ofList, same, uuid_uuidText bound]
  | json =>
      obtain ⟨input, document, reads, decoded, _, same⟩ := canonical
      exact canonicalJSON_canonical reads (by rw [canonicalJSON, decoded, Option.map_some, same])
  | inet =>
      obtain ⟨bits, value, known, bound, _, same⟩ := canonical
      rw [scalarText, String.toList_ofList, same, address_render known bound, Option.map_some]
  | cidr =>
      obtain ⟨bits, value, shared, known, bound, fits, zero, _, same⟩ := canonical
      rw [scalarText, String.toList_ofList, same, network_render known bound fits, if_pos zero]
  | mac =>
      obtain ⟨n, bound, _, same⟩ := canonical
      rw [scalarText, String.toList_ofList, same, mac_macText bound]

/-- A canonical text is accepted again, and stays, unless an interval outgrows its digits. -/
theorem scalarText_again {kind : ScalarType} {input : String} {text : List Char} (reads : kind = .json → ReadsBack input)
    (normal : scalarText kind input = some text) :
    (scalarText kind (String.ofList text) = some text ∧ ¬Outgrows kind input) ∨
      (scalarText kind (String.ofList text) = none ∧ Outgrows kind input) := by
  by_cases interval : kind = .interval
  · subst interval
    obtain ⟨fields, same, stored⟩ := duration_some normal
    rw [scalarText, String.toList_ofList, stored]
    by_cases small : eighteenDigits fields.calendar fields.micros
    · refine .inl ⟨fields.duration_stored.mpr small, fun outgrows => ?_⟩
      obtain ⟨_, others, again, large⟩ := outgrows
      have equal : others.stored = fields.stored := by
        have first := fields.duration_text
        rw [same, ← again, others.duration_text] at first
        exact Option.some.inj first
      obtain ⟨_, calendar, micros⟩ := renderInterval_injective equal
      rw [calendar, micros] at large
      exact large small
    · exact .inr ⟨duration_render_large small, rfl, fields, same, small⟩
  · obtain ⟨meaning, _, canonical⟩ := means_canonical reads normal
    exact .inl ⟨canonicalText_again canonical interval, fun outgrows => interval outgrows.1⟩

/-- What a column stores fits it and is stored again as it is, exactly when no interval
outgrows the digits that are read. -/
theorem settles_iff (host : Host) {type : ColumnType} {value stored : Value}
    (reads : ∀ text, baseType type = .scalar .json → value = .str text → ReadsBack text)
    (stores : @coerceValue (scalarHost host) type value = .ok stored) :
    @Settles (scalarHost host) type stored ↔ ¬OutgrowsColumn type value := by
  by_cases null : value = .null
  · rw [null, @coerceValue_null (scalarHost host)] at stores
    cases stores
    refine iff_of_true (@settles_null (scalarHost host) type) fun outgrows => ?_
    obtain ⟨_, text, _, same, _⟩ := outgrows
    rw [null] at same
    cases same
  by_cases plain : ∀ kind, baseType type ≠ .scalar kind
  · refine iff_of_true (@settles_plain (scalarHost host) _ _ _ plain stores) fun outgrows => ?_
    obtain ⟨kind, _, base, _⟩ := outgrows
    exact plain kind base
  induction type with
  | domain name base ih =>
      rw [@settles_domain (scalarHost host), outgrowsColumn_domain]
      rw [@coerceValue_domain (scalarHost host)] at stores
      exact ih reads stores plain
  | scalar kind =>
      cases value with
      | null => exact absurd rfl null
      | str text =>
          obtain ⟨normal, found, rest⟩ := bind_eq_ok.mp stores
          cases rest
          obtain ⟨output, first, rfl⟩ := normalizeScalar_some found
          have settles : @Settles (scalarHost host) (.scalar kind) (.str (String.ofList output)) ↔
              scalarText kind (String.ofList output) = some output := by
            constructor
            · intro settled
              obtain ⟨again, second, same⟩ := bind_eq_ok.mp (settled.2 rfl)
              cases same
              obtain ⟨text, reading, equal⟩ := normalizeScalar_some second
              rw [reading, String.ofList_inj.mp equal]
            · intro again
              have normal : normalizeScalar kind (String.ofList output) = .ok (String.ofList output) := by
                rw [normalizeScalar, again]
              constructor
              · rw [valueFits_scalar, normal]
                rfl
              · intro _
                rw [coerceValue_scalar, normal]
                rfl
          rw [settles]
          have outgrows : OutgrowsColumn (.scalar kind) (.str text) ↔ Outgrows kind text := by
            constructor
            · rintro ⟨other, input, same, given, outgrows⟩
              cases same
              cases given
              exact outgrows
            · exact fun outgrows => ⟨kind, text, rfl, rfl, outgrows⟩
          rw [outgrows]
          cases scalarText_again (fun json => reads text (by rw [json]; rfl) rfl) first with
          | inl stays => exact iff_of_true stays.1 stays.2
          | inr lost => exact iff_of_false (by rw [lost.1]; simp) (not_not_intro lost.2)
      | _ => cases stores
  | _ => exact absurd (fun kind same => by cases same) plain

end Scalars

/-- What a column of documents stores settles. -/
theorem settles_true : @Settles (@scalarHost literalAeson Engine.silentHost) (.scalar .json) (.str "true") ↔
    ¬OutgrowsColumn (.scalar .json) (.str " true ") :=
  @settles_iff literalAeson Engine.silentHost (.scalar .json) (.str " true ") (.str "true")
    (fun _ _ same => literal_readsBack (.inr (Value.str.inj same).symm)) rfl

/-- An interval of very many years is accepted, but not the text that is stored for it. -/
theorem interval_lost :
    checkTypeParameters (.scalar .interval) = .ok () ∧
    @coerceValue (@scalarHost literalAeson Engine.silentHost) (.scalar .interval) (.str "P999999999999999999Y") =
      .ok (.str "P11999999999999999988M0DT0.000000S") ∧
    @valueFits (@scalarHost literalAeson Engine.silentHost) (.scalar .interval)
      (.str "P11999999999999999988M0DT0.000000S") = false := by
  have first : @scalarText literalAeson .interval "P999999999999999999Y" =
      some "P11999999999999999988M0DT0.000000S".toList := by decide +kernel
  have second : @scalarText literalAeson .interval "P11999999999999999988M0DT0.000000S" = none := by decide +kernel
  have stored : @normalizeScalar literalAeson .interval "P999999999999999999Y" = .ok "P11999999999999999988M0DT0.000000S" := by
    unfold normalizeScalar
    rw [first]
    exact congrArg Except.ok String.ofList_toList
  have lost : @normalizeScalar literalAeson .interval "P11999999999999999988M0DT0.000000S" =
      .error ("invalid " ++ scalarName .interval ++ " value") := by
    unfold normalizeScalar
    rw [second]
  refine ⟨rfl, ?_, ?_⟩
  · rw [@coerceValue_scalar literalAeson, stored]
    rfl
  · rw [@valueFits_scalar literalAeson, lost]
    rfl

end ChuSQL.Model
