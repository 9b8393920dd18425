import ChuSQL.Model.Value

/-! The order of values is the order of their codes, as far as integers and doubles are
told apart. -/

set_option autoImplicit false

namespace ChuSQL.Model

open Library

/-! ### Codes of types -/

mutual

def TypeExpr.code : TypeExpr → Code → Code
  | .apply constructor arguments, rest => .number constructor.toInt :: codeAll arguments rest

def TypeExpr.codeAll : List TypeExpr → Code → Code
  | [], rest => .number 0 :: rest
  | type :: types, rest => .number 1 :: type.code (codeAll types rest)

end

mutual

theorem TypeExpr.compare_code : ∀ (left right : TypeExpr) (first second : Code),
    Code.compare (left.code first) (right.code second) =
      (left.compare right).then (Code.compare first second)
  | .apply _ xs, .apply _ ys, first, second => by
      rw [code, code, Code.compare_number, compareAll_code xs ys, compare_intCast, compare,
        Ordering.then_assoc]

theorem TypeExpr.compareAll_code : ∀ (left right : List TypeExpr) (first second : Code),
    Code.compare (codeAll left first) (codeAll right second) =
      (compareAll left right).then (Code.compare first second)
  | [], [], first, second => by simp [codeAll, compareAll]
  | [], _ :: _, first, second => by
      rw [codeAll, codeAll, Code.compare_number, then_compare_of_lt (by norm_num)]
      rfl
  | _ :: _, [], first, second => by
      rw [codeAll, codeAll, Code.compare_number, then_compare_of_gt (by norm_num)]
      rfl
  | x :: xs, y :: ys, first, second => by
      rw [codeAll, codeAll, Code.compare_number, compare_code x y, compareAll_code xs ys, compareAll,
        Ordering.then_assoc]
      simp

end

/-! ### Codes of runtime values -/

namespace RuntimeValue

mutual

def code : RuntimeValue → Code → Code
  | int n, rest => .number 1 :: .number n.toInt :: rest
  | double n, rest => .number 2 :: .number n.value :: rest
  | bool flag, rest => .number 3 :: .number (if flag then 1 else 0) :: rest
  | string text, rest => .number 4 :: .text text :: rest
  | list values, rest => .number 5 :: codeAll values rest
  | maybe none, rest => .number 6 :: .number 0 :: rest
  | maybe (some value), rest => .number 6 :: .number 1 :: value.code rest
  | tuple values, rest => .number 7 :: codeAll values rest

def codeAll : List RuntimeValue → Code → Code
  | [], rest => .number 0 :: rest
  | value :: values, rest => .number 1 :: value.code (codeAll values rest)

end

theorem code_cons (value : RuntimeValue) (rest : Code) :
    ∃ body, value.code rest = .number value.tag :: body := by
  cases value with
  | maybe value => cases value <;> exact ⟨_, rfl⟩
  | _ => exact ⟨_, rfl⟩

/-- Values of different constructors are told apart by the first label. -/
theorem compare_code_of_ne {left right : RuntimeValue} (differ : left.tag ≠ right.tag) (first second : Code) :
    Code.compare (left.code first) (right.code second) = Ord.compare left.tag right.tag := by
  obtain ⟨body, same⟩ := code_cons left first
  obtain ⟨other, equal⟩ := code_cons right second
  rw [same, equal, Code.compare_number]
  cases Nat.lt_or_gt_of_ne differ with
  | inl below => rw [then_compare_of_lt (Nat.cast_lt.mpr below), compare_lt_iff_lt.mpr below]
  | inr above => rw [then_compare_of_gt (Nat.cast_lt.mpr above), compare_gt_iff_gt.mpr above]

theorem compare_of_ne {left right : RuntimeValue} (differ : left.tag ≠ right.tag) :
    left.compare right = Ord.compare left.tag right.tag := by
  cases left <;> cases right <;> first | exact absurd rfl differ | simp only [compare]

theorem compare_flags (left right : Bool) :
    Ord.compare (if left then 1 else 0 : ℚ) (if right then 1 else 0) = Ord.compare left right := by
  cases left <;> cases right <;> decide

mutual

theorem compare_code (left right : RuntimeValue) (first second : Code) (finite : left.isFinite)
    (other : right.isFinite) :
    Code.compare (left.code first) (right.code second) =
      (left.compare right).then (Code.compare first second) := by
  by_cases same : left.tag = right.tag
  · cases left <;> cases right
    case int.int => simp [code, compare, compare_intCast]
    case double.double =>
      rw [isFinite] at finite other
      simp [code, compare, Double.compare_value finite other]
    case bool.bool =>
      simp only [code, compare, Code.compare_number, compare_flags]
      simp
    case string.string => simp [code, compare]
    case list.list xs ys =>
      rw [isFinite] at finite other
      simp [code, compare, compareAll_code xs ys first second finite other]
    case maybe.maybe x y =>
      cases x <;> cases y
      case none.none => simp [code, compare]
      case none.some =>
        have below : Ord.compare (0 : ℚ) 1 = .lt := compare_lt_iff_lt.mpr (by norm_num)
        simp [code, compare, below]
      case some.none =>
        have above : Ord.compare (1 : ℚ) 0 = .gt := compare_gt_iff_gt.mpr (by norm_num)
        simp [code, compare, above]
      case some.some x y =>
        rw [isFinite] at finite other
        simp [code, compare, compare_code x y first second finite other]
    case tuple.tuple xs ys =>
      rw [isFinite] at finite other
      simp [code, compare, compareAll_code xs ys first second finite other]
    all_goals simp [tag] at same
  · rw [compare_code_of_ne same, compare_of_ne same]
    cases Nat.lt_or_gt_of_ne same with
    | inl below => rw [compare_lt_iff_lt.mpr below, Ordering.lt_then]
    | inr above => rw [compare_gt_iff_gt.mpr above, Ordering.gt_then]

theorem compareAll_code : ∀ (left right : List RuntimeValue) (first second : Code),
    allFinite left → allFinite right →
    Code.compare (codeAll left first) (codeAll right second) =
      (compareAll left right).then (Code.compare first second)
  | [], [], first, second, _, _ => by simp [codeAll, compareAll]
  | [], _ :: _, first, second, _, _ => by
      rw [codeAll, codeAll, Code.compare_number, then_compare_of_lt (by norm_num)]
      rfl
  | _ :: _, [], first, second, _, _ => by
      rw [codeAll, codeAll, Code.compare_number, then_compare_of_gt (by norm_num)]
      rfl
  | x :: xs, y :: ys, first, second, finite, other => by
      rw [allFinite, Bool.and_eq_true] at finite other
      rw [codeAll, codeAll, Code.compare_number, compare_code x y _ _ finite.1 other.1,
        compareAll_code xs ys _ _ finite.2 other.2, compareAll, Ordering.then_assoc]
      simp

end

end RuntimeValue

/-! ### Integers and doubles -/

theorem fromIntegral_value (n : Int64) :
    (fromIntegral n).isFinite ∧ (fromIntegral n).value = nearest n.toInt := by
  have low := n.le_toInt
  have high := n.toInt_lt
  exact Double.ofInt_value (abs_le.mpr ⟨by omega, by omega⟩)

theorem toInt_ofInt_of_small {n : Int} (small : |n| ≤ 2 ^ 53) : (Int64.ofInt n).toInt = n := by
  rw [abs_le] at small
  exact Int64.toInt_ofInt_of_le (by omega) (by omega)

theorem truncate_of_whole {d : Double} (whole : d.value.den = 1) : (d.truncate : ℚ) = d.value := by
  rw [Double.truncate, whole, Nat.cast_one, Int.tdiv_one]
  exact Rat.coe_int_num_of_den_eq_one whole

theorem truncate_small {d : Double} (whole : d.value.den = 1) (small : |d.value| ≤ 9007199254740992) :
    |d.truncate| ≤ 2 ^ 53 := by
  rw [← truncate_of_whole whole, ← Int.cast_abs] at small
  exact_mod_cast small

theorem wholeDouble_iff {d : Double} (finite : d.isFinite) :
    wholeDouble d = true ↔ |d.value| ≤ 9007199254740992 ∧ d.value.den = 1 := by
  obtain ⟨back, rounded⟩ := fromIntegral_value (Int64.ofInt d.truncate)
  have number : (!d.isNaN && !d.isInfinite) = true := finite
  rw [wholeDouble, number, Bool.true_and, Bool.and_eq_true, decide_eq_true_eq, Double.same_value finite back,
    decide_eq_true_eq, rounded]
  constructor
  · intro folded
    obtain ⟨whole, same⟩ := nearest_int (Int64.ofInt d.truncate).toInt
    rw [folded.2, same]
    exact ⟨by rw [← same, ← folded.2]; exact folded.1, Rat.den_intCast _⟩
  · intro folded
    have small := truncate_small folded.2 folded.1
    rw [toInt_ofInt_of_small small, (representable_int small).nearest, truncate_of_whole folded.2]
    exact ⟨folded.1, rfl⟩

/-- A double either becomes the integer it stands for, or stays. -/
theorem canonical_float {d : Double} (finite : d.isFinite) :
    (∃ n : Int64, canonicalValue (.float d) = .int n ∧ (n.toInt : ℚ) = d.value ∧ |n.toInt| ≤ 2 ^ 53) ∨
      canonicalValue (.float d) = .float d ∧ (|d.value| ≤ 9007199254740992 → d.value.den ≠ 1) := by
  by_cases folded : wholeDouble d = true
  · left
    obtain ⟨small, whole⟩ := (wholeDouble_iff finite).mp folded
    refine ⟨Int64.ofInt d.truncate, by rw [canonicalValue, if_pos folded], ?_⟩
    rw [toInt_ofInt_of_small (truncate_small whole small)]
    exact ⟨truncate_of_whole whole, truncate_small whole small⟩
  · right
    refine ⟨by rw [canonicalValue, if_neg folded], fun small whole => ?_⟩
    exact folded ((wholeDouble_iff finite).mpr ⟨small, whole⟩)

/-- A double becomes an integer within 2^53, or stays. -/
theorem canonical_cases (d : Double) :
    (∃ n : Int64, canonicalValue (.float d) = .int n ∧ |n.toInt| ≤ 2 ^ 53) ∨ canonicalValue (.float d) = .float d := by
  by_cases finite : d.isFinite = true
  · cases canonical_float finite with
    | inl folded =>
        obtain ⟨n, same, _, small⟩ := folded
        exact .inl ⟨n, same, small⟩
    | inr stays => exact .inr stays.1
  · refine .inr ?_
    have wide : (!d.isNaN && !d.isInfinite) = false := Bool.not_eq_true _ ▸ finite
    rw [canonicalValue, wholeDouble, wide]
    rfl

/-- A double that stays compares with an integer as the rationals do, unless the integer
is rounded to it. -/
theorem compare_fromIntegral {n : Int64} {d : Double} (finite : d.isFinite)
    (apart : ¬(9007199254740992 < |d.value| ∧ d.same (fromIntegral n)))
    (stays : |d.value| ≤ 9007199254740992 → d.value.den ≠ 1) :
    (fromIntegral n).compare d = Ord.compare (n.toInt : ℚ) d.value := by
  obtain ⟨back, rounded⟩ := fromIntegral_value n
  have differ : nearest n.toInt ≠ d.value := by
    intro same
    rw [Double.same_value finite back, rounded, same] at apart
    obtain ⟨whole, number⟩ := nearest_int n.toInt
    refine stays (not_lt.mp fun large => apart ⟨large, by simp⟩) ?_
    rw [← same, number]
    exact Rat.den_intCast _
  have exact := d.representable_value.nearest
  rw [Double.compare_value back finite, rounded]
  rcases lt_trichotomy (n.toInt : ℚ) d.value with below | same | above
  · have rounds := nearest_mono below.le
    rw [exact] at rounds
    rw [compare_lt_iff_lt.mpr below, compare_lt_iff_lt.mpr (lt_of_le_of_ne rounds differ)]
  · exact absurd (same ▸ exact) differ
  · have rounds := nearest_mono above.le
    rw [exact] at rounds
    rw [compare_gt_iff_gt.mpr above, compare_gt_iff_gt.mpr (lt_of_le_of_ne rounds differ.symm)]

/-! ### Codes of values -/

namespace Value

/-- Every double in the value is a number. -/
def isFinite : Value → Bool
  | float d => d.isFinite
  | runtime _ value => value.isFinite
  | _ => true

def labelsCode : List String → Code → Code
  | [], rest => .number 0 :: rest
  | label :: labels, rest => .number 1 :: .text label :: labelsCode labels rest

def indexCode : Option Nat → Code
  | none => [.number 0]
  | some index => [.number 1, .number index]

/-- The labels of a value; a number stands for itself, whichever its type. -/
def code : Value → Code
  | null => [.number 0]
  | int n => [.number 1, .number n.toInt]
  | float d => [.number 1, .number d.value]
  | str text => [.number 2, .text text]
  | bool flag => [.number 3, .number (if flag then 1 else 0)]
  | runtime id value => .number 4 :: id.expression.code (value.code [])
  | enum name labels label => .number 5 :: .text name :: labelsCode labels (indexCode (labels.idxOf? label))

/-- An integer and a double beyond 2^53 that the integer is rounded to, or two labels
that are both outside of their type. -/
def Collides : Value → Value → Prop
  | int n, float d => 9007199254740992 < |d.value| ∧ d.same (fromIntegral n)
  | enum name labels left, enum other others right =>
      name = other ∧ labels = others ∧ left ∉ labels ∧ right ∉ labels ∧ left ≠ right
  | _, _ => False

theorem compare_labelsCode (left right : List String) (first second : Code) :
    Code.compare (labelsCode left first) (labelsCode right second) =
      (Ord.compare left right).then (Code.compare first second) := by
  induction left generalizing right with
  | nil =>
      cases right with
      | nil => simp [labelsCode]
      | cons label labels =>
          rw [labelsCode, labelsCode, Code.compare_number, then_compare_of_lt (by norm_num)]
          rfl
  | cons label labels ih =>
      cases right with
      | nil =>
          rw [labelsCode, labelsCode, Code.compare_number, then_compare_of_gt (by norm_num)]
          rfl
      | cons other others =>
          rw [labelsCode, labelsCode, Code.compare_number, Code.compare_text, ih, List.compare_cons_cons,
            Ordering.then_assoc]
          simp

theorem compare_indexCode (left right : Option Nat) :
    Code.compare (indexCode left) (indexCode right) = Ord.compare left right := by
  cases left <;> cases right
  case none.none => simp [indexCode]
  case none.some =>
    rw [indexCode, indexCode, Code.compare_number, then_compare_of_lt (by norm_num)]
    rfl
  case some.none =>
    rw [indexCode, indexCode, Code.compare_number, then_compare_of_gt (by norm_num)]
    rfl
  case some.some left right =>
    simp only [indexCode, Code.compare_number, compare_natCast]
    simp only [compare_eq_iff_eq.mpr, Ordering.eq_then, Code.compare_nil, Ordering.then_eq]
    rfl

theorem code_canonical {value : Value} (finite : value.isFinite) : (canonicalValue value).code = value.code := by
  cases value with
  | float d =>
      cases canonical_float finite with
      | inl folded =>
          obtain ⟨n, same, number, _⟩ := folded
          rw [same, code, code, number]
      | inr stays => rw [stays.1]
  | _ => rfl

/-- A double that no integer within 2^53 stands for. -/
def Stays : Value → Prop
  | float d => d.isFinite → |d.value| ≤ 9007199254740992 → d.value.den ≠ 1
  | _ => True

theorem canonical_stays (value : Value) : (canonicalValue value).Stays := by
  cases value with
  | float d =>
      by_cases folded : wholeDouble d = true
      · rw [canonicalValue, if_pos folded]
        trivial
      · rw [canonicalValue, if_neg folded]
        intro finite small whole
        exact folded ((wholeDouble_iff finite).mpr ⟨small, whole⟩)
  | _ => trivial

theorem canonical_finite {value : Value} (finite : value.isFinite) : (canonicalValue value).isFinite := by
  cases value with
  | float d =>
      rw [canonicalValue]
      split
      · rfl
      · exact finite
  | _ => exact finite

/-- An integer within 2^53 is rounded to no double beyond. -/
theorem not_collides_small {n : Int64} {d : Double} (finite : d.isFinite) (small : |n.toInt| ≤ 2 ^ 53) :
    ¬Collides (int n) (float d) := by
  intro collides
  obtain ⟨large, same⟩ := collides
  obtain ⟨back, rounded⟩ := fromIntegral_value n
  rw [Double.same_value finite back, decide_eq_true_eq, rounded, (representable_int small).nearest] at same
  rw [same, ← Int.cast_abs] at large
  exact absurd small (not_le.mpr (by exact_mod_cast large))

theorem not_collides_int (left : Value) (n : Int64) : ¬Collides left (int n) := by
  cases left <;> exact id

theorem not_collides_float (d : Double) (right : Value) : ¬Collides (float d) right := by
  cases right <;> exact id

/-- A double that is not finite collides with nothing. -/
theorem collides_finite {left : Value} {d : Double} (collides : Collides left (float d)) : d.isFinite := by
  cases left with
  | int n =>
      cases d with
      | nan => cases collides.2
      | infinity negative => exact absurd collides.1 (by norm_num [Double.value])
      | _ => rfl
  | _ => exact absurd collides id

theorem collides_of_canonical {left right : Value} (collides : Collides (canonicalValue left) (canonicalValue right)) :
    Collides left right := by
  cases right with
  | float d =>
      cases canonical_cases d with
      | inl folded =>
          obtain ⟨m, same, _⟩ := folded
          rw [same] at collides
          exact absurd collides (not_collides_int _ m)
      | inr stays =>
          rw [stays] at collides
          cases left with
          | float e =>
              cases canonical_cases e with
              | inl folded =>
                  obtain ⟨n, same, small⟩ := folded
                  rw [same] at collides
                  exact absurd collides (not_collides_small (collides_finite collides) small)
              | inr kept =>
                  rw [kept] at collides
                  exact absurd collides (not_collides_float e _)
          | _ => exact collides
  | _ =>
      cases left with
      | float e =>
          cases canonical_cases e with
          | inl folded =>
              obtain ⟨n, same, _⟩ := folded
              rw [same] at collides
              exact absurd collides id
          | inr kept =>
              rw [kept] at collides
              exact absurd collides (not_collides_float e _)
      | _ => exact collides

theorem code_cons (value : Value) : ∃ body, value.code = .number (valueRank value) :: body := by
  cases value <;> exact ⟨_, rfl⟩

theorem compare_code_of_ne {left right : Value} (differ : valueRank left ≠ valueRank right) :
    Code.compare left.code right.code = Ord.compare (valueRank left) (valueRank right) := by
  obtain ⟨body, same⟩ := code_cons left
  obtain ⟨other, equal⟩ := code_cons right
  rw [same, equal, Code.compare_number, compare_intCast]
  cases lt_or_gt_of_ne differ with
  | inl below => rw [compare_lt_iff_lt.mpr below, Ordering.lt_then]
  | inr above => rw [compare_gt_iff_gt.mpr above, Ordering.gt_then]

theorem compareCanonical_of_ne {left right : Value} (differ : valueRank left ≠ valueRank right) :
    compareCanonical left right = Ord.compare (valueRank left) (valueRank right) := by
  cases left <;> cases right <;> first | exact absurd rfl differ | rfl

/-- Values that stay as they are, and do not collide, compare as their codes do. -/
theorem compareCanonical_code {left right : Value} (finite : left.isFinite) (other : right.isFinite)
    (stays : left.Stays) (kept : right.Stays) (apart : ¬Collides left right) (away : ¬Collides right left) :
    compareCanonical left right = Code.compare left.code right.code := by
  by_cases same : valueRank left = valueRank right
  · cases left <;> cases right
    case null.null => simp [compareCanonical, code]
    case int.int => simp [compareCanonical, code, compare_intCast]
    case int.float n d =>
      rw [compareCanonical, compare_fromIntegral other apart (kept other)]
      simp [code]
    case float.int d n =>
      have back := (fromIntegral_value n).1
      rw [compareCanonical, Double.compare_value finite back, @Std.OrientedCmp.eq_swap ℚ Ord.compare,
        ← Double.compare_value back finite, compare_fromIntegral finite away (stays finite),
        ← @Std.OrientedCmp.eq_swap ℚ Ord.compare]
      simp [code]
    case float.float d e =>
      rw [compareCanonical, Double.compare_value finite other]
      simp [code]
    case str.str => simp [compareCanonical, code]
    case bool.bool =>
      simp only [compareCanonical, code, Code.compare_number, RuntimeValue.compare_flags]
      simp
    case enum.enum name labels label others second third =>
      simp only [compareCanonical, code, Code.compare_number, Code.compare_text, compare_labelsCode, compare_indexCode]
      simp
    case runtime.runtime id value second third =>
      simp only [compareCanonical, code, Code.compare_number, TypeExpr.compare_code,
        RuntimeValue.compare_code _ _ _ _ finite other]
      simp [TypeId.compare]
    all_goals simp [valueRank] at same
  · rw [compare_code_of_ne same, compareCanonical_of_ne same]

end Value

end ChuSQL.Model
