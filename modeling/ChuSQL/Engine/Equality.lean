import ChuSQL.Model.Order
import ChuSQL.Model.Same
import ChuSQL.Engine.Builtin

/-! When two values are the same: the order, the equality and the hash agree as long as
no integer meets a double beyond 2^53 that it is rounded to. -/

set_option autoImplicit false

namespace ChuSQL.Model

open Library

/-! ### Equality of the order -/

theorem double_less_same {left right : Double} (below : left.less right = true) : left.same right = false := by
  cases left <;> cases right
  case finite.finite | finite.negativeZero | negativeZero.finite | negativeZero.negativeZero =>
    rw [Double.less_value rfl rfl, decide_eq_true_eq] at below
    rw [Double.same_value rfl rfl, decide_eq_false_iff_not]
    exact below.ne
  case infinity.infinity first second =>
    cases first <;> cases second <;> first | rfl | cases below
  all_goals first | rfl | cases below

theorem double_compare_eq (left right : Double) : left.compare right = .eq ↔ left.same right = true := by
  rw [Double.compare]
  cases below : left.less right with
  | true => simp [double_less_same below]
  | false => cases equal : left.same right <;> simp

namespace RuntimeValue

mutual

theorem compare_eq_iff_same (left right : RuntimeValue) : left.compare right = .eq ↔ left.same right = true := by
  by_cases same : left.tag = right.tag
  · cases left <;> cases right
    case int.int => simp [compare, RuntimeValue.same, Int64.toInt_inj]
    case double.double => rw [compare, RuntimeValue.same, double_compare_eq]
    case bool.bool => simp [compare, RuntimeValue.same]
    case string.string => simp [compare, RuntimeValue.same]
    case list.list xs ys => rw [compare, RuntimeValue.same, compareAll_eq_iff_same xs ys]
    case maybe.maybe x y =>
      cases x <;> cases y
      case some.some x y => rw [compare, RuntimeValue.same, compare_eq_iff_same x y]
      all_goals simp [compare, RuntimeValue.same]
    case tuple.tuple xs ys => rw [compare, RuntimeValue.same, compareAll_eq_iff_same xs ys]
    all_goals simp [tag] at same
  · rw [compare_of_ne same, compare_eq_iff_eq]
    cases left <;> cases right <;> simp [RuntimeValue.same, tag] at same ⊢

theorem compareAll_eq_iff_same (left right : List RuntimeValue) :
    compareAll left right = .eq ↔ sameAll left right = true := by
  cases left <;> cases right
  case cons.cons x xs y ys =>
    rw [compareAll, sameAll, Ordering.then_eq_eq, Bool.and_eq_true, compare_eq_iff_same x y,
      compareAll_eq_iff_same xs ys]
  all_goals simp [compareAll, sameAll]

end

end RuntimeValue

namespace Value

/-- Two labels have the same place when they are equal, or both outside. -/
theorem idxOf?_inj {labels : List String} {left right : String}
    (inside : ¬(left ∉ labels ∧ right ∉ labels ∧ left ≠ right)) :
    labels.idxOf? left = labels.idxOf? right ↔ left = right := by
  constructor
  · intro place
    cases found : labels.idxOf? left with
    | none =>
        by_contra differ
        exact inside ⟨List.idxOf?_eq_none_iff.mp found, List.idxOf?_eq_none_iff.mp (place ▸ found), differ⟩
    | some index =>
        obtain ⟨low, first, _⟩ := List.idxOf?_eq_some_iff.mp found
        obtain ⟨_, second, _⟩ := List.idxOf?_eq_some_iff.mp (place ▸ found)
        rw [← first, ← second]
  · intro equal
    rw [equal]

/-- No integer stands for a double that stays, unless the two collide. -/
theorem fromIntegral_not_same {n : Int64} {d : Double} (stays : (float d).Stays)
    (apart : ¬Collides (int n) (float d)) : (fromIntegral n).same d = false := by
  refine Bool.not_eq_true _ ▸ fun equal => ?_
  obtain ⟨back, rounded⟩ := fromIntegral_value n
  have finite : d.isFinite := (Double.isFinite_of_same equal).symm.trans back
  have number := (Double.same_iff.mp equal).2.2.2
  obtain ⟨whole, integral⟩ := nearest_int n.toInt
  by_cases small : |d.value| ≤ 9007199254740992
  · refine stays finite small ?_
    rw [← number, rounded, integral]
    exact Rat.den_intCast _
  · exact apart ⟨not_le.mp small, Double.same_symm equal⟩

/-- Values that do not collide are equal in the order when they are equal. -/
theorem compareCanonical_eq {left right : Value} (stays : left.Stays) (kept : right.Stays)
    (apart : ¬Collides left right) (away : ¬Collides right left) :
    compareCanonical left right = .eq ↔ left.same right = true := by
  by_cases equal : valueRank left = valueRank right
  · cases left <;> cases right
    case null.null => simp [compareCanonical, same]
    case int.int => simp [compareCanonical, same, Int64.toInt_inj]
    case int.float n d => simp [compareCanonical, same, double_compare_eq, fromIntegral_not_same kept apart]
    case float.int d n =>
      have differ : d.same (fromIntegral n) = false := Bool.not_eq_true _ ▸ fun alike =>
        Bool.eq_false_iff.mp (fromIntegral_not_same stays away) (Double.same_symm alike)
      simp [compareCanonical, same, double_compare_eq, differ]
    case float.float d e => rw [compareCanonical, same, double_compare_eq]
    case str.str => simp [compareCanonical, same]
    case bool.bool => simp [compareCanonical, same]
    case enum.enum name labels label other others second =>
      rw [compareCanonical, same, Ordering.then_eq_eq, Ordering.then_eq_eq, compare_eq_iff_eq,
        Std.LawfulEqCmp.compare_eq_iff_eq, Std.LawfulEqCmp.compare_eq_iff_eq]
      simp only [Bool.and_eq_true, beq_iff_eq, and_assoc]
      refine and_congr_right fun names => and_congr_right fun labelled => ?_
      subst names labelled
      exact idxOf?_inj fun outside => apart ⟨rfl, rfl, outside⟩
    case runtime.runtime id value second third =>
      rw [compareCanonical, same, Ordering.then_eq_eq, Bool.and_eq_true, RuntimeValue.compare_eq_iff_same,
        TypeId.compare, TypeExpr.compare_eq, beq_iff_eq, TypeId.ext_iff]
    all_goals simp [valueRank] at equal
  · rw [compareCanonical_of_ne equal, compare_eq_iff_eq]
    cases left <;> cases right <;> simp [same, valueRank] at equal ⊢

end Value

/-! ### Equal values have one hash -/

theorem double_eq_of_value {left right : Double} (finite : left.isFinite) (other : right.isFinite)
    (equal : left.value = right.value) (nonzero : left.value ≠ 0) : left = right := by
  cases left <;> cases right
  case finite.finite =>
    cases equal
    rfl
  case finite.negativeZero => exact absurd equal nonzero
  case negativeZero.finite | negativeZero.negativeZero => exact absurd rfl nonzero
  all_goals first | exact absurd finite Bool.false_ne_true | exact absurd other Bool.false_ne_true

theorem double_same_zero {d : Double} (finite : d.isFinite) : d.same Double.zero = decide (d.value = 0) := by
  rw [Double.same_value finite rfl]
  rfl

section Hash

variable [Hashing]

mutual

theorem RuntimeValue.hash_same (left right : RuntimeValue) (salt : Int64) (finite : left.isFinite)
    (other : right.isFinite) (equal : left.same right = true) :
    left.hashWithSalt salt = right.hashWithSalt salt := by
  cases left <;> cases right
  case int.int => rw [beq_iff_eq.mp equal]
  case double.double m n =>
    rw [isFinite] at finite other
    rw [RuntimeValue.same, Double.same_value finite other, decide_eq_true_eq] at equal
    rw [hashWithSalt, hashWithSalt, double_same_zero finite, double_same_zero other, equal]
    split
    · rfl
    · rename_i nonzero
      rw [decide_eq_true_eq, ← equal] at nonzero
      rw [double_eq_of_value finite other equal nonzero]
  case bool.bool => rw [beq_iff_eq.mp equal]
  case string.string => rw [beq_iff_eq.mp equal]
  case list.list xs ys =>
    obtain ⟨elements, count⟩ := hash_sameAll xs ys (Hashing.int salt 5) finite other equal
    rw [hashWithSalt, hashWithSalt, elements, count]
  case maybe.maybe x y =>
    cases x <;> cases y
    case some.some x y => exact hash_same x y _ finite other equal
    all_goals first | rfl | cases equal
  case tuple.tuple xs ys =>
    obtain ⟨elements, count⟩ := hash_sameAll xs ys (Hashing.int salt 7) finite other equal
    rw [hashWithSalt, hashWithSalt, elements, count]
  all_goals simp [RuntimeValue.same] at equal

theorem RuntimeValue.hash_sameAll (left right : List RuntimeValue) (salt : Int64) (finite : allFinite left)
    (other : allFinite right) (equal : sameAll left right = true) :
    hashElements salt left = hashElements salt right ∧ left.length = right.length := by
  cases left <;> cases right
  case cons.cons x xs y ys =>
    rw [sameAll, Bool.and_eq_true] at equal
    rw [allFinite, Bool.and_eq_true] at finite other
    obtain ⟨elements, count⟩ := hash_sameAll xs ys (x.hashWithSalt salt) finite.2 other.2 equal.2
    rw [hashElements, hashElements, ← hash_same x y salt finite.1 other.1 equal.1]
    exact ⟨elements, congrArg (· + 1) count⟩
  all_goals first | exact ⟨rfl, rfl⟩ | cases equal

end

theorem hashKey_same {left right : Value} (finite : left.isFinite) (other : right.isFinite) (stays : left.Stays)
    (equal : left.same right = true) : hashKey left = hashKey right := by
  cases left <;> cases right
  case float.float d e =>
    rw [Value.same, Double.same_value finite other, decide_eq_true_eq] at equal
    have nonzero : d.value ≠ 0 := by
      intro zero
      rw [Value.Stays, zero] at stays
      exact stays finite (by norm_num) rfl
    rw [double_eq_of_value finite other equal nonzero]
  case enum.enum =>
    simp only [Value.same, Bool.and_eq_true, beq_iff_eq] at equal
    rw [equal.1.1, equal.1.2, equal.2]
  case runtime.runtime id value third second =>
    rw [Value.same, Bool.and_eq_true, beq_iff_eq] at equal
    rw [hashKey, hashKey, equal.1, RuntimeValue.hash_same value second _ finite other equal.2]
  case int.int => rw [beq_iff_eq.mp equal]
  case str.str => rw [beq_iff_eq.mp equal]
  case bool.bool => rw [beq_iff_eq.mp equal]
  case null.null => rfl
  all_goals cases equal

end Hash

/-! ### One order -/

section Pair

variable {left right : Value} (apart : ¬Value.Collides left right) (away : ¬Value.Collides right left)

include apart away

theorem compareValue_code (finite : left.isFinite) (other : right.isFinite) :
    compareValue left right = Code.compare left.code right.code := by
  rw [compareValue, Value.compareCanonical_code (Value.canonical_finite finite) (Value.canonical_finite other)
    (Value.canonical_stays left) (Value.canonical_stays right)
    (fun collides => apart (Value.collides_of_canonical collides))
    (fun collides => away (Value.collides_of_canonical collides)),
    Value.code_canonical finite, Value.code_canonical other]

theorem compareValue_eq : compareValue left right = .eq ↔ valuesEqual left right = true :=
  Value.compareCanonical_eq (Value.canonical_stays left) (Value.canonical_stays right)
    (fun collides => apart (Value.collides_of_canonical collides))
    (fun collides => away (Value.collides_of_canonical collides))

end Pair

theorem hashValue_eq [Hashing] {left right : Value} (finite : left.isFinite) (other : right.isFinite)
    (equal : valuesEqual left right = true) : hashValue left = hashValue right :=
  hashKey_same (Value.canonical_finite finite) (Value.canonical_finite other) (Value.canonical_stays left) equal

/-- Colliding values can be compared, and are equal in the order, but not equal. -/
theorem collides_differ {left right : Value} (collides : Value.Collides left right) :
    Engine.comparableValue .eq left right = true ∧ compareValue left right = .eq ∧
      compareValue right left = .eq ∧ valuesEqual left right = false := by
  cases left <;> cases right
  case int.float n d =>
    have finite := Value.collides_finite collides
    obtain ⟨large, equal⟩ := collides
    have kept : canonicalValue (.float d) = .float d := by
      cases canonical_float finite with
      | inl folded =>
          obtain ⟨m, _, number, small⟩ := folded
          rw [← number, ← Int.cast_abs] at large
          exact absurd small (not_le.mpr (by exact_mod_cast large))
      | inr stays => exact stays.1
    rw [compareValue, compareValue, valuesEqual, kept]
    exact ⟨rfl, (double_compare_eq _ _).mpr (Double.same_symm equal), (double_compare_eq _ _).mpr equal, rfl⟩
  case enum.enum name labels label others others second =>
    obtain ⟨rfl, rfl, outside, away, differ⟩ := collides
    have places : labels.idxOf? label = labels.idxOf? second := by
      rw [List.idxOf?_eq_none_iff.mpr outside, List.idxOf?_eq_none_iff.mpr away]
    refine ⟨by simp [Engine.comparableValue], ?_, ?_,
      by simpa [valuesEqual, canonicalValue, Value.same] using differ⟩
    · simp [compareValue, canonicalValue, compareCanonical, places]
    · simp [compareValue, canonicalValue, compareCanonical, places]
  all_goals exact absurd collides id

/-- Two values are equal in the order when they are equal, or collide. -/
theorem compareValue_eq_iff (left right : Value) :
    compareValue left right = .eq ↔
      valuesEqual left right = true ∨ Value.Collides left right ∨ Value.Collides right left := by
  by_cases collides : Value.Collides left right
  · exact ⟨fun _ => .inr (.inl collides), fun _ => (collides_differ collides).2.1⟩
  · by_cases flipped : Value.Collides right left
    · exact ⟨fun _ => .inr (.inr flipped), fun _ => (collides_differ flipped).2.2.1⟩
    · rw [compareValue_eq collides flipped]
      simp [collides, flipped]

theorem valuesEqual_symm {left right : Value} (equal : valuesEqual left right = true) :
    valuesEqual right left = true := Value.same_symm equal

theorem not_collides_of_equal {left right : Value} (equal : valuesEqual left right = true) :
    ¬Value.Collides left right ∧ ¬Value.Collides right left := by
  refine ⟨fun collides => ?_, fun collides => ?_⟩
  · exact Bool.eq_false_iff.mp (collides_differ collides).2.2.2 equal
  · exact Bool.eq_false_iff.mp (collides_differ collides).2.2.2 (valuesEqual_symm equal)

/-- What one equality and one order on some values mean. -/
structure OneOrder [Hashing] (values : Set Value) : Prop where
  reflexive : ∀ a ∈ values, compareValue a a = .eq
  opposite : ∀ a ∈ values, ∀ b ∈ values, compareValue b a = (compareValue a b).swap
  transitive : ∀ a ∈ values, ∀ b ∈ values, ∀ c ∈ values,
    (compareValue a b).isLE → (compareValue b c).isLE → (compareValue a c).isLE
  equal : ∀ a ∈ values, ∀ b ∈ values, Engine.comparableValue .eq a b = true →
    (compareValue a b = .eq ↔ valuesEqual a b = true)
  hashed : ∀ a ∈ values, ∀ b ∈ values, valuesEqual a b = true → hashValue a = hashValue b

theorem one_order_iff [Hashing] (values : Set Value) (finite : ∀ value ∈ values, value.isFinite = true) :
    OneOrder values ↔ ∀ a ∈ values, ∀ b ∈ values, ¬Value.Collides a b := by
  constructor
  · intro ordered a first b second collides
    obtain ⟨comparable, same, _, differ⟩ := collides_differ collides
    rw [(ordered.equal a first b second comparable).mp same] at differ
    cases differ
  · intro apart
    have code : ∀ a ∈ values, ∀ b ∈ values, compareValue a b = Code.compare a.code b.code := fun a first b second =>
      compareValue_code (apart a first b second) (apart b second a first) (finite a first) (finite b second)
    refine ⟨fun a first => ?_, fun a first b second => ?_, fun a first b second c third => ?_,
      fun a first b second _ => ?_, fun a first b second => ?_⟩
    · rw [code a first a first]
      exact Std.ReflCmp.compare_self
    · rw [code b second a first, code a first b second]
      exact Std.OrientedCmp.eq_swap
    · rw [code a first b second, code b second c third, code a first c third]
      exact Std.TransCmp.isLE_trans
    · exact compareValue_eq (apart a first b second) (apart b second a first)
    · exact hashValue_eq (finite a first) (finite b second)

@[reducible]
def sumHashing : Hashing where
  int salt n := salt + n
  double salt _ := salt
  bool salt flag := if flag then salt + 1 else salt
  string salt text := salt + Int64.ofNat text.length
  encode _ := ""

theorem one_order_small : @OneOrder sumHashing {.int 1, .float (fromIntegral 2)} := by
  refine (@one_order_iff sumHashing _ ?_).mpr ?_
  · rintro value (rfl | rfl) <;> decide +kernel
  · rintro a (rfl | rfl) b (rfl | rfl) collides
    · exact collides
    · exact absurd collides.1 (by decide +kernel)
    · exact collides
    · exact collides

/-- The double nearest to 2^53 + 3 is 2^53 + 4. -/
def besideWide : Double := fromIntegral 9007199254740995

theorem one_order_fails :
    compareValue (.int 9007199254740995) (.float besideWide) = .eq ∧
      compareValue (.float besideWide) (.int 9007199254740996) = .eq ∧
      compareValue (.int 9007199254740995) (.int 9007199254740996) = .lt ∧
      valuesEqual (.int 9007199254740995) (.float besideWide) = false := by
  decide +kernel

end ChuSQL.Model
