import ChuSQL.Library.Grouping
import ChuSQL.Model.Value

/-! The derived equality is symmetric and transitive; only a NaN is not equal to itself. -/

set_option autoImplicit false

namespace Library.Double

def infinite : Double → Option Bool
  | infinity negative => some negative
  | _ => none

theorem same_iff {left right : Double} :
    left.same right = true ↔ left.isNaN = false ∧ right.isNaN = false ∧
      left.infinite = right.infinite ∧ left.value = right.value := by
  cases left <;> cases right
  case finite.finite | finite.negativeZero | negativeZero.finite | negativeZero.negativeZero =>
    rw [same_value rfl rfl, decide_eq_true_eq]
    exact ⟨fun equal => ⟨rfl, rfl, rfl, equal⟩, fun equal => equal.2.2.2⟩
  all_goals simp [same, isNaN, infinite, value]

theorem same_symm {left right : Double} (equal : left.same right = true) : right.same left = true := by
  obtain ⟨first, second, infinite, value⟩ := same_iff.mp equal
  exact same_iff.mpr ⟨second, first, infinite.symm, value.symm⟩

theorem isFinite_of_same {left right : Double} (equal : left.same right = true) : left.isFinite = right.isFinite := by
  cases left <;> cases right <;> first | rfl | cases equal

theorem same_trans {left middle right : Double} (equal : left.same middle = true)
    (next : middle.same right = true) : left.same right = true := by
  obtain ⟨first, _, infinite, value⟩ := same_iff.mp equal
  obtain ⟨_, last, other, number⟩ := same_iff.mp next
  exact same_iff.mpr ⟨first, last, infinite.trans other, value.trans number⟩

theorem same_refl {d : Double} (number : d.isNaN = false) : d.same d = true :=
  same_iff.mpr ⟨number, number, rfl, rfl⟩

end Library.Double

namespace ChuSQL.Model

open Library

namespace RuntimeValue

mutual

theorem same_symm (left right : RuntimeValue) (equal : left.same right = true) : right.same left = true := by
  cases left <;> cases right
  case int.int => exact beq_iff_eq.mpr (beq_iff_eq.mp equal).symm
  case double.double => exact Double.same_symm equal
  case bool.bool => exact beq_iff_eq.mpr (beq_iff_eq.mp equal).symm
  case string.string => exact beq_iff_eq.mpr (beq_iff_eq.mp equal).symm
  case list.list xs ys => exact sameAll_symm xs ys equal
  case maybe.maybe x y =>
    cases x <;> cases y
    case some.some x y => exact same_symm x y equal
    all_goals first | rfl | cases equal
  case tuple.tuple xs ys => exact sameAll_symm xs ys equal
  all_goals simp [same] at equal

theorem sameAll_symm (left right : List RuntimeValue) (equal : sameAll left right = true) :
    sameAll right left = true := by
  cases left <;> cases right
  case cons.cons x xs y ys =>
    rw [sameAll, Bool.and_eq_true] at equal ⊢
    exact ⟨same_symm x y equal.1, sameAll_symm xs ys equal.2⟩
  all_goals first | rfl | cases equal

end

/-- Equal values have one constructor. -/
theorem tag_of_same {left right : RuntimeValue} (equal : left.same right = true) : left.tag = right.tag := by
  cases left <;> cases right <;> first | rfl | simp [same] at equal

mutual

theorem same_trans (left middle right : RuntimeValue) (equal : left.same middle = true)
    (next : middle.same right = true) : left.same right = true := by
  have tags := tag_of_same equal
  have others := tag_of_same next
  cases left <;> cases middle
  case int.int =>
    rw [beq_iff_eq.mp equal]
    exact next
  case double.double =>
    cases right
    case double => exact Double.same_trans equal next
    all_goals simp [tag] at others
  case bool.bool =>
    rw [beq_iff_eq.mp equal]
    exact next
  case string.string =>
    rw [beq_iff_eq.mp equal]
    exact next
  case list.list xs ys =>
    cases right
    case list zs => exact sameAll_trans xs ys zs equal next
    all_goals simp [tag] at others
  case maybe.maybe x y =>
    cases right
    case maybe z =>
      cases x <;> cases y <;> cases z
      case some.some.some x y z => exact same_trans x y z equal next
      all_goals first | exact next | cases equal
    all_goals simp [tag] at others
  case tuple.tuple xs ys =>
    cases right
    case tuple zs => exact sameAll_trans xs ys zs equal next
    all_goals simp [tag] at others
  all_goals simp [tag] at tags

theorem sameAll_trans (left middle right : List RuntimeValue) (equal : sameAll left middle = true)
    (next : sameAll middle right = true) : sameAll left right = true := by
  cases left <;> cases middle <;> cases right
  case cons.cons.cons x xs y ys z zs =>
    rw [sameAll, Bool.and_eq_true] at equal next ⊢
    exact ⟨same_trans x y z equal.1 next.1, sameAll_trans xs ys zs equal.2 next.2⟩
  all_goals first | exact next | cases equal

end

end RuntimeValue

namespace Value

theorem same_symm {left right : Value} (equal : left.same right = true) : right.same left = true := by
  cases left <;> cases right
  case null.null => rfl
  case float.float => exact Double.same_symm equal
  case enum.enum =>
    simp only [same, Bool.and_eq_true, beq_iff_eq] at equal ⊢
    exact ⟨⟨equal.1.1.symm, equal.1.2.symm⟩, equal.2.symm⟩
  case runtime.runtime =>
    simp only [same, Bool.and_eq_true, beq_iff_eq] at equal ⊢
    exact ⟨equal.1.symm, RuntimeValue.same_symm _ _ equal.2⟩
  case int.int => exact beq_iff_eq.mpr (beq_iff_eq.mp equal).symm
  case str.str => exact beq_iff_eq.mpr (beq_iff_eq.mp equal).symm
  case bool.bool => exact beq_iff_eq.mpr (beq_iff_eq.mp equal).symm
  all_goals cases equal

theorem same_trans {left middle right : Value} (equal : left.same middle = true) (next : middle.same right = true) :
    left.same right = true := by
  cases left <;> cases middle
  case null.null => exact next
  case float.float =>
    cases right
    case float => exact Double.same_trans equal next
    all_goals cases next
  case enum.enum =>
    simp only [same, Bool.and_eq_true, beq_iff_eq] at equal
    rw [equal.1.1, equal.1.2, equal.2]
    exact next
  case runtime.runtime =>
    cases right
    case runtime =>
      simp only [same, Bool.and_eq_true, beq_iff_eq] at equal next ⊢
      exact ⟨equal.1.trans next.1, RuntimeValue.same_trans _ _ _ equal.2 next.2⟩
    all_goals cases next
  case int.int =>
    rw [beq_iff_eq.mp equal]
    exact next
  case str.str =>
    rw [beq_iff_eq.mp equal]
    exact next
  case bool.bool =>
    rw [beq_iff_eq.mp equal]
    exact next
  all_goals cases equal

/-- Equality of lists of values, of the same length. -/
def sameAll : List Value → List Value → Bool
  | [], [] => true
  | left :: lefts, right :: rights => left.same right && sameAll lefts rights
  | _, _ => false

theorem sameAll_symm {left right : List Value} (equal : sameAll left right = true) :
    sameAll right left = true := by
  induction left generalizing right with
  | nil => cases right <;> first | rfl | cases equal
  | cons x xs ih =>
      cases right with
      | nil => cases equal
      | cons y ys =>
          rw [sameAll, Bool.and_eq_true] at equal ⊢
          exact ⟨same_symm equal.1, ih equal.2⟩

theorem sameAll_trans {left middle right : List Value} (equal : sameAll left middle = true)
    (next : sameAll middle right = true) : sameAll left right = true := by
  induction left generalizing middle right with
  | nil => cases middle <;> first | exact next | cases equal
  | cons x xs ih =>
      cases middle with
      | nil => cases equal
      | cons y ys =>
          cases right with
          | nil => cases next
          | cons z zs =>
              rw [sameAll, Bool.and_eq_true] at equal next ⊢
              exact ⟨same_trans equal.1 next.1, ih equal.2 next.2⟩

theorem sameAll_equivalence : Grouping.PartialEquivalence sameAll := ⟨sameAll_symm, sameAll_trans⟩

end Value

/-! ### Canonical values -/

theorem wholeDouble_same {d e : Double} (equal : d.same e = true) :
    wholeDouble d = wholeDouble e ∧ d.truncate = e.truncate := by
  obtain ⟨first, second, infinite, value⟩ := Double.same_iff.mp equal
  have whole : d.truncate = e.truncate := by rw [Double.truncate, Double.truncate, value]
  have bounded : d.isInfinite = e.isInfinite := by
    cases d <;> cases e <;> first | rfl | cases infinite
  have agree : d.same (fromIntegral (Int64.ofInt d.truncate)) = e.same (fromIntegral (Int64.ofInt e.truncate)) := by
    rw [whole, Bool.eq_iff_iff]
    exact ⟨Double.same_trans (Double.same_symm equal), Double.same_trans equal⟩
  exact ⟨by rw [wholeDouble, wholeDouble, first, second, bounded, value, agree], whole⟩

/-- Equal values have equal canonical forms. -/
theorem canonical_same {left right : Value} (equal : left.same right = true) :
    (canonicalValue left).same (canonicalValue right) = true := by
  cases left with
  | float d =>
      cases right with
      | float e =>
          obtain ⟨folded, whole⟩ := wholeDouble_same equal
          rw [canonicalValue, canonicalValue, folded, whole]
          split
          · exact beq_self_eq_true _
          · exact equal
      | _ => cases equal
  | _ => cases right <;> first | exact equal | cases equal

/-- A value that equals itself in canonical form equals itself. -/
theorem same_of_valuesEqual {value : Value} (equal : valuesEqual value value = true) : value.same value = true := by
  cases value with
  | float d =>
      refine Double.same_refl (Bool.not_eq_true _ ▸ fun isNaN => ?_)
      cases d with
      | nan => cases equal
      | _ => cases isNaN
  | _ => exact equal

/-- The canonical forms of a list of values are equal. -/
def keysEqual (left right : List Value) : Bool :=
  Value.sameAll (left.map canonicalValue) (right.map canonicalValue)

theorem keysEqual_equivalence : Grouping.PartialEquivalence keysEqual :=
  ⟨Value.sameAll_symm, Value.sameAll_trans⟩

theorem keysEqual_of_same {left right : List Value} (equal : Value.sameAll left right = true) :
    keysEqual left right = true := by
  induction left generalizing right with
  | nil => cases right <;> first | rfl | cases equal
  | cons x xs ih =>
      cases right with
      | nil => cases equal
      | cons y ys =>
          rw [Value.sameAll, Bool.and_eq_true] at equal
          rw [keysEqual, List.map_cons, List.map_cons, Value.sameAll, Bool.and_eq_true]
          exact ⟨canonical_same equal.1, ih equal.2⟩

theorem keysEqual_refl {key : List Value} (number : ∀ value ∈ key, valuesEqual value value = true) :
    keysEqual key key = true := by
  induction key with
  | nil => rfl
  | cons value values ih =>
      rw [keysEqual, List.map_cons, Value.sameAll, Bool.and_eq_true]
      exact ⟨number value List.mem_cons_self, ih fun other later => number other (List.mem_cons_of_mem _ later)⟩

theorem valuesEqual_of_keysEqual {key : List Value} (equal : keysEqual key key = true) :
    ∀ value ∈ key, valuesEqual value value = true := by
  induction key with
  | nil => simp
  | cons value values ih =>
      rw [keysEqual, List.map_cons, Value.sameAll, Bool.and_eq_true] at equal
      intro other member
      cases List.mem_cons.mp member with
      | inl first => exact first ▸ equal.1
      | inr later => exact ih equal.2 other later

theorem sameAll_refl {key : List Value} (number : ∀ value ∈ key, valuesEqual value value = true) :
    Value.sameAll key key = true := by
  induction key with
  | nil => rfl
  | cons value values ih =>
      rw [Value.sameAll, Bool.and_eq_true]
      exact ⟨same_of_valuesEqual (number value List.mem_cons_self),
        ih fun other later => number other (List.mem_cons_of_mem _ later)⟩

end ChuSQL.Model
