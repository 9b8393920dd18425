import Mathlib.Data.Rat.Floor
import Mathlib.Order.Std

/-! Orders on trees given by flat codes: the code of a tree lists its labels in
depth-first order, and two trees compare as their codes do. -/

set_option autoImplicit false

namespace Library

/-- A label of a code. -/
inductive Atom where
  | number (value : ℚ)
  | text (value : String)

namespace Atom

def compare : Atom → Atom → Ordering
  | number left, number right => Ord.compare left right
  | number _, text _ => .lt
  | text _, number _ => .gt
  | text left, text right => Ord.compare left right

theorem compare_swap (left right : Atom) : left.compare right = (right.compare left).swap := by
  cases left <;> cases right
  case number.number => exact @Std.OrientedCmp.eq_swap ℚ Ord.compare _ _ _
  case text.text => exact @Std.OrientedCmp.eq_swap String Ord.compare _ _ _
  all_goals rfl

theorem compare_trans {left middle right : Atom} (below : (left.compare middle).isLE)
    (above : (middle.compare right).isLE) : (left.compare right).isLE := by
  cases left <;> cases middle <;> cases right
  case number.number.number => exact @Std.TransCmp.isLE_trans ℚ Ord.compare _ _ _ _ below above
  case text.text.text => exact @Std.TransCmp.isLE_trans String Ord.compare _ _ _ _ below above
  case number.text.number | text.number.text => simp [compare] at below above
  case text.number.number => simp [compare] at below
  case text.text.number => simp [compare] at above
  all_goals rfl

instance : Std.TransCmp compare where
  eq_swap := compare_swap _ _
  isLE_trans := compare_trans

end Atom

abbrev Code := List Atom

namespace Code

def compare : Code → Code → Ordering := List.compareLex Atom.compare

instance : Std.TransCmp compare := inferInstanceAs (Std.TransCmp (List.compareLex Atom.compare))

@[simp]
theorem compare_number (left right : ℚ) (first second : Code) :
    compare (.number left :: first) (.number right :: second) =
      (Ord.compare left right).then (compare first second) := List.compareLex_cons_cons

@[simp]
theorem compare_text (left right : String) (first second : Code) :
    compare (.text left :: first) (.text right :: second) =
      (Ord.compare left right).then (compare first second) := List.compareLex_cons_cons

@[simp]
theorem compare_nil : compare [] [] = .eq := rfl

end Code

/-- Whole numbers compare as rationals. -/
theorem compare_intCast (left right : ℤ) : compare (left : ℚ) (right : ℚ) = compare left right := by
  rcases lt_trichotomy left right with below | same | above
  · rw [compare_lt_iff_lt.mpr below, compare_lt_iff_lt.mpr (Int.cast_lt.mpr below)]
  · rw [same, compare_eq_iff_eq.mpr rfl, compare_eq_iff_eq.mpr rfl]
  · rw [compare_gt_iff_gt.mpr above, compare_gt_iff_gt.mpr (Int.cast_lt.mpr above)]

theorem compare_natCast (left right : ℕ) : compare (left : ℚ) (right : ℚ) = compare left right := by
  rw [← Int.cast_natCast left, ← Int.cast_natCast right, compare_intCast]
  rcases lt_trichotomy left right with below | same | above
  · rw [compare_lt_iff_lt.mpr below, compare_lt_iff_lt.mpr (Int.ofNat_lt.mpr below)]
  · rw [same, compare_eq_iff_eq.mpr rfl, compare_eq_iff_eq.mpr rfl]
  · rw [compare_gt_iff_gt.mpr above, compare_gt_iff_gt.mpr (Int.ofNat_lt.mpr above)]

theorem then_compare_of_lt {left right : ℚ} (below : left < right) (rest : Ordering) :
    (compare left right).then rest = .lt := by rw [compare_lt_iff_lt.mpr below, Ordering.lt_then]

theorem then_compare_of_gt {left right : ℚ} (above : right < left) (rest : Ordering) :
    (compare left right).then rest = .gt := by rw [compare_gt_iff_gt.mpr above, Ordering.gt_then]

end Library
