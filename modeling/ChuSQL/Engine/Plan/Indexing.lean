import ChuSQL.Engine.Plan.Pushing

/-! The conditions that an index answers: a column equal to a literal, or within a range. -/

set_option autoImplicit false

namespace ChuSQL.Engine

open Library Model

/-- What bounds a range is a literal of the bound. -/
theorem boundLiteral_literal {expression : Expr} {value : Value} (bound : boundLiteral expression = some value) :
    valueLiteral value = expression ∧ colsInExpr expression = [] := by
  cases expression <;> cases bound <;> exact ⟨rfl, rfl⟩

/-- Integers and texts are compared for order wherever they are compared for equality. -/
theorem comparable_bound {expression : Expr} {value : Value} (bound : boundLiteral expression = some value)
    (x : Value) :
    comparableValue .ord x value = comparableValue .eq x value := by
  cases expression <;> cases bound <;> cases x <;> rfl

/-- A closed comparison is the open one or an equality. -/
theorem compareValues_closed {expression : Expr} {x value : Value} {closed strict : Ordering → Bool}
    (bound : boundLiteral expression = some value) (split : ∀ order, closed order = (strict order || order == .eq)) :
    (do
      let first ← compareValues .ord strict x value
      let second ← compareValues .eq (· == .eq) x value
      orValues first second) = compareValues .ord closed x value := by
  rw [compareValues, compareValues, compareValues, comparable_bound bound, split]
  split
  · rfl
  · split
    · show orValues _ _ = _
      cases strict (compareValue x value) <;> cases compareValue x value == .eq <;> rfl
    · rfl

section Conditions

variable [Host] [Printer]

/-- A condition that a lookup stands for has the value of the lookup's condition. -/
theorem lookupOf_sound {condition : Expr} {column : String} {key : Value}
    (found : lookupOf condition = some (column, key)) :
    colsInExpr condition = [column] ∧
      ∀ row, evalExpr (.binary .eq (.col column) (valueLiteral key)) row = evalExpr condition row := by
  unfold lookupOf at found
  split at found
  · rename_i type label
    split at found
    · rename_i value evaluated
      cases found
      have consistent := evalExpr_consistent (fun _ inside => absurd inside List.not_mem_nil) evaluated
      refine And.intro rfl fun row => ?_
      rw [evalExpr, evalExpr, evalExpr_literal consistent]
      exact congrArg (fun result => evalExpr (.col column) row >>= fun x => result >>= fun y => executeOperator .eq [x, y])
        evaluated.symm
    · cases found
  · obtain ⟨value, bound, same⟩ := Option.map_eq_some_iff.mp found
    cases same
    obtain ⟨rfl, closed⟩ := boundLiteral_literal bound
    rw [colsInExpr, closed]
    exact ⟨rfl, fun _ => rfl⟩
  · cases found

theorem evalExpr_binary (op : Operator) (left right : Expr) (row : Row) :
    evalExpr (.binary op left right) row = (do
      let x ← evalExpr left row
      let y ← evalExpr right row
      executeOperator op [x, y]) := by rw [evalExpr]

/-- A closed end of a range is the comparison it is made from. -/
theorem boundCondition_closed {column : String} {expression : Expr} {value : Value} {op closed : Operator}
    (holds strict : Ordering → Bool) (bound : boundLiteral expression = some value)
    (split : ∀ order, holds order = (strict order || order == .eq))
    (opened : ∀ x y, executeOperator op [x, y] = compareValues .ord strict x y)
    (shut : ∀ x y, executeOperator closed [x, y] = compareValues .ord holds x y) (row : Row) :
    evalExpr (boundCondition (.col column) op (value, true)) row =
      evalExpr (.binary closed (.col column) (valueLiteral value)) row := by
  have literal : evalExpr (valueLiteral value) row = .ok value := by
    refine evalExpr_literal ?_ row
    cases expression <;> cases bound <;> trivial
  rw [boundCondition, if_pos rfl, evalExpr_binary, evalExpr_binary, evalExpr_binary, evalExpr_binary, literal]
  cases evalExpr (.col column) row with
  | error message => rfl
  | ok x =>
      show (do
        let first ← executeOperator op [x, value]
        let second ← executeOperator .eq [x, value]
        executeOperator .or [first, second]) = executeOperator closed [x, value]
      rw [opened, shut, ← compareValues_closed bound split]
      rfl

/-- A comparison of a column with a literal has the value of the end of a range it gives. -/
theorem boundCondition_sound (op closed : Operator) {column : String} {literal : Expr} {value : Value}
    (holds strict : Ordering → Bool) (split : ∀ order, holds order = (strict order || order == .eq))
    (opened : ∀ x y, executeOperator op [x, y] = compareValues .ord strict x y)
    (shut : ∀ x y, executeOperator closed [x, y] = compareValues .ord holds x y)
    (bound : boundLiteral literal = some value) (inside : Bool) :
    colsInExpr (.binary (if inside then closed else op) (.col column) literal) = [column] ∧
      ∀ row, evalExpr (boundCondition (.col column) op (value, inside)) row =
        evalExpr (.binary (if inside then closed else op) (.col column) literal) row := by
  obtain ⟨rfl, free⟩ := boundLiteral_literal bound
  rw [colsInExpr, free]
  cases inside with
  | false => exact ⟨rfl, fun _ => rfl⟩
  | true => exact ⟨rfl, boundCondition_closed holds strict bound split opened shut⟩

theorem lowerBound_sound {condition : Expr} {column : String} {low : Value × Bool}
    (found : lowerBound condition = some (column, low)) :
    colsInExpr condition = [column] ∧
      ∀ row, evalExpr (boundCondition (.col column) .gt low) row = evalExpr condition row := by
  have order : ∀ order : Ordering, (order != .lt) = (order == .gt || order == .eq) := by decide
  have sides := @boundCondition_sound _ _ .gt .gtE column
  unfold lowerBound at found
  split at found
  · obtain ⟨value, bound, same⟩ := Option.map_eq_some_iff.mp found
    cases same
    exact sides _ _ order (fun _ _ => rfl) (fun _ _ => rfl) bound false
  · obtain ⟨value, bound, same⟩ := Option.map_eq_some_iff.mp found
    cases same
    exact sides _ _ order (fun _ _ => rfl) (fun _ _ => rfl) bound true
  · cases found

theorem upperBound_sound {condition : Expr} {column : String} {high : Value × Bool}
    (found : upperBound condition = some (column, high)) :
    colsInExpr condition = [column] ∧
      ∀ row, evalExpr (boundCondition (.col column) .lt high) row = evalExpr condition row := by
  have order : ∀ order : Ordering, (order != .gt) = (order == .lt || order == .eq) := by decide
  have sides := @boundCondition_sound _ _ .lt .ltE column
  unfold upperBound at found
  split at found
  · obtain ⟨value, bound, same⟩ := Option.map_eq_some_iff.mp found
    cases same
    exact sides _ _ order (fun _ _ => rfl) (fun _ _ => rfl) bound false
  · obtain ⟨value, bound, same⟩ := Option.map_eq_some_iff.mp found
    cases same
    exact sides _ _ order (fun _ _ => rfl) (fun _ _ => rfl) bound true
  · cases found

theorem rangeOf_column {condition : Expr} {column : String} {low high : Bound}
    (found : rangeOf condition = some (column, low, high)) : column ∈ colsInExpr condition := by
  unfold rangeOf at found
  split at found
  · split at found
    · rename_i lower _
      split at found
      · cases found
        rw [colsInExpr, (lowerBound_sound lower).1]
        exact List.mem_cons_self
      · cases found
    · cases found
  · split at found
    · rename_i lower
      cases found
      rw [(lowerBound_sound lower).1]
      exact List.mem_cons_self
    · rename_i upper
      cases found
      rw [(upperBound_sound upper).1]
      exact List.mem_cons_self
    · cases found

/-- A condition that a range stands for has the value of the range's condition. -/
theorem rangeOf_sound {condition : Expr} {label : Option String} {column : String} {low high : Bound}
    (found : rangeOf condition = some (column, low, high)) (same : qualify label (unqualify label column) = column)
    (row : Row) : evalExpr (rangeCondition label (unqualify label column) low high) row = evalExpr condition row := by
  unfold rangeOf at found
  split at found
  · split at found
    · rename_i lower upper
      split at found
      · rename_i agree
        cases found
        obtain ⟨rfl, _⟩ := agree
        rw [rangeCondition, same, evalExpr_binary, evalExpr_binary, (lowerBound_sound lower).2, (upperBound_sound upper).2]
      · cases found
    · cases found
  · split at found
    · rename_i lower
      cases found
      rw [rangeCondition, same, (lowerBound_sound lower).2]
    · rename_i upper
      cases found
      rw [rangeCondition, same, (upperBound_sound upper).2]
    · cases found

end Conditions

end ChuSQL.Engine
