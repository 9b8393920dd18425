import ChuSQL.Engine.Subquery

/-! What an expression refers to: its columns, bound places, divisions and subqueries. -/

set_option autoImplicit false

namespace ChuSQL.Engine

open Library Model

def subqueryRefs : Subquery → List String
  | .plain _ references => references
  | .bound _ references _ => references

mutual

/-- The names of the columns of an expression, with those its subqueries refer to. -/
def colsInExpr : Expr → List String
  | .col name => [name]
  | .columnRef _ name => [name]
  | .outerColumnRef _ name => [name]
  | .columnSlot _ name => [name]
  | .outerColumnSlot _ _ name => [name]
  | .construct _ arguments => colsInAll arguments
  | .boundConstruct _ arguments => colsInAll arguments
  | .functionCall _ arguments => colsInAll arguments
  | .boundFunction _ _ arguments => colsInAll arguments
  | .binary _ left right => colsInExpr left ++ colsInExpr right
  | .neg operand => colsInExpr operand
  | .isNull operand => colsInExpr operand
  | .isNotNull operand => colsInExpr operand
  | .aggregate _ argument => colsInExpr argument
  | .scalarSub query => subqueryRefs query
  | .inSub left query _ => colsInExpr left ++ subqueryRefs query
  | .inList left items _ => colsInExpr left ++ colsInAll items
  | .existsSub query _ => subqueryRefs query
  | .quantCmp _ left query _ => colsInExpr left ++ subqueryRefs query
  | _ => []

def colsInAll : List Expr → List String
  | [] => []
  | expression :: expressions => colsInExpr expression ++ colsInAll expressions

end

mutual

/-- Whether an expression depends on a fixed layout of its columns. -/
def hasBoundColumns : Expr → Bool
  | .columnRef _ _ => true
  | .outerColumnRef _ _ => true
  | .columnSlot _ _ => true
  | .outerColumnSlot _ _ _ => true
  | .construct _ arguments => anyBoundColumns arguments
  | .boundConstruct _ arguments => anyBoundColumns arguments
  | .functionCall _ arguments => anyBoundColumns arguments
  | .boundFunction _ _ arguments => anyBoundColumns arguments
  | .binary _ left right => hasBoundColumns left || hasBoundColumns right
  | .neg operand => hasBoundColumns operand
  | .isNull operand => hasBoundColumns operand
  | .isNotNull operand => hasBoundColumns operand
  | .aggregate _ argument => hasBoundColumns argument
  | .inSub left query _ => hasBoundColumns left || queryBound query
  | .inList left items _ => hasBoundColumns left || anyBoundColumns items
  | .quantCmp _ left query _ => hasBoundColumns left || queryBound query
  | .scalarSub query => queryBound query
  | .existsSub query _ => queryBound query
  | _ => false

def anyBoundColumns : List Expr → Bool
  | [] => false
  | expression :: expressions => hasBoundColumns expression || anyBoundColumns expressions

/-- The references of a subquery depend on the layout of its parent. -/
def queryBound : Subquery → Bool
  | .plain _ _ => false
  | .bound _ _ slots => anyBoundSlots slots

def anyBoundSlots : List (String × Expr) → Bool
  | [] => false
  | slot :: slots => hasBoundColumns slot.2 || anyBoundSlots slots

end

mutual

/-- Whether a division, which may fail, is seen in an expression. -/
def hasDivision : Expr → Bool
  | .construct _ arguments => anyDivision arguments
  | .boundConstruct _ arguments => anyDivision arguments
  | .functionCall _ arguments => anyDivision arguments
  | .boundFunction _ _ arguments => anyDivision arguments
  | .binary op left right => op = .div || hasDivision left || hasDivision right
  | .neg operand => hasDivision operand
  | .quantCmp _ left _ _ => hasDivision left
  | _ => false

def anyDivision : List Expr → Bool
  | [] => false
  | expression :: expressions => hasDivision expression || anyDivision expressions

end

mutual

def hasSubquery : Expr → Bool
  | .construct _ arguments => anySubquery arguments
  | .boundConstruct _ arguments => anySubquery arguments
  | .functionCall _ arguments => anySubquery arguments
  | .boundFunction _ _ arguments => anySubquery arguments
  | .scalarSub _ => true
  | .inSub _ _ _ => true
  | .inList left items _ => hasSubquery left || anySubquery items
  | .existsSub _ _ => true
  | .quantCmp _ _ _ _ => true
  | .binary _ left right => hasSubquery left || hasSubquery right
  | .neg operand => hasSubquery operand
  | .isNull operand => hasSubquery operand
  | .isNotNull operand => hasSubquery operand
  | .aggregate _ argument => hasSubquery argument
  | _ => false

def anySubquery : List Expr → Bool
  | [] => false
  | expression :: expressions => hasSubquery expression || anySubquery expressions

end

/-! ### What evaluation reads -/

section Reads

variable [Host] [Printer] {row other : Row}

mutual

/-- Rows with the same values for the columns of an expression give it the same value. -/
theorem evalExpr_congr : ∀ expression : Expr,
    hasBoundColumns expression = false ∨ colsInExpr expression = [] →
    (∀ name ∈ colsInExpr expression, lookup name row = lookup name other) →
    evalExpr expression row = evalExpr expression other
  | .col name, _, same => by rw [evalExpr, evalExpr, same name List.mem_cons_self]
  | .columnRef _ _, _, _ => rfl
  | .outerColumnRef _ _, _, _ => rfl
  | .columnSlot _ _, named, _ => by rcases named with named | named <;> cases named
  | .outerColumnSlot _ _ _, named, _ => by rcases named with named | named <;> cases named
  | .functionCall _ _, _, _ => rfl
  | .construct _ _, _, _ => rfl
  | .boundConstruct _ arguments, named, same => by
      rw [evalExpr, evalExpr, evalExprs_congr arguments named same]
  | .boundFunction _ _ arguments, named, same => by
      rw [evalExpr, evalExpr, evalExprs_congr arguments named same]
  | .enumLiteral _ _, _, _ => rfl
  | .typedLiteral _ _, _, _ => rfl
  | .runtimeLiteral _ _, _, _ => rfl
  | .litNull, _, _ => rfl
  | .litInt _, _, _ => rfl
  | .litFloat _, _, _ => rfl
  | .litStr _, _, _ => rfl
  | .litBool _, _, _ => rfl
  | .litDate _, _, _ => rfl
  | .litTimestamp _, _, _ => rfl
  | .litBlob _, _, _ => rfl
  | .binary _ left right, named, same => by
      rw [hasBoundColumns, Bool.or_eq_false_iff, colsInExpr, List.append_eq_nil_iff] at named
      rw [colsInExpr, List.forall_mem_append] at same
      rw [evalExpr, evalExpr, evalExpr_congr left (named.imp And.left And.left) same.1,
        evalExpr_congr right (named.imp And.right And.right) same.2]
  | .neg operand, named, same => by rw [evalExpr, evalExpr, evalExpr_congr operand named same]
  | .isNull operand, named, same => by rw [evalExpr, evalExpr, evalExpr_congr operand named same]
  | .isNotNull operand, named, same => by rw [evalExpr, evalExpr, evalExpr_congr operand named same]
  | .inList left items _, named, same => by
      rw [hasBoundColumns, Bool.or_eq_false_iff, colsInExpr, List.append_eq_nil_iff] at named
      rw [colsInExpr, List.forall_mem_append] at same
      rw [evalExpr, evalExpr, evalExpr_congr left (named.imp And.left And.left) same.1,
        evalExprs_congr items (named.imp And.right And.right) same.2]
  | .scalarSub _, _, _ => rfl
  | .inSub _ _ _, _, _ => rfl
  | .existsSub _ _, _, _ => rfl
  | .quantCmp _ _ _ _, _, _ => rfl
  | .countAll, _, _ => rfl
  | .aggregate _ _, _, _ => rfl

theorem evalExprs_congr : ∀ expressions : List Expr,
    anyBoundColumns expressions = false ∨ colsInAll expressions = [] →
    (∀ name ∈ colsInAll expressions, lookup name row = lookup name other) →
    evalExprs expressions row = evalExprs expressions other
  | [], _, _ => rfl
  | expression :: expressions, named, same => by
      rw [anyBoundColumns, Bool.or_eq_false_iff, colsInAll, List.append_eq_nil_iff] at named
      rw [colsInAll, List.forall_mem_append] at same
      rw [evalExprs, evalExprs, evalExpr_congr expression (named.imp And.left And.left) same.1,
        evalExprs_congr expressions (named.imp And.right And.right) same.2]

end

/-- An expression without columns has one value. -/
theorem evalExpr_closed {expression : Expr} (closed : colsInExpr expression = []) (row : Row) :
    evalExpr expression row = evalExpr expression [] := by
  refine evalExpr_congr expression (.inr closed) ?_
  simp [closed]

end Reads

end ChuSQL.Engine
