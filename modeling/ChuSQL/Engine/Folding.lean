import ChuSQL.Engine.Analysis
import ChuSQL.Model.Coercion

/-! Folding constants: an expression and its folded form have the same value, or fail
with the same message, on every row. -/

set_option autoImplicit false

namespace ChuSQL.Engine

open Library Model

section Fold

variable [Host] [Printer]

/-- An expression without columns becomes the literal of its value; one that fails stays. -/
def foldNode (expression : Expr) : Expr :=
  if colsInExpr expression = [] then
    match evalExpr expression [] with
    | .ok value => valueLiteral value
    | .error _ => expression
  else expression

mutual

/-- Fold an expression from its leaves. -/
def foldConstants : Expr → Expr
  | .binary op left right => foldNode (.binary op (foldConstants left) (foldConstants right))
  | .neg operand => foldNode (.neg (foldConstants operand))
  | .boundConstruct type arguments => .boundConstruct type (foldAll arguments)
  | .boundFunction id result arguments => foldNode (.boundFunction id result (foldAll arguments))
  | .quantCmp op left query quantifier => .quantCmp op (foldConstants left) query quantifier
  | expression => expression

def foldAll : List Expr → List Expr
  | [] => []
  | expression :: expressions => foldConstants expression :: foldAll expressions

end

end Fold

/-! ### Values that a literal stands for -/

/-- A label among those of its type, a composite value of its type, or any other value. -/
def Consistent : Value → Prop
  | .enum _ labels label => label ∈ labels
  | .runtime type value => validateValue builtinTypes type value = .ok ()
  | _ => True

theorem validated_consistent {type : TypeId} {value : RuntimeValue} {stored : Value}
    (put : (do
      validateValue builtinTypes type value
      pure (.runtime type value) : Except String Value) = .ok stored) : Consistent stored := by
  cases valid : validateValue builtinTypes type value with
  | error message =>
      rw [valid] at put
      cases put
  | ok =>
      rw [valid] at put
      cases put
      exact valid

section Values

variable [Host]

/-- What a column stores is consistent. -/
theorem coerceValue_consistent {value stored : Value} (type : ColumnType) (put : coerceValue type value = .ok stored) :
    Consistent stored := by
  induction type with
  | domain name base ih =>
      rw [coerceValue_domain] at put
      exact ih put
  | runtime expected =>
      cases value <;> simp only [coerceValue, scalarRuntimeValue] at put
      case runtime supplied content =>
        split at put
        · rename_i same
          subst same
          exact validated_consistent put
        · cases put
      all_goals first
        | exact validated_consistent put
        | (cases put; done)
        | cases put; trivial
  | scalar kind =>
      cases value <;> simp only [coerceValue] at put
      case str text =>
        cases found : Host.normalizeScalar kind text with
        | error message =>
            rw [found] at put
            cases put
        | ok normal =>
            rw [found] at put
            cases put
            trivial
      all_goals cases put
      trivial
  | enum name labels =>
      cases value <;> simp only [coerceValue, invalidEnum] at put
      all_goals grind [Consistent]
  | _ =>
      cases value <;> simp only [coerceValue, toInt, toFloat, toDecimal, roundDecimal, toText, toSized, Model.toBool,
        toDate, toTimestamp] at put
      all_goals grind [Consistent]

end Values

/-- The value of an operator is NULL, a number or a truth value. -/
theorem compareValues_consistent {capability : TypeCapability} {holds : Ordering → Bool} {x y value : Value}
    (compared : compareValues capability holds x y = .ok value) : Consistent value := by
  rw [compareValues] at compared
  grind [Consistent]

theorem evalArith_consistent {ops : Arith} {x y value : Value} (computed : evalArith ops x y = .ok value) :
    Consistent value := by
  cases x <;> cases y <;> simp only [evalArith, asDouble] at computed
  all_goals first
    | (cases computed; done)
    | (cases computed; trivial)
    | obtain ⟨_, _, same⟩ := bind_eq_ok.mp computed
      cases same
      trivial

theorem andValues_consistent {x y value : Value} (computed : andValues x y = .ok value) : Consistent value := by
  unfold andValues at computed
  split at computed <;> cases computed <;> trivial

theorem orValues_consistent {x y value : Value} (computed : orValues x y = .ok value) : Consistent value := by
  unfold orValues at computed
  split at computed <;> cases computed <;> trivial

theorem evalNeg_consistent {x value : Value} (computed : evalNeg x = .ok value) : Consistent value := by
  cases x <;> cases computed <;> trivial

theorem executeOperator_consistent {op : Operator} {operands : List Value} {value : Value}
    (computed : executeOperator op operands = .ok value) : Consistent value := by
  match operands with
  | [x] =>
      cases op <;> simp only [executeOperator, wrongCount] at computed
      case neg => exact evalNeg_consistent computed
      all_goals cases computed
  | [x, y] =>
      cases op <;> simp only [executeOperator, arithOf, wrongCount] at computed
      case and => exact andValues_consistent computed
      case or => exact orValues_consistent computed
      case neg => cases computed
      all_goals first
        | exact compareValues_consistent computed
        | exact evalArith_consistent computed
  | [] => cases op <;> cases computed
  | _ :: _ :: _ :: _ => cases op <;> cases computed

theorem threeValuedNot_consistent (value : Value) : Consistent (threeValuedNot value) := by
  cases value <;> trivial

theorem inValues_consistent {value result : Value} {values : List Value} (found : inValues value values = .ok result) :
    Consistent result := by
  rw [inValues] at found
  split at found
  · cases found
    trivial
  · split at found
    · cases found
      trivial
    · obtain ⟨results, _, same⟩ := bind_eq_ok.mp found
      cases same
      grind [Consistent]

theorem constructSQLValue_consistent {type : TypeId} {values : List Value} {result : Value}
    (built : constructSQLValue type values = .ok result) : Consistent result := by
  obtain ⟨arguments, _, later⟩ := bind_eq_ok.mp built
  obtain ⟨value, _, later⟩ := bind_eq_ok.mp later
  exact validated_consistent later

theorem invokeSQLFunction_consistent {id : Int64} {expected : TypeId} {values : List Value} {result : Value}
    (invoked : invokeSQLFunction id expected values = .ok result) : Consistent result := by
  obtain ⟨functions, _, later⟩ := bind_eq_ok.mp invoked
  obtain ⟨signature, _, later⟩ := bind_eq_ok.mp later
  split at later
  · cases later
  · split at later
    · cases later
    · obtain ⟨_, _, later⟩ := bind_eq_ok.mp later
      split at later
      · cases later
        trivial
      · obtain ⟨arguments, _, later⟩ := bind_eq_ok.mp later
        obtain ⟨value, _, later⟩ := bind_eq_ok.mp later
        cases value <;> cases later <;> trivial

/-! ### Folding -/

theorem slotValue_mem {slot : Int} {name : String} {row : Row} {value : Value}
    (found : slotValue slot name row = .ok value) : ∃ key, (key, value) ∈ row := by
  rw [slotValue] at found
  split at found
  · cases found
  · rename_i key other rest dropped
    split at found
    · cases found
      exact ⟨key, List.mem_of_mem_drop (dropped ▸ List.mem_cons_self)⟩
    · cases found

section Fold

variable [Host] [Printer]

theorem evalExpr_literal {value : Value} (consistent : Consistent value) (row : Row) :
    evalExpr (valueLiteral value) row = .ok value := by
  cases value with
  | enum name labels label =>
      rw [Consistent] at consistent
      rw [valueLiteral, evalExpr, coerceValue, if_pos consistent]
  | runtime type content =>
      rw [Consistent] at consistent
      rw [valueLiteral, evalExpr, coerceValue, if_pos rfl, consistent]
      rfl
  | _ => rfl

/-- The value of an expression on a row of consistent values is consistent. -/
theorem evalExpr_consistent {expression : Expr} {row : Row} {value : Value}
    (held : ∀ entry ∈ row, Consistent entry.2) (evaluated : evalExpr expression row = .ok value) :
    Consistent value := by
  cases expression
  case col name =>
    rw [evalExpr] at evaluated
    split at evaluated
    · rename_i found
      cases evaluated
      exact held _ (mem_of_lookup found)
    · cases evaluated
  case columnSlot slot name =>
    obtain ⟨key, inside⟩ := slotValue_mem evaluated
    exact held _ inside
  case outerColumnSlot width slot name =>
    rw [evalExpr] at evaluated
    split at evaluated
    · cases evaluated
    · obtain ⟨key, inside⟩ := slotValue_mem evaluated
      exact held _ (List.mem_of_mem_drop inside)
  case boundConstruct type arguments =>
    obtain ⟨values, _, built⟩ := bind_eq_ok.mp evaluated
    exact constructSQLValue_consistent built
  case boundFunction id result arguments =>
    obtain ⟨values, _, invoked⟩ := bind_eq_ok.mp evaluated
    exact invokeSQLFunction_consistent invoked
  case enumLiteral type label => exact coerceValue_consistent type evaluated
  case typedLiteral type text => exact coerceValue_consistent type evaluated
  case runtimeLiteral type content => exact coerceValue_consistent (.runtime type) evaluated
  case binary op left right =>
    obtain ⟨x, _, later⟩ := bind_eq_ok.mp evaluated
    obtain ⟨y, _, computed⟩ := bind_eq_ok.mp later
    exact executeOperator_consistent computed
  case neg operand =>
    obtain ⟨x, _, computed⟩ := bind_eq_ok.mp evaluated
    exact executeOperator_consistent computed
  case isNull operand =>
    obtain ⟨x, _, same⟩ := bind_eq_ok.mp evaluated
    cases same
    trivial
  case isNotNull operand =>
    obtain ⟨x, _, same⟩ := bind_eq_ok.mp evaluated
    cases same
    trivial
  case inList left items negated =>
    obtain ⟨x, _, later⟩ := bind_eq_ok.mp evaluated
    obtain ⟨values, _, later⟩ := bind_eq_ok.mp later
    obtain ⟨result, found, same⟩ := bind_eq_ok.mp later
    cases negated <;> cases same
    · exact inValues_consistent found
    · exact threeValuedNot_consistent result
  all_goals cases evaluated
  all_goals trivial

theorem foldNode_eval (expression : Expr) (row : Row) :
    evalExpr (foldNode expression) row = evalExpr expression row := by
  rw [foldNode]
  split
  · rename_i closed
    cases evaluated : evalExpr expression [] with
    | error message => rfl
    | ok value =>
        rw [evalExpr_closed closed row, evaluated]
        exact evalExpr_literal (evalExpr_consistent (fun _ inside => absurd inside List.not_mem_nil) evaluated) row
  · rfl

mutual

/-- Folding the constants of an expression changes neither its value nor its failure. -/
theorem foldConstants_eval : ∀ (expression : Expr) (row : Row),
    evalExpr (foldConstants expression) row = evalExpr expression row
  | .binary op left right, row => by
      rw [foldConstants, foldNode_eval, evalExpr, evalExpr, foldConstants_eval left, foldConstants_eval right]
  | .neg operand, row => by rw [foldConstants, foldNode_eval, evalExpr, evalExpr, foldConstants_eval operand]
  | .boundConstruct type arguments, row => by rw [foldConstants, evalExpr, evalExpr, foldAll_eval arguments]
  | .boundFunction id result arguments, row => by
      rw [foldConstants, foldNode_eval, evalExpr, evalExpr, foldAll_eval arguments]
  | .quantCmp _ _ _ _, _ => rfl
  | .col _, _ => rfl
  | .columnRef _ _, _ => rfl
  | .outerColumnRef _ _, _ => rfl
  | .columnSlot _ _, _ => rfl
  | .outerColumnSlot _ _ _, _ => rfl
  | .functionCall _ _, _ => rfl
  | .construct _ _, _ => rfl
  | .enumLiteral _ _, _ => rfl
  | .typedLiteral _ _, _ => rfl
  | .runtimeLiteral _ _, _ => rfl
  | .litNull, _ => rfl
  | .litInt _, _ => rfl
  | .litFloat _, _ => rfl
  | .litStr _, _ => rfl
  | .litBool _, _ => rfl
  | .litDate _, _ => rfl
  | .litTimestamp _, _ => rfl
  | .litBlob _, _ => rfl
  | .isNull _, _ => rfl
  | .isNotNull _, _ => rfl
  | .inList _ _ _, _ => rfl
  | .scalarSub _, _ => rfl
  | .inSub _ _ _, _ => rfl
  | .existsSub _ _, _ => rfl
  | .countAll, _ => rfl
  | .aggregate _ _, _ => rfl

theorem foldAll_eval : ∀ (expressions : List Expr) (row : Row),
    evalExprs (foldAll expressions) row = evalExprs expressions row
  | [], _ => rfl
  | expression :: expressions, row => by
      rw [foldAll, evalExprs, evalExprs, foldConstants_eval expression, foldAll_eval expressions]

end

end Fold

/-! ### What a folded expression reads -/

/-- An expression that refers to no other columns than another, and is bound or holds
subqueries only where the other does. -/
structure Fewer (folded expression : Expr) : Prop where
  columns : colsInExpr folded ⊆ colsInExpr expression
  named : hasBoundColumns expression = false → hasBoundColumns folded = false
  plain : hasSubquery expression = false → hasSubquery folded = false

theorem Fewer.refl (expression : Expr) : Fewer expression expression :=
  ⟨List.Subset.refl _, fun named => named, fun plain => plain⟩

theorem Fewer.trans {first second third : Expr} (before : Fewer first second) (after : Fewer second third) :
    Fewer first third :=
  ⟨fun _ member => after.columns (before.columns member), fun named => before.named (after.named named),
    fun plain => before.plain (after.plain plain)⟩

theorem valueLiteral_fewer (value : Value) (expression : Expr) : Fewer (valueLiteral value) expression := by
  cases value <;> exact ⟨by simp [valueLiteral, colsInExpr], fun _ => by simp [valueLiteral, hasBoundColumns],
    fun _ => by simp [valueLiteral, hasSubquery]⟩

section Fold

variable [Host] [Printer]

theorem foldNode_fewer (expression : Expr) : Fewer (foldNode expression) expression := by
  rw [foldNode]
  split
  · split
    · exact valueLiteral_fewer _ expression
    · exact Fewer.refl expression
  · exact Fewer.refl expression

mutual

theorem foldConstants_fewer : ∀ expression : Expr, Fewer (foldConstants expression) expression
  | .binary op left right => by
      have first := foldConstants_fewer left
      have second := foldConstants_fewer right
      rw [foldConstants]
      refine (foldNode_fewer _).trans ⟨?_, fun named => ?_, fun plain => ?_⟩
      · rw [colsInExpr, colsInExpr]
        exact List.append_subset.mpr ⟨List.subset_append_of_subset_left _ first.columns,
          List.subset_append_of_subset_right _ second.columns⟩
      · rw [hasBoundColumns, Bool.or_eq_false_iff] at named ⊢
        exact named.imp first.named second.named
      · rw [hasSubquery, Bool.or_eq_false_iff] at plain ⊢
        exact plain.imp first.plain second.plain
  | .neg operand => by
      have inner := foldConstants_fewer operand
      rw [foldConstants]
      exact (foldNode_fewer _).trans ⟨inner.columns, inner.named, inner.plain⟩
  | .boundConstruct type arguments => by
      obtain ⟨columns, named, plain⟩ := foldAll_fewer arguments
      rw [foldConstants]
      exact ⟨columns, named, plain⟩
  | .boundFunction id result arguments => by
      obtain ⟨columns, named, plain⟩ := foldAll_fewer arguments
      rw [foldConstants]
      exact (foldNode_fewer _).trans ⟨columns, named, plain⟩
  | .quantCmp op left query quantifier => by
      have first := foldConstants_fewer left
      rw [foldConstants]
      refine ⟨?_, fun named => ?_, fun plain => by cases plain⟩
      · rw [colsInExpr, colsInExpr]
        exact List.append_subset.mpr ⟨List.subset_append_of_subset_left _ first.columns, List.subset_append_right _ _⟩
      · rw [hasBoundColumns, Bool.or_eq_false_iff] at named ⊢
        exact named.imp_left first.named
  | .col _ => Fewer.refl _
  | .columnRef _ _ => Fewer.refl _
  | .outerColumnRef _ _ => Fewer.refl _
  | .columnSlot _ _ => Fewer.refl _
  | .outerColumnSlot _ _ _ => Fewer.refl _
  | .functionCall _ _ => Fewer.refl _
  | .construct _ _ => Fewer.refl _
  | .enumLiteral _ _ => Fewer.refl _
  | .typedLiteral _ _ => Fewer.refl _
  | .runtimeLiteral _ _ => Fewer.refl _
  | .litNull => Fewer.refl _
  | .litInt _ => Fewer.refl _
  | .litFloat _ => Fewer.refl _
  | .litStr _ => Fewer.refl _
  | .litBool _ => Fewer.refl _
  | .litDate _ => Fewer.refl _
  | .litTimestamp _ => Fewer.refl _
  | .litBlob _ => Fewer.refl _
  | .isNull _ => Fewer.refl _
  | .isNotNull _ => Fewer.refl _
  | .inList _ _ _ => Fewer.refl _
  | .scalarSub _ => Fewer.refl _
  | .inSub _ _ _ => Fewer.refl _
  | .existsSub _ _ => Fewer.refl _
  | .countAll => Fewer.refl _
  | .aggregate _ _ => Fewer.refl _

theorem foldAll_fewer : ∀ expressions : List Expr, colsInAll (foldAll expressions) ⊆ colsInAll expressions ∧
    (anyBoundColumns expressions = false → anyBoundColumns (foldAll expressions) = false) ∧
    (anySubquery expressions = false → anySubquery (foldAll expressions) = false)
  | [] => ⟨List.Subset.refl _, fun named => named, fun plain => plain⟩
  | expression :: expressions => by
      have first := foldConstants_fewer expression
      obtain ⟨columns, named, plain⟩ := foldAll_fewer expressions
      rw [foldAll]
      refine ⟨?_, fun bound => ?_, fun queries => ?_⟩
      · rw [colsInAll, colsInAll]
        exact List.append_subset.mpr ⟨List.subset_append_of_subset_left _ first.columns,
          List.subset_append_of_subset_right _ columns⟩
      · rw [anyBoundColumns, Bool.or_eq_false_iff] at bound ⊢
        exact bound.imp first.named named
      · rw [anySubquery, Bool.or_eq_false_iff] at queries ⊢
        exact queries.imp first.plain plain

end

/-- Folding the constants of an expression changes neither its value nor the message it
fails with, on any row, and the folded expression reads nothing else. -/
theorem folding (expression : Expr) :
    (∀ row, evalExpr (foldConstants expression) row = evalExpr expression row) ∧
      Fewer (foldConstants expression) expression :=
  ⟨foldConstants_eval expression, foldConstants_fewer expression⟩

end Fold

end ChuSQL.Engine
