import ChuSQL.Library.Fallible
import ChuSQL.Engine.Syntax

/-! WITH: the references to a common table expression are replaced by derived tables while
the query is read, the innermost WITH first. -/

set_option autoImplicit false

namespace ChuSQL.Engine

open Library Model

/-- The names in scope with the statements they stand for. -/
abbrev CteScope := List (String × Statement)

section Expand

variable (fold : String → String)

/-- Names are compared after folding their case. -/
def cteKey (name : String) : String := fold name

mutual

/-- Replace the references in a statement. -/
def expandStatement (env : CteScope) : Statement → Except String Statement
  | .selectDistinct inner => do
      let inner ← expandStatement env inner
      pure (.selectDistinct inner)
  | .select items source condition groupBy having orderBy limit => do
      let source ← expandClause env source
      let items ← expandItems env items
      let condition ← expandOption env condition
      let having ← expandOption env having
      let orderBy ← expandOrder env orderBy
      pure (.select items source condition groupBy having orderBy limit)
  | .other => .ok .other

/-- A table reference in scope becomes a derived table under its own name or its label. -/
def expandClause (env : CteScope) : FromClause → Except String FromClause
  | .table label name =>
      match lookup (cteKey fold name) env with
      | some body => .ok (.subquery (some (label.getD name)) body)
      | none => .ok (.table label name)
  | .subquery label statement => do
      let statement ← expandStatement env statement
      pure (.subquery label statement)
  | .join kind left right condition => do
      let left ← expandClause env left
      let right ← expandClause env right
      let condition ← expandExpr env condition
      pure (.join kind left right condition)
  | .unit => .ok .unit

/-- Replace the references in the subqueries of an expression. -/
def expandExpr (env : CteScope) : Expr → Except String Expr
  | .construct type arguments => do
      let arguments ← expandExprs env arguments
      pure (.construct type arguments)
  | .boundConstruct type arguments => do
      let arguments ← expandExprs env arguments
      pure (.boundConstruct type arguments)
  | .functionCall name arguments => do
      let arguments ← expandExprs env arguments
      pure (.functionCall name arguments)
  | .boundFunction id result arguments => do
      let arguments ← expandExprs env arguments
      pure (.boundFunction id result arguments)
  | .binary op left right => do
      let left ← expandExpr env left
      let right ← expandExpr env right
      pure (.binary op left right)
  | .neg operand => do
      let operand ← expandExpr env operand
      pure (.neg operand)
  | .isNull operand => do
      let operand ← expandExpr env operand
      pure (.isNull operand)
  | .isNotNull operand => do
      let operand ← expandExpr env operand
      pure (.isNotNull operand)
  | .aggregate builtin argument => do
      let argument ← expandExpr env argument
      pure (.aggregate builtin argument)
  | .scalarSub query => do
      let query ← expandSubquery env query
      pure (.scalarSub query)
  | .inSub left query negated => do
      let left ← expandExpr env left
      let query ← expandSubquery env query
      pure (.inSub left query negated)
  | .inList left items negated => do
      let left ← expandExpr env left
      let items ← expandExprs env items
      pure (.inList left items negated)
  | .existsSub query negated => do
      let query ← expandSubquery env query
      pure (.existsSub query negated)
  | .quantCmp op left query quantifier => do
      let left ← expandExpr env left
      let query ← expandSubquery env query
      pure (.quantCmp op left query quantifier)
  | e => .ok e

def expandSubquery (env : CteScope) : Subquery → Except String Subquery
  | .plain statement references => do
      let statement ← expandStatement env statement
      pure (.plain statement references)
  | .bound statement references slots => do
      let statement ← expandStatement env statement
      pure (.bound statement references slots)

def expandExprs (env : CteScope) : List Expr → Except String (List Expr)
  | [] => .ok []
  | e :: es => do
      let e ← expandExpr env e
      let es ← expandExprs env es
      pure (e :: es)

def expandItems (env : CteScope) : List (String × Expr) → Except String (List (String × Expr))
  | [] => .ok []
  | (label, e) :: items => do
      let e ← expandExpr env e
      let items ← expandItems env items
      pure ((label, e) :: items)

def expandOption (env : CteScope) : Option Expr → Except String (Option Expr)
  | none => .ok none
  | some e => do
      let e ← expandExpr env e
      pure (some e)

def expandKey (env : CteScope) : OrderKey → Except String OrderKey
  | .expression e => do
      let e ← expandExpr env e
      pure (.expression e)
  | key => .ok key

def expandOrder (env : CteScope) : List (OrderKey × SortDir) → Except String (List (OrderKey × SortDir))
  | [] => .ok []
  | (key, direction) :: keys => do
      let key ← expandKey env key
      let keys ← expandOrder env keys
      pure ((key, direction) :: keys)

end

end Expand

/-! ### Column lists -/

def checkCteArity {Item : Type} (name : String) (columns : List String) (output : List Item) : Except String Unit :=
  if columns.length = output.length then .ok ()
  else .error ("WITH: column list of " ++ name ++ " does not match its query")

/-- Whether an item is a column under its own name. -/
def plainItem (item : String × Expr) : Bool :=
  match item.2 with
  | .col name => name == item.1
  | _ => false

/-- A key that is the label of an item follows the new label of the item. -/
def renameOrder (items : List (String × Expr)) (columns : List String) :
    OrderKey × SortDir → Except String (OrderKey × SortDir)
  | (.column column, direction) =>
      match ((items.zip columns).filter fun entry => entry.1.1 == column).map (·.2) with
      | [] => .ok (.column column, direction)
      | [new] => .ok (.column new, direction)
      | _ => .error ("WITH: ambiguous ORDER BY alias: " ++ column)
  | key => .ok key

/-- Give the outputs of a body the names of the column list. -/
def renameColumns (name : String) : List String → Statement → Except String Statement
  | [], statement => .ok statement
  | columns, .selectDistinct inner => do
      let inner ← renameColumns name columns inner
      pure (.selectDistinct inner)
  | columns, .select items source condition groupBy having orderBy limit => do
      checkCteArity name columns items
      let ordering ← (if items.all plainItem then .ok orderBy else orderBy.mapM (renameOrder items columns))
      pure (.select (columns.zip (items.map (·.2))) source condition groupBy having ordering limit)
  | _, _ => .error "WITH: a CTE must be a SELECT"

/-! ### Definitions in order -/

section With

variable (fold : String → String)

/-- Each body is expanded in the scope of the definitions before it. -/
def expandDefinitions (main : Statement) :
    CteScope → List (String × List String × Statement) → Except String Statement
  | env, [] => expandStatement fold env main
  | env, (name, columns, body) :: rest => do
      let body ← expandStatement fold env body
      let named ← renameColumns name columns body
      expandDefinitions main (env ++ [(cteKey fold name, named)]) rest

def expandWith (definitions : List (String × List String × Statement)) (main : Statement) : Except String Statement :=
  expandDefinitions fold main [] definitions

end With

/-! ### Expansion as a substitution -/

section Substitute

variable (fold : String → String)

mutual

/-- The statement with its references replaced; replacing never fails. -/
def substStatement (env : CteScope) : Statement → Statement
  | .selectDistinct inner => .selectDistinct (substStatement env inner)
  | .select items source condition groupBy having orderBy limit =>
      .select (substItems env items) (substClause env source) (substOption env condition) groupBy
        (substOption env having) (substOrder env orderBy) limit
  | .other => .other

def substClause (env : CteScope) : FromClause → FromClause
  | .table label name =>
      match lookup (cteKey fold name) env with
      | some body => .subquery (some (label.getD name)) body
      | none => .table label name
  | .subquery label statement => .subquery label (substStatement env statement)
  | .join kind left right condition =>
      .join kind (substClause env left) (substClause env right) (substExpr env condition)
  | .unit => .unit

def substExpr (env : CteScope) : Expr → Expr
  | .construct type arguments => .construct type (substExprs env arguments)
  | .boundConstruct type arguments => .boundConstruct type (substExprs env arguments)
  | .functionCall name arguments => .functionCall name (substExprs env arguments)
  | .boundFunction id result arguments => .boundFunction id result (substExprs env arguments)
  | .binary op left right => .binary op (substExpr env left) (substExpr env right)
  | .neg operand => .neg (substExpr env operand)
  | .isNull operand => .isNull (substExpr env operand)
  | .isNotNull operand => .isNotNull (substExpr env operand)
  | .aggregate builtin argument => .aggregate builtin (substExpr env argument)
  | .scalarSub query => .scalarSub (substSubquery env query)
  | .inSub left query negated => .inSub (substExpr env left) (substSubquery env query) negated
  | .inList left items negated => .inList (substExpr env left) (substExprs env items) negated
  | .existsSub query negated => .existsSub (substSubquery env query) negated
  | .quantCmp op left query quantifier => .quantCmp op (substExpr env left) (substSubquery env query) quantifier
  | e => e

def substSubquery (env : CteScope) : Subquery → Subquery
  | .plain statement references => .plain (substStatement env statement) references
  | .bound statement references slots => .bound (substStatement env statement) references slots

def substExprs (env : CteScope) : List Expr → List Expr
  | [] => []
  | e :: es => substExpr env e :: substExprs env es

def substItems (env : CteScope) : List (String × Expr) → List (String × Expr)
  | [] => []
  | (label, e) :: items => (label, substExpr env e) :: substItems env items

def substOption (env : CteScope) : Option Expr → Option Expr
  | none => none
  | some e => some (substExpr env e)

def substKey (env : CteScope) : OrderKey → OrderKey
  | .expression e => .expression (substExpr env e)
  | key => key

def substOrder (env : CteScope) : List (OrderKey × SortDir) → List (OrderKey × SortDir)
  | [] => []
  | (key, direction) :: keys => (substKey env key, direction) :: substOrder env keys

end

mutual

theorem expandStatement_eq (env : CteScope) : ∀ statement : Statement,
    expandStatement fold env statement = .ok (substStatement fold env statement)
  | .selectDistinct inner => by
      rw [expandStatement, expandStatement_eq env inner]
      rfl
  | .select items source condition _ having orderBy _ => by
      rw [expandStatement, expandClause_eq env source, expandItems_eq env items, expandOption_eq env condition,
        expandOption_eq env having, expandOrder_eq env orderBy]
      rfl
  | .other => rfl

theorem expandClause_eq (env : CteScope) : ∀ source : FromClause,
    expandClause fold env source = .ok (substClause fold env source)
  | .table label name => by
      rw [expandClause, substClause]
      cases lookup (cteKey fold name) env <;> rfl
  | .subquery label statement => by
      rw [expandClause, expandStatement_eq env statement]
      rfl
  | .join kind left right condition => by
      rw [expandClause, expandClause_eq env left, expandClause_eq env right, expandExpr_eq env condition]
      rfl
  | .unit => rfl

theorem expandExpr_eq (env : CteScope) : ∀ e : Expr, expandExpr fold env e = .ok (substExpr fold env e)
  | .construct _ arguments | .boundConstruct _ arguments | .functionCall _ arguments
  | .boundFunction _ _ arguments => by
      rw [expandExpr, expandExprs_eq env arguments]
      rfl
  | .binary _ left right => by
      rw [expandExpr, expandExpr_eq env left, expandExpr_eq env right]
      rfl
  | .neg operand | .isNull operand | .isNotNull operand | .aggregate _ operand => by
      rw [expandExpr, expandExpr_eq env operand]
      rfl
  | .scalarSub query | .existsSub query _ => by
      rw [expandExpr, expandSubquery_eq env query]
      rfl
  | .inSub left query _ | .quantCmp _ left query _ => by
      rw [expandExpr, expandExpr_eq env left, expandSubquery_eq env query]
      rfl
  | .inList left items _ => by
      rw [expandExpr, expandExpr_eq env left, expandExprs_eq env items]
      rfl
  | .col _ | .columnRef _ _ | .outerColumnRef _ _ | .columnSlot _ _ | .outerColumnSlot _ _ _ | .enumLiteral _ _
  | .typedLiteral _ _ | .runtimeLiteral _ _ | .litNull | .litInt _ | .litFloat _ | .litStr _ | .litBool _ | .litDate _
  | .litTimestamp _ | .litBlob _ | .countAll => rfl

theorem expandSubquery_eq (env : CteScope) : ∀ query : Subquery,
    expandSubquery fold env query = .ok (substSubquery fold env query)
  | .plain statement _ | .bound statement _ _ => by
      rw [expandSubquery, expandStatement_eq env statement]
      rfl

theorem expandExprs_eq (env : CteScope) : ∀ es : List Expr, expandExprs fold env es = .ok (substExprs fold env es)
  | [] => rfl
  | e :: es => by
      rw [expandExprs, expandExpr_eq env e, expandExprs_eq env es]
      rfl

theorem expandItems_eq (env : CteScope) : ∀ items : List (String × Expr),
    expandItems fold env items = .ok (substItems fold env items)
  | [] => rfl
  | (_, e) :: items => by
      rw [expandItems, expandExpr_eq env e, expandItems_eq env items]
      rfl

theorem expandOption_eq (env : CteScope) : ∀ e : Option Expr,
    expandOption fold env e = .ok (substOption fold env e)
  | none => rfl
  | some e => by
      rw [expandOption, expandExpr_eq env e]
      rfl

theorem expandKey_eq (env : CteScope) : ∀ key : OrderKey, expandKey fold env key = .ok (substKey fold env key)
  | .expression e => by
      rw [expandKey, expandExpr_eq env e]
      rfl
  | .column _ | .position _ => rfl

theorem expandOrder_eq (env : CteScope) : ∀ keys : List (OrderKey × SortDir),
    expandOrder fold env keys = .ok (substOrder fold env keys)
  | [] => rfl
  | (key, _) :: keys => by
      rw [expandOrder, expandKey_eq env key, expandOrder_eq env keys]
      rfl

end

mutual

/-- Nothing in scope leaves a statement as it is. -/
theorem substStatement_nil : ∀ statement : Statement,
    substStatement fold [] statement = statement
  | .selectDistinct inner => by
      rw [substStatement, substStatement_nil inner]
  | .select items source condition _ having orderBy _ => by
      rw [substStatement, substItems_nil items, substClause_nil source, substOption_nil condition, substOption_nil having, substOrder_nil orderBy]
  | .other => rfl

theorem substClause_nil : ∀ source : FromClause,
    substClause fold [] source = source
  | .table _ _ => rfl
  | .subquery _ statement => by
      rw [substClause, substStatement_nil statement]
  | .join _ left right condition => by
      rw [substClause, substClause_nil left, substClause_nil right, substExpr_nil condition]
  | .unit => rfl

theorem substExpr_nil : ∀ e : Expr,
    substExpr fold [] e = e
  | .construct _ arguments | .boundConstruct _ arguments | .functionCall _ arguments
  | .boundFunction _ _ arguments => by
      rw [substExpr, substExprs_nil arguments]
  | .binary _ left right => by
      rw [substExpr, substExpr_nil left, substExpr_nil right]
  | .neg operand | .isNull operand | .isNotNull operand | .aggregate _ operand => by
      rw [substExpr, substExpr_nil operand]
  | .scalarSub query | .existsSub query _ => by
      rw [substExpr, substSubquery_nil query]
  | .inSub left query _ | .quantCmp _ left query _ => by
      rw [substExpr, substExpr_nil left, substSubquery_nil query]
  | .inList left items _ => by
      rw [substExpr, substExpr_nil left, substExprs_nil items]
  | .col _ | .columnRef _ _ | .outerColumnRef _ _ | .columnSlot _ _ | .outerColumnSlot _ _ _ | .enumLiteral _ _
  | .typedLiteral _ _ | .runtimeLiteral _ _ | .litNull | .litInt _ | .litFloat _ | .litStr _ | .litBool _ | .litDate _
  | .litTimestamp _ | .litBlob _ | .countAll => rfl

theorem substSubquery_nil : ∀ query : Subquery,
    substSubquery fold [] query = query
  | .plain statement _ | .bound statement _ _ => by
      rw [substSubquery, substStatement_nil statement]

theorem substExprs_nil : ∀ es : List Expr,
    substExprs fold [] es = es
  | [] => rfl
  | e :: es => by
      rw [substExprs, substExpr_nil e, substExprs_nil es]

theorem substItems_nil : ∀ items : List (String × Expr),
    substItems fold [] items = items
  | [] => rfl
  | (_, e) :: items => by
      rw [substItems, substExpr_nil e, substItems_nil items]

theorem substOption_nil : ∀ e : Option Expr,
    substOption fold [] e = e
  | none => rfl
  | some e => by
      rw [substOption, substExpr_nil e]

theorem substKey_nil : ∀ key : OrderKey,
    substKey fold [] key = key
  | .expression e => by
      rw [substKey, substExpr_nil e]
  | .column _ | .position _ => rfl

theorem substOrder_nil : ∀ keys : List (OrderKey × SortDir),
    substOrder fold [] keys = keys
  | [] => rfl
  | (key, _) :: keys => by
      rw [substOrder, substKey_nil key, substOrder_nil keys]

end

/-- The inner scope with its bodies replaced, in front of the outer one. -/
def within (outer inner : CteScope) : CteScope :=
  (inner.map fun entry => (entry.1, substStatement fold outer entry.2)) ++ outer

theorem lookup_within (outer inner : CteScope) (name : String) :
    lookup name (within fold outer inner) =
      (match lookup name inner with
      | some body => some (substStatement fold outer body)
      | none => lookup name outer) := by
  induction inner with
  | nil => rfl
  | cons entry inner ih =>
      simp only [within, List.map_cons, List.cons_append, lookup] at ih ⊢
      split
      · rfl
      · exact ih

mutual

/-- Replacing in turn replaces at once by the bodies replaced. -/
theorem substStatement_within (outer inner : CteScope) : ∀ statement : Statement,
    substStatement fold outer (substStatement fold inner statement) = substStatement fold (within fold outer inner) statement
  | .selectDistinct query => by
      simp only [substStatement, substStatement_within outer inner query]
  | .select items source condition _ having orderBy _ => by
      simp only [substStatement, substItems_within outer inner items, substClause_within outer inner source, substOption_within outer inner condition, substOption_within outer inner having, substOrder_within outer inner orderBy]
  | .other => rfl

theorem substClause_within (outer inner : CteScope) : ∀ source : FromClause,
    substClause fold outer (substClause fold inner source) = substClause fold (within fold outer inner) source
  | .table label name => by
      simp only [substClause]
      rw [lookup_within]
      cases lookup (cteKey fold name) inner <;> rfl
  | .subquery _ statement => by
      simp only [substClause, substStatement_within outer inner statement]
  | .join _ left right condition => by
      simp only [substClause, substClause_within outer inner left, substClause_within outer inner right, substExpr_within outer inner condition]
  | .unit => rfl

theorem substExpr_within (outer inner : CteScope) : ∀ e : Expr,
    substExpr fold outer (substExpr fold inner e) = substExpr fold (within fold outer inner) e
  | .construct _ arguments | .boundConstruct _ arguments | .functionCall _ arguments
  | .boundFunction _ _ arguments => by
      simp only [substExpr, substExprs_within outer inner arguments]
  | .binary _ left right => by
      simp only [substExpr, substExpr_within outer inner left, substExpr_within outer inner right]
  | .neg operand | .isNull operand | .isNotNull operand | .aggregate _ operand => by
      simp only [substExpr, substExpr_within outer inner operand]
  | .scalarSub query | .existsSub query _ => by
      simp only [substExpr, substSubquery_within outer inner query]
  | .inSub left query _ | .quantCmp _ left query _ => by
      simp only [substExpr, substExpr_within outer inner left, substSubquery_within outer inner query]
  | .inList left items _ => by
      simp only [substExpr, substExpr_within outer inner left, substExprs_within outer inner items]
  | .col _ | .columnRef _ _ | .outerColumnRef _ _ | .columnSlot _ _ | .outerColumnSlot _ _ _ | .enumLiteral _ _
  | .typedLiteral _ _ | .runtimeLiteral _ _ | .litNull | .litInt _ | .litFloat _ | .litStr _ | .litBool _ | .litDate _
  | .litTimestamp _ | .litBlob _ | .countAll => rfl

theorem substSubquery_within (outer inner : CteScope) : ∀ query : Subquery,
    substSubquery fold outer (substSubquery fold inner query) = substSubquery fold (within fold outer inner) query
  | .plain statement _ | .bound statement _ _ => by
      simp only [substSubquery, substStatement_within outer inner statement]

theorem substExprs_within (outer inner : CteScope) : ∀ es : List Expr,
    substExprs fold outer (substExprs fold inner es) = substExprs fold (within fold outer inner) es
  | [] => rfl
  | e :: es => by
      simp only [substExprs, substExpr_within outer inner e, substExprs_within outer inner es]

theorem substItems_within (outer inner : CteScope) : ∀ items : List (String × Expr),
    substItems fold outer (substItems fold inner items) = substItems fold (within fold outer inner) items
  | [] => rfl
  | (_, e) :: items => by
      simp only [substItems, substExpr_within outer inner e, substItems_within outer inner items]

theorem substOption_within (outer inner : CteScope) : ∀ e : Option Expr,
    substOption fold outer (substOption fold inner e) = substOption fold (within fold outer inner) e
  | none => rfl
  | some e => by
      simp only [substOption, substExpr_within outer inner e]

theorem substKey_within (outer inner : CteScope) : ∀ key : OrderKey,
    substKey fold outer (substKey fold inner key) = substKey fold (within fold outer inner) key
  | .expression e => by
      simp only [substKey, substExpr_within outer inner e]
  | .column _ | .position _ => rfl

theorem substOrder_within (outer inner : CteScope) : ∀ keys : List (OrderKey × SortDir),
    substOrder fold outer (substOrder fold inner keys) = substOrder fold (within fold outer inner) keys
  | [] => rfl
  | (key, _) :: keys => by
      simp only [substOrder, substKey_within outer inner key, substOrder_within outer inner keys]

end

/-! ### Column lists and scopes -/

theorem substItems_map (env : CteScope) (items : List (String × Expr)) :
    substItems fold env items = items.map fun item => (item.1, substExpr fold env item.2) := by
  induction items with
  | nil => rfl
  | cons item items ih =>
      rw [substItems, List.map_cons, ih]

theorem substOrder_map (env : CteScope) (keys : List (OrderKey × SortDir)) :
    substOrder fold env keys = keys.map fun key => (substKey fold env key.1, key.2) := by
  induction keys with
  | nil => rfl
  | cons key keys ih =>
      rw [substOrder, List.map_cons, ih]

theorem plainItem_subst (env : CteScope) (item : String × Expr) :
    plainItem (item.1, substExpr fold env item.2) = plainItem item := by
  obtain ⟨label, e⟩ := item
  cases e <;> rfl

/-- A key follows the labels, which replacing leaves alone. -/
theorem renameOrder_subst (env : CteScope) (items : List (String × Expr)) (columns : List String)
    (key : OrderKey × SortDir) :
    renameOrder (substItems fold env items) columns (substKey fold env key.1, key.2) =
      (renameOrder items columns key).map fun renamed => (substKey fold env renamed.1, renamed.2) := by
  obtain ⟨key, direction⟩ := key
  cases key with
  | position place => rfl
  | expression e => rfl
  | column name =>
      have labels : (((substItems fold env items).zip columns).filter fun entry => entry.1.1 == name).map (·.2) =
          ((items.zip columns).filter fun entry => entry.1.1 == name).map (·.2) := by
        rw [substItems_map, List.zip_map_left, List.filter_map, List.map_map]
        rfl
      simp only [substKey, renameOrder]
      rw [labels]
      split <;> rfl

theorem renameOrders_subst (env : CteScope) (items : List (String × Expr)) (columns : List String)
    (keys : List (OrderKey × SortDir)) :
    (substOrder fold env keys).mapM (renameOrder (substItems fold env items) columns) =
      (keys.mapM (renameOrder items columns)).map (substOrder fold env) := by
  induction keys with
  | nil => rfl
  | cons key keys ih =>
      have first := renameOrder_subst fold env items columns key
      simp only [substOrder, List.mapM_cons, ih, first]
      cases renameOrder items columns key with
      | error message => rfl
      | ok renamed => cases keys.mapM (renameOrder items columns) <;> rfl

theorem renameColumns_subst (env : CteScope) (name : String) (columns : List String) : ∀ statement : Statement,
    renameColumns name columns (substStatement fold env statement) =
      (renameColumns name columns statement).map (substStatement fold env)
  | .selectDistinct inner => by
      cases columns with
      | nil => rfl
      | cons column columns =>
          simp only [substStatement, renameColumns, renameColumns_subst env name (column :: columns) inner]
          cases renameColumns name (column :: columns) inner <;> rfl
  | .select items source condition groupBy having orderBy limit => by
      cases columns with
      | nil => rfl
      | cons column columns =>
          have arity : checkCteArity name (column :: columns) (substItems fold env items) =
              checkCteArity name (column :: columns) items := by
            simp [checkCteArity, substItems_map]
          have plain : (substItems fold env items).all plainItem = items.all plainItem := by
            simp [substItems_map, List.all_map, Function.comp_def, plainItem_subst]
          have outputs : (column :: columns).zip ((substItems fold env items).map (·.2)) =
              substItems fold env ((column :: columns).zip (items.map (·.2))) := by
            simp only [substItems_map, List.map_map, List.zip_map_right]
            rfl
          simp only [substStatement, renameColumns, arity, plain, renameOrders_subst, outputs]
          cases checkCteArity name (column :: columns) items with
          | error message => rfl
          | ok _ =>
              cases items.all plainItem with
              | true => rfl
              | false => cases orderBy.mapM (renameOrder items (column :: columns)) <;> rfl
  | .other => by cases columns <;> rfl

end Substitute

end ChuSQL.Engine
