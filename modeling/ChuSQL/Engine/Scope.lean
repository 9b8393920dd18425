import ChuSQL.Engine.Expansion

/-! The scope of WITH: the query as it is written, what the reader makes of it, and what it
means when every name is looked up in the definitions around it. -/

set_option autoImplicit false

namespace ChuSQL.Engine.Written

open Library Model

/-! ### Queries as written -/

/-- A literal or a column. -/
inductive Leaf where
  | column (name : String)
  | countAll
  | null
  | int (n : Int64)
  | float (d : Double)
  | str (text : String)
  | bool (flag : Bool)
  | date (text : String)
  | timestamp (text : String)
  | blob (text : String)
  | typed (kind : ScalarType) (text : String)

def Leaf.expr : Leaf → Expr
  | .column name => .col name
  | .countAll => .countAll
  | .null => .litNull
  | .int n => .litInt n
  | .float d => .litFloat d
  | .str text => .litStr text
  | .bool flag => .litBool flag
  | .date text => .litDate text
  | .timestamp text => .litTimestamp text
  | .blob text => .litBlob text
  | .typed kind text => .typedLiteral (.scalar kind) text

mutual

inductive Term where
  | leaf (leaf : Leaf)
  | functionCall (name : String) (arguments : List Term)
  | construct (type : TypeExpr) (arguments : List Term)
  | binary (op : Operator) (left right : Term)
  | neg (operand : Term)
  | isNull (operand : Term)
  | isNotNull (operand : Term)
  | aggregate (builtin : Builtin) (argument : Term)
  | scalarSub (query : Query)
  | inSub (left : Term) (query : Query) (negated : Bool)
  | inList (left : Term) (items : List Term) (negated : Bool)
  | existsSub (query : Query) (negated : Bool)
  | quantCmp (op : CompareOp) (left : Term) (query : Query) (quantifier : Quantifier)

/-- A SELECT, or definitions with column lists in front of one. -/
inductive Query where
  | select (items : List (String × Term)) (source : Source) (condition : Option Term)
      (groupBy : List String) (having : Option Term) (orderBy : List (Key × SortDir))
      (limit : Option Int64)
  | selectDistinct (inner : Query)
  | withs (definitions : List (String × List String × Query)) (main : Query)

inductive Source where
  | table (label : Option String) (name : String)
  | subquery (label : Option String) (query : Query)
  | join (kind : JoinKind) (left right : Source) (condition : Term)
  | unit

inductive Key where
  | column (name : String)
  | position (place : Int64)
  | expression (term : Term)

end

section Meaning

variable (fold : String → String)

/-! ### What the reader makes of a query -/

mutual

def readTerm : Term → Except String Expr
  | .leaf leaf => .ok leaf.expr
  | .functionCall name arguments => do
      let arguments ← readTerms arguments
      pure (.functionCall name arguments)
  | .construct type arguments => do
      let arguments ← readTerms arguments
      pure (.construct type arguments)
  | .binary op left right => do
      let left ← readTerm left
      let right ← readTerm right
      pure (.binary op left right)
  | .neg operand => do
      let operand ← readTerm operand
      pure (.neg operand)
  | .isNull operand => do
      let operand ← readTerm operand
      pure (.isNull operand)
  | .isNotNull operand => do
      let operand ← readTerm operand
      pure (.isNotNull operand)
  | .aggregate builtin argument => do
      let argument ← readTerm argument
      pure (.aggregate builtin argument)
  | .scalarSub query => do
      let statement ← readQuery query
      pure (.scalarSub (.plain statement []))
  | .inSub left query negated => do
      let left ← readTerm left
      let statement ← readQuery query
      pure (.inSub left (.plain statement []) negated)
  | .inList left items negated => do
      let left ← readTerm left
      let items ← readTerms items
      pure (.inList left items negated)
  | .existsSub query negated => do
      let statement ← readQuery query
      pure (.existsSub (.plain statement []) negated)
  | .quantCmp op left query quantifier => do
      let left ← readTerm left
      let statement ← readQuery query
      pure (.quantCmp op left (.plain statement []) quantifier)

def readTerms : List Term → Except String (List Expr)
  | [] => .ok []
  | term :: terms => do
      let e ← readTerm term
      let es ← readTerms terms
      pure (e :: es)

def readItems : List (String × Term) → Except String (List (String × Expr))
  | [] => .ok []
  | (label, term) :: items => do
      let e ← readTerm term
      let items ← readItems items
      pure ((label, e) :: items)

def readOption : Option Term → Except String (Option Expr)
  | none => .ok none
  | some term => do
      let e ← readTerm term
      pure (some e)

/-- The definitions are expanded as soon as the query they stand in is read. -/
def readQuery : Query → Except String Statement
  | .select items source condition groupBy having orderBy limit => do
      let source ← readSource source
      let items ← readItems items
      let condition ← readOption condition
      let having ← readOption having
      let orderBy ← readOrder orderBy
      pure (.select items source condition groupBy having orderBy limit)
  | .selectDistinct inner => do
      let inner ← readQuery inner
      pure (.selectDistinct inner)
  | .withs definitions main => do
      let definitions ← readDefinitions definitions
      let main ← readQuery main
      expandWith fold definitions main

def readDefinitions :
    List (String × List String × Query) → Except String (List (String × List String × Statement))
  | [] => .ok []
  | (name, columns, body) :: rest => do
      let body ← readQuery body
      let rest ← readDefinitions rest
      pure ((name, columns, body) :: rest)

def readSource : Source → Except String FromClause
  | .table label name => .ok (.table label name)
  | .subquery label query => do
      let statement ← readQuery query
      pure (.subquery label statement)
  | .join kind left right condition => do
      let left ← readSource left
      let right ← readSource right
      let condition ← readTerm condition
      pure (.join kind left right condition)
  | .unit => .ok .unit

def readKey : Key → Except String OrderKey
  | .column name => .ok (.column name)
  | .position place => .ok (.position place)
  | .expression term => do
      let e ← readTerm term
      pure (.expression e)

def readOrder : List (Key × SortDir) → Except String (List (OrderKey × SortDir))
  | [] => .ok []
  | (key, direction) :: keys => do
      let key ← readKey key
      let keys ← readOrder keys
      pure ((key, direction) :: keys)

end

/-! ### What a query means in a scope -/

mutual

def termMeaning (scope : CteScope) : Term → Except String Expr
  | .leaf leaf => .ok leaf.expr
  | .functionCall name arguments => do
      let arguments ← termsMeaning scope arguments
      pure (.functionCall name arguments)
  | .construct type arguments => do
      let arguments ← termsMeaning scope arguments
      pure (.construct type arguments)
  | .binary op left right => do
      let left ← termMeaning scope left
      let right ← termMeaning scope right
      pure (.binary op left right)
  | .neg operand => do
      let operand ← termMeaning scope operand
      pure (.neg operand)
  | .isNull operand => do
      let operand ← termMeaning scope operand
      pure (.isNull operand)
  | .isNotNull operand => do
      let operand ← termMeaning scope operand
      pure (.isNotNull operand)
  | .aggregate builtin argument => do
      let argument ← termMeaning scope argument
      pure (.aggregate builtin argument)
  | .scalarSub query => do
      let statement ← queryMeaning scope query
      pure (.scalarSub (.plain statement []))
  | .inSub left query negated => do
      let left ← termMeaning scope left
      let statement ← queryMeaning scope query
      pure (.inSub left (.plain statement []) negated)
  | .inList left items negated => do
      let left ← termMeaning scope left
      let items ← termsMeaning scope items
      pure (.inList left items negated)
  | .existsSub query negated => do
      let statement ← queryMeaning scope query
      pure (.existsSub (.plain statement []) negated)
  | .quantCmp op left query quantifier => do
      let left ← termMeaning scope left
      let statement ← queryMeaning scope query
      pure (.quantCmp op left (.plain statement []) quantifier)

def termsMeaning (scope : CteScope) : List Term → Except String (List Expr)
  | [] => .ok []
  | term :: terms => do
      let e ← termMeaning scope term
      let es ← termsMeaning scope terms
      pure (e :: es)

def itemsMeaning (scope : CteScope) : List (String × Term) → Except String (List (String × Expr))
  | [] => .ok []
  | (label, term) :: items => do
      let e ← termMeaning scope term
      let items ← itemsMeaning scope items
      pure ((label, e) :: items)

def optionMeaning (scope : CteScope) : Option Term → Except String (Option Expr)
  | none => .ok none
  | some term => do
      let e ← termMeaning scope term
      pure (some e)

/-- The definitions of a WITH are in scope in its main query, in front of those around it. -/
def queryMeaning (scope : CteScope) : Query → Except String Statement
  | .select items source condition groupBy having orderBy limit => do
      let source ← sourceMeaning scope source
      let items ← itemsMeaning scope items
      let condition ← optionMeaning scope condition
      let having ← optionMeaning scope having
      let orderBy ← orderMeaning scope orderBy
      pure (.select items source condition groupBy having orderBy limit)
  | .selectDistinct inner => do
      let inner ← queryMeaning scope inner
      pure (.selectDistinct inner)
  | .withs definitions main => do
      let defined ← definitionsMeaning scope [] definitions
      queryMeaning (defined ++ scope) main

/-- A body sees the definitions before it and the scope around the WITH. Where a WITH
defines a name twice the first definition stands. -/
def definitionsMeaning (scope seen : CteScope) : List (String × List String × Query) → Except String CteScope
  | [] => .ok seen
  | (name, columns, body) :: rest => do
      let body ← queryMeaning (seen ++ scope) body
      let named ← renameColumns name columns body
      definitionsMeaning scope (seen ++ [(cteKey fold name, named)]) rest

/-- A name in scope is the query defined under it, any other name a table. -/
def sourceMeaning (scope : CteScope) : Source → Except String FromClause
  | .table label name =>
      match lookup (cteKey fold name) scope with
      | some body => .ok (.subquery (some (label.getD name)) body)
      | none => .ok (.table label name)
  | .subquery label query => do
      let statement ← queryMeaning scope query
      pure (.subquery label statement)
  | .join kind left right condition => do
      let left ← sourceMeaning scope left
      let right ← sourceMeaning scope right
      let condition ← termMeaning scope condition
      pure (.join kind left right condition)
  | .unit => .ok .unit

def keyMeaning (scope : CteScope) : Key → Except String OrderKey
  | .column name => .ok (.column name)
  | .position place => .ok (.position place)
  | .expression term => do
      let e ← termMeaning scope term
      pure (.expression e)

def orderMeaning (scope : CteScope) : List (Key × SortDir) → Except String (List (OrderKey × SortDir))
  | [] => .ok []
  | (key, direction) :: keys => do
      let key ← keyMeaning scope key
      let keys ← orderMeaning scope keys
      pure ((key, direction) :: keys)

end

/-! ### The reader agrees with the scopes -/

/-- The scope that definitions make when each body is already read. -/
def collect : CteScope → List (String × List String × Statement) → Except String CteScope
  | seen, [] => .ok seen
  | seen, (name, columns, body) :: rest => do
      let named ← renameColumns name columns (substStatement fold seen body)
      collect (seen ++ [(cteKey fold name, named)]) rest

theorem expandDefinitions_eq (main : Statement) (definitions : List (String × List String × Statement))
    (seen : CteScope) :
    expandDefinitions fold main seen definitions =
      (collect fold seen definitions).map fun defined => substStatement fold defined main := by
  induction definitions generalizing seen with
  | nil => exact expandStatement_eq fold seen main
  | cons definition rest ih =>
      obtain ⟨name, columns, body⟩ := definition
      rw [expandDefinitions, expandStatement_eq]
      simp only [bind, Except.bind, collect]
      cases renameColumns name columns (substStatement fold seen body) with
      | error message => rfl
      | ok named => exact ih _

/-- The scope with every body replaced. -/
def replaced (scope seen : CteScope) : CteScope :=
  seen.map fun entry => (entry.1, substStatement fold scope entry.2)

theorem substStatement_within_eq (scope seen : CteScope) (statement : Statement) :
    substStatement fold scope (substStatement fold seen statement) =
      substStatement fold (replaced fold scope seen ++ scope) statement :=
  substStatement_within fold scope seen statement

theorem map_eq_ok {Item Result : Type} {first : Except String Item} {each : Item → Result} {result : Result} :
    first.map each = .ok result ↔ ∃ item, first = .ok item ∧ each item = result := by
  cases first <;> simp [Except.map]

mutual

theorem termMeaning_iff (scope : CteScope) : ∀ (term : Term) (e : Expr),
    termMeaning fold scope term = .ok e ↔ ∃ raw, readTerm fold term = .ok raw ∧ substExpr fold scope raw = e
  | .leaf leaf, e => by
      cases leaf <;> simp [termMeaning, readTerm, Leaf.expr, substExpr]
  | .functionCall _ arguments, e | .construct _ arguments, e => by
      simp [termMeaning, readTerm, -bind_pure_comp, bind_eq_ok, pure_eq_ok, termsMeaning_iff scope arguments, substExpr]
  | .binary _ left right, e => by
      simp [termMeaning, readTerm, -bind_pure_comp, bind_eq_ok, pure_eq_ok, termMeaning_iff scope left, termMeaning_iff scope right,
        substExpr]
  | .neg operand, e | .isNull operand, e | .isNotNull operand, e | .aggregate _ operand, e => by
      simp [termMeaning, readTerm, -bind_pure_comp, bind_eq_ok, pure_eq_ok, termMeaning_iff scope operand, substExpr]
  | .scalarSub query, e | .existsSub query _, e => by
      simp [termMeaning, readTerm, -bind_pure_comp, bind_eq_ok, pure_eq_ok, queryMeaning_iff scope query, substExpr, substSubquery]
  | .inSub left query _, e | .quantCmp _ left query _, e => by
      simp [termMeaning, readTerm, -bind_pure_comp, bind_eq_ok, pure_eq_ok, termMeaning_iff scope left, queryMeaning_iff scope query,
        substExpr, substSubquery]
  | .inList left items _, e => by
      simp [termMeaning, readTerm, -bind_pure_comp, bind_eq_ok, pure_eq_ok, termMeaning_iff scope left, termsMeaning_iff scope items,
        substExpr]

theorem termsMeaning_iff (scope : CteScope) : ∀ (terms : List Term) (es : List Expr),
    termsMeaning fold scope terms = .ok es ↔ ∃ raw, readTerms fold terms = .ok raw ∧ substExprs fold scope raw = es
  | [], es => by simp [termsMeaning, readTerms, substExprs]
  | term :: terms, es => by
      simp [termsMeaning, readTerms, -bind_pure_comp, bind_eq_ok, pure_eq_ok, termMeaning_iff scope term, termsMeaning_iff scope terms,
        substExprs]

theorem itemsMeaning_iff (scope : CteScope) : ∀ (items : List (String × Term)) (es : List (String × Expr)),
    itemsMeaning fold scope items = .ok es ↔ ∃ raw, readItems fold items = .ok raw ∧ substItems fold scope raw = es
  | [], es => by simp [itemsMeaning, readItems, substItems]
  | (_, term) :: items, es => by
      simp [itemsMeaning, readItems, -bind_pure_comp, bind_eq_ok, pure_eq_ok, termMeaning_iff scope term, itemsMeaning_iff scope items,
        substItems]

theorem optionMeaning_iff (scope : CteScope) : ∀ (term : Option Term) (e : Option Expr),
    optionMeaning fold scope term = .ok e ↔ ∃ raw, readOption fold term = .ok raw ∧ substOption fold scope raw = e
  | none, e => by simp [optionMeaning, readOption, substOption]
  | some term, e => by
      simp [optionMeaning, readOption, -bind_pure_comp, bind_eq_ok, pure_eq_ok, termMeaning_iff scope term, substOption]

theorem queryMeaning_iff (scope : CteScope) : ∀ (query : Query) (statement : Statement),
    queryMeaning fold scope query = .ok statement ↔
      ∃ raw, readQuery fold query = .ok raw ∧ substStatement fold scope raw = statement
  | .select items source condition _ having orderBy _, statement => by
      simp [queryMeaning, readQuery, -bind_pure_comp, bind_eq_ok, pure_eq_ok, sourceMeaning_iff scope source,
        itemsMeaning_iff scope items, optionMeaning_iff scope condition, optionMeaning_iff scope having,
        orderMeaning_iff scope orderBy, substStatement, and_assoc]
  | .selectDistinct inner, statement => by
      simp [queryMeaning, readQuery, -bind_pure_comp, bind_eq_ok, pure_eq_ok, queryMeaning_iff scope inner, substStatement]
  | .withs definitions main, statement => by
      have definitionsRead := definitionsMeaning_iff scope definitions []
      have mainRead := fun inner => queryMeaning_iff (replaced fold scope inner ++ scope) main statement
      simp only [queryMeaning, readQuery, bind_eq_ok, expandWith, expandDefinitions_eq, map_eq_ok]
      constructor
      · rintro ⟨_, defines, means⟩
        obtain ⟨raw, definitionsOk, inner, collects, rfl⟩ := (definitionsRead _).mp defines
        obtain ⟨body, mainOk, rfl⟩ := (mainRead inner).mp means
        exact ⟨_, ⟨raw, definitionsOk, body, mainOk, inner, collects, rfl⟩, substStatement_within fold scope inner body⟩
      · rintro ⟨_, ⟨raw, definitionsOk, body, mainOk, inner, collects, rfl⟩, rfl⟩
        exact ⟨_, (definitionsRead _).mpr ⟨raw, definitionsOk, inner, collects, rfl⟩,
          (mainRead inner).mpr ⟨body, mainOk, (substStatement_within fold scope inner body).symm⟩⟩

theorem definitionsMeaning_iff (scope : CteScope) : ∀ (definitions : List (String × List String × Query))
    (seen defined : CteScope), definitionsMeaning fold scope (replaced fold scope seen) definitions = .ok defined ↔
      ∃ raw, readDefinitions fold definitions = .ok raw ∧
        ∃ inner, collect fold seen raw = .ok inner ∧ replaced fold scope inner = defined
  | [], seen, defined => by simp [definitionsMeaning, readDefinitions, collect]
  | (name, columns, body) :: rest, seen, defined => by
      have bodyRead := queryMeaning_iff (replaced fold scope seen ++ scope) body
      have restRead := fun named =>
        definitionsMeaning_iff scope rest (seen ++ [(cteKey fold name, named)]) defined
      have renamed := fun raw => renameColumns_subst fold scope name columns (substStatement fold seen raw)
      simp only [definitionsMeaning, readDefinitions, bind_eq_ok, pure_eq_ok]
      constructor
      · rintro ⟨_, means, named, renames, defines⟩
        obtain ⟨raw, bodyOk, rfl⟩ := (bodyRead _).mp means
        rw [← substStatement_within_eq, renamed raw, map_eq_ok] at renames
        obtain ⟨plain, renames, rfl⟩ := renames
        obtain ⟨others, restOk, inner, collects, rfl⟩ := (restRead plain).mp (by simpa [replaced] using defines)
        exact ⟨_, ⟨raw, bodyOk, others, restOk, rfl⟩, inner, bind_eq_ok.mpr ⟨plain, renames, collects⟩, rfl⟩
      · rintro ⟨_, ⟨raw, bodyOk, others, restOk, rfl⟩, inner, collects, rfl⟩
        obtain ⟨plain, renames, collects⟩ := bind_eq_ok.mp collects
        refine ⟨_, (bodyRead _).mpr ⟨raw, bodyOk, rfl⟩, substStatement fold scope plain, ?_, ?_⟩
        · rw [← substStatement_within_eq, renamed raw, renames]
          rfl
        · simpa [replaced] using (restRead plain).mpr ⟨others, restOk, inner, collects, rfl⟩

theorem sourceMeaning_iff (scope : CteScope) : ∀ (source : Source) (clause : FromClause),
    sourceMeaning fold scope source = .ok clause ↔
      ∃ raw, readSource fold source = .ok raw ∧ substClause fold scope raw = clause
  | .table label name, clause => by
      simp only [sourceMeaning, readSource, substClause, Except.ok.injEq, exists_eq_left']
      cases lookup (cteKey fold name) scope <;> simp
  | .subquery _ query, clause => by
      simp [sourceMeaning, readSource, -bind_pure_comp, bind_eq_ok, pure_eq_ok, queryMeaning_iff scope query, substClause]
  | .join _ left right condition, clause => by
      simp [sourceMeaning, readSource, -bind_pure_comp, bind_eq_ok, pure_eq_ok, sourceMeaning_iff scope left,
        sourceMeaning_iff scope right, termMeaning_iff scope condition, substClause, and_assoc]
  | .unit, clause => by simp [sourceMeaning, readSource, substClause]

theorem keyMeaning_iff (scope : CteScope) : ∀ (key : Key) (e : OrderKey),
    keyMeaning fold scope key = .ok e ↔ ∃ raw, readKey fold key = .ok raw ∧ substKey fold scope raw = e
  | .column _, e | .position _, e => by simp [keyMeaning, readKey, substKey]
  | .expression term, e => by
      simp [keyMeaning, readKey, -bind_pure_comp, bind_eq_ok, pure_eq_ok, termMeaning_iff scope term, substKey]

theorem orderMeaning_iff (scope : CteScope) : ∀ (keys : List (Key × SortDir)) (es : List (OrderKey × SortDir)),
    orderMeaning fold scope keys = .ok es ↔ ∃ raw, readOrder fold keys = .ok raw ∧ substOrder fold scope raw = es
  | [], es => by simp [orderMeaning, readOrder, substOrder]
  | (key, _) :: keys, es => by
      simp [orderMeaning, readOrder, -bind_pure_comp, bind_eq_ok, pure_eq_ok, keyMeaning_iff scope key, orderMeaning_iff scope keys,
        substOrder]

end

/-- The reader, which expands the innermost WITH first and expands what is around it again
later, makes the statement that looking every name up in its scope makes. -/
theorem readQuery_iff_meaning (query : Query) (statement : Statement) :
    readQuery fold query = .ok statement ↔ queryMeaning fold [] query = .ok statement := by
  rw [queryMeaning_iff]
  constructor
  · exact fun reads => ⟨statement, reads, substStatement_nil fold statement⟩
  · rintro ⟨raw, reads, same⟩
    rw [← same, substStatement_nil]
    exact reads

end Meaning

end ChuSQL.Engine.Written
