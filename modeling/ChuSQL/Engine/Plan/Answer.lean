import ChuSQL.Engine.HashJoin
import ChuSQL.Engine.TopK
import ChuSQL.Engine.Plan.Basic

/-! The answer of a plan: the rows it stands for, whether or not some condition fails on the
way. A run that succeeds gives the answer. -/

set_option autoImplicit false

namespace ChuSQL.Engine

open Library Model

/-! ### Expressions without subqueries -/

theorem all_found (expressions : List Expr) :
    (expressions.map .ok).mapM id = (.ok expressions : Except String (List Expr)) := by
  rw [mapM_eq_ok, List.forall₂_map_left_iff]
  exact List.forall₂_same.mpr fun _ _ => rfl

section Plain

variable {m : Type → Type} [Monad m] [LawfulMonad m] (run : Subquery → Row → m (Except String (List Row)))

mutual

theorem substSubqueries_plain : ∀ (expression : Expr) (env : Row), hasSubquery expression = false →
    substSubqueries run expression env = pure (.ok expression)
  | .construct type arguments, env, plain => by
      rw [substSubqueries, substAll_plain arguments env plain, pure_bind, all_found]
      rfl
  | .boundConstruct type arguments, env, plain => by
      rw [substSubqueries, substAll_plain arguments env plain, pure_bind, all_found]
      rfl
  | .functionCall name arguments, env, plain => by
      rw [substSubqueries, substAll_plain arguments env plain, pure_bind, all_found]
      rfl
  | .boundFunction id result arguments, env, plain => by
      rw [substSubqueries, substAll_plain arguments env plain, pure_bind, all_found]
      rfl
  | .inList left items negated, env, plain => by
      rw [hasSubquery, Bool.or_eq_false_iff] at plain
      rw [substSubqueries, substSubqueries_plain left env plain.1, substAll_plain items env plain.2, pure_bind,
        pure_bind, all_found]
      rfl
  | .binary op left right, env, plain => by
      rw [hasSubquery, Bool.or_eq_false_iff] at plain
      simp [substSubqueries, substSubqueries_plain left env plain.1, substSubqueries_plain right env plain.2]
      rfl
  | .neg operand, env, plain => by
      simp [substSubqueries, substSubqueries_plain operand env plain]
      rfl
  | .isNull operand, env, plain => by
      simp [substSubqueries, substSubqueries_plain operand env plain]
      rfl
  | .isNotNull operand, env, plain => by
      simp [substSubqueries, substSubqueries_plain operand env plain]
      rfl
  | .aggregate builtin argument, env, plain => by
      simp [substSubqueries, substSubqueries_plain argument env plain]
      rfl
  | .scalarSub _, _, plain => by cases plain
  | .inSub _ _ _, _, plain => by cases plain
  | .existsSub _ _, _, plain => by cases plain
  | .quantCmp _ _ _ _, _, plain => by cases plain
  | .col _, _, _ => by simp [substSubqueries]
  | .columnRef _ _, _, _ => by simp [substSubqueries]
  | .outerColumnRef _ _, _, _ => by simp [substSubqueries]
  | .columnSlot _ _, _, _ => by simp [substSubqueries]
  | .outerColumnSlot _ _ _, _, _ => by simp [substSubqueries]
  | .enumLiteral _ _, _, _ => by simp [substSubqueries]
  | .typedLiteral _ _, _, _ => by simp [substSubqueries]
  | .runtimeLiteral _ _, _, _ => by simp [substSubqueries]
  | .litNull, _, _ => by simp [substSubqueries]
  | .litInt _, _, _ => by simp [substSubqueries]
  | .litFloat _, _, _ => by simp [substSubqueries]
  | .litStr _, _, _ => by simp [substSubqueries]
  | .litBool _, _, _ => by simp [substSubqueries]
  | .litDate _, _, _ => by simp [substSubqueries]
  | .litTimestamp _, _, _ => by simp [substSubqueries]
  | .litBlob _, _, _ => by simp [substSubqueries]
  | .countAll, _, _ => by simp [substSubqueries]

theorem substAll_plain : ∀ (expressions : List Expr) (env : Row), anySubquery expressions = false →
    substAll run expressions env = pure (expressions.map .ok)
  | [], _, _ => by simp [substAll]
  | expression :: expressions, env, plain => by
      rw [anySubquery, Bool.or_eq_false_iff] at plain
      simp [substAll, substSubqueries_plain expression env plain.1, substAll_plain expressions env plain.2]

end

end Plain

mutual

theorem subquerySlotsIn_plain : ∀ expression : Expr, hasSubquery expression = false →
    subquerySlotsIn expression = []
  | .construct _ arguments, plain => by rw [subquerySlotsIn, subquerySlotsInAll_plain arguments plain]
  | .boundConstruct _ arguments, plain => by rw [subquerySlotsIn, subquerySlotsInAll_plain arguments plain]
  | .functionCall _ arguments, plain => by rw [subquerySlotsIn, subquerySlotsInAll_plain arguments plain]
  | .boundFunction _ _ arguments, plain => by rw [subquerySlotsIn, subquerySlotsInAll_plain arguments plain]
  | .inList left items _, plain => by
      rw [hasSubquery, Bool.or_eq_false_iff] at plain
      rw [subquerySlotsIn, subquerySlotsIn_plain left plain.1, subquerySlotsInAll_plain items plain.2, List.append_nil]
  | .binary _ left right, plain => by
      rw [hasSubquery, Bool.or_eq_false_iff] at plain
      rw [subquerySlotsIn, subquerySlotsIn_plain left plain.1, subquerySlotsIn_plain right plain.2, List.append_nil]
  | .neg operand, plain => by rw [subquerySlotsIn, subquerySlotsIn_plain operand plain]
  | .isNull operand, plain => by rw [subquerySlotsIn, subquerySlotsIn_plain operand plain]
  | .isNotNull operand, plain => by rw [subquerySlotsIn, subquerySlotsIn_plain operand plain]
  | .aggregate _ argument, plain => by rw [subquerySlotsIn, subquerySlotsIn_plain argument plain]
  | .scalarSub _, plain => by cases plain
  | .inSub _ _ _, plain => by cases plain
  | .existsSub _ _, plain => by cases plain
  | .quantCmp _ _ _ _, plain => by cases plain
  | .col _, _ => by simp [subquerySlotsIn]
  | .columnRef _ _, _ => by simp [subquerySlotsIn]
  | .outerColumnRef _ _, _ => by simp [subquerySlotsIn]
  | .columnSlot _ _, _ => by simp [subquerySlotsIn]
  | .outerColumnSlot _ _ _, _ => by simp [subquerySlotsIn]
  | .enumLiteral _ _, _ => by simp [subquerySlotsIn]
  | .typedLiteral _ _, _ => by simp [subquerySlotsIn]
  | .runtimeLiteral _ _, _ => by simp [subquerySlotsIn]
  | .litNull, _ => by simp [subquerySlotsIn]
  | .litInt _, _ => by simp [subquerySlotsIn]
  | .litFloat _, _ => by simp [subquerySlotsIn]
  | .litStr _, _ => by simp [subquerySlotsIn]
  | .litBool _, _ => by simp [subquerySlotsIn]
  | .litDate _, _ => by simp [subquerySlotsIn]
  | .litTimestamp _, _ => by simp [subquerySlotsIn]
  | .litBlob _, _ => by simp [subquerySlotsIn]
  | .countAll, _ => by simp [subquerySlotsIn]

theorem subquerySlotsInAll_plain : ∀ expressions : List Expr, anySubquery expressions = false →
    subquerySlotsInAll expressions = []
  | [], _ => by rw [subquerySlotsInAll]
  | expression :: expressions, plain => by
      rw [anySubquery, Bool.or_eq_false_iff] at plain
      rw [subquerySlotsInAll, subquerySlotsIn_plain expression plain.1, subquerySlotsInAll_plain expressions plain.2,
        List.append_nil]

end

/-! ### The answer -/

/-- The rows of a run, none where it fails. -/
def rowsOf (result : Except String (List Row)) : List Row :=
  match result with
  | .ok rows => rows
  | .error _ => []

section Answer

variable [Host] [Printer] (outer : Row)

/-- Whether a condition is evaluated, and is true. -/
def holds (condition : Expr) (row : Row) : Bool :=
  match evalCondForRow condition (row ++ outer) with
  | .ok kept => kept
  | .error _ => false

/-- The value of an expression, NULL where it fails. -/
def valueOf (expression : Expr) (row : Row) : Value :=
  match evalExpr expression (row ++ outer) with
  | .ok value => value
  | .error _ => .null

def computedRow (items : List (String × Expr)) (row : Row) : Row :=
  items.map fun item => (item.1, valueOf outer item.2 row)

/-- Whether a join pairs two rows: by their keys, or by its condition. -/
def joinMatch (lcols rcols : List String) (on : Expr) (l r : Row) : Bool :=
  match equiKeys lcols rcols on with
  | some keys => hashMatched keys l r
  | none => holds outer on (l ++ r)

variable (storage : Storage) (db : Database)

def answer : RelOp → List Row
  | .unit => [[]]
  | .compute items source => (answer source).map (computedRow outer items)
  | .aggregate keys aggregates source =>
      rowsOf (evalAggregate outer (keys.map fun name => (name, .col name)) aggregates (answer source))
  | .boundAggregate keys aggregates source => rowsOf (evalAggregate outer keys aggregates (answer source))
  | .scan label table columns => rowsOf (scanRows storage db label table columns)
  | .lookup label table column key =>
      (rowsOf (scanRows storage db label table none)).filter (holds outer (lookupCondition label column key))
  | .range label table column low high =>
      (rowsOf (scanRows storage db label table none)).filter (holds outer (rangeCondition label column low high))
  | .filter condition source => (answer source).filter (holds outer condition)
  | .project columns source => (answer source).map (project columns)
  | .distinct source => distinctRows (answer source)
  | .sort spec source => sortRows spec (answer source)
  | .boundSort spec source => rowsOf (sortBoundRows spec outer (answer source))
  | .limit count source => (answer source).take count.toNat
  | .derived label source => prefixRows label (answer source)
  | .semiJoin kind leftKey rightKey left right _ =>
      rowsOf (semiRows kind leftKey rightKey outer (answer left) (answer right))
  | .join kind left right on =>
      nestedLoop kind (relOpCols db right) (joinMatch outer (relOpCols db left) (relOpCols db right) on) (answer left)
        (answer right)

/-- What an index answers is what a scan with its condition gives, in its order. -/
structure Indexed : Prop where
  lookups : ∀ label table columns column key rows, qualify label column ∈ scanCols db label table columns →
    storage.lookupByColumn table column key = .ok (.indexRows rows) →
    ∃ scanned, scanRows storage db label table columns = .ok scanned ∧
      orderedRows (scanCols db label table columns) (prefixRows label rows) =
        .ok (scanned.filter (holds outer (lookupCondition label column key)))
  ranges : ∀ label table column low high rows, qualify label column ∈ scanCols db label table none →
    storage.scanRange table column low high = .ok (some rows) →
    ∃ scanned, scanRows storage db label table none = .ok scanned ∧
      orderedRows (scanCols db label table none) (prefixRows label rows) =
        .ok (scanned.filter (holds outer (rangeCondition label column low high)))

/-- A plan whose parts fit together: a projection lists columns that there are, an index
is of a column, the condition of a join holds no subquery, and the rows that are sorted have
the sort columns with values that are ordered. -/
def Shaped : RelOp → Prop
  | .unit => True
  | .scan _ _ _ => True
  | .lookup label table column _ => qualify label column ∈ scanCols db label table none
  | .range label table column _ _ => qualify label column ∈ scanCols db label table none
  | .project columns source => Shaped source ∧ columns ⊆ relOpCols db source ∧ columns ≠ ["*"]
  | .sort spec source => Shaped source ∧ SortKeys spec (answer outer storage db source)
  | .join _ left right on => Shaped left ∧ Shaped right ∧ hasSubquery on = false
  | .semiJoin _ _ _ left right _ => Shaped left ∧ Shaped right
  | .filter _ source => Shaped source
  | .compute _ source => Shaped source
  | .aggregate _ _ source => Shaped source
  | .boundAggregate _ _ source => Shaped source
  | .distinct source => Shaped source
  | .boundSort _ source => Shaped source
  | .limit _ source => Shaped source
  | .derived _ source => Shaped source

end Answer

/-! ### The columns of the rows -/

/-- All rows have some columns, in their order. -/
def HaveColumns (columns : List String) (rows : List Row) : Prop := ∀ row ∈ rows, row.map (·.1) = columns

theorem HaveColumns.mono {columns : List String} {rows fewer : List Row} (laid : HaveColumns columns rows)
    (within : fewer ⊆ rows) : HaveColumns columns fewer := fun row member => laid row (within member)

theorem HaveColumns.filter {columns : List String} {rows : List Row} (laid : HaveColumns columns rows)
    (keep : Row → Bool) : HaveColumns columns (rows.filter keep) :=
  laid.mono fun _ member => List.mem_of_mem_filter member

theorem orderRow_names {columns : List String} {row ordered : Row} (put : orderRow columns row = .ok ordered) :
    ordered.map (·.1) = columns := by
  have each := mapM_eq_ok.mp put
  clear put
  induction each with
  | nil => rfl
  | cons first _ ih =>
      rw [List.map_cons, ih]
      split at first
      · cases first
        rfl
      · cases first

theorem orderedRows_columns {columns : List String} {rows ordered : List Row}
    (put : orderedRows columns rows = .ok ordered) : HaveColumns columns ordered := by
  intro row member
  obtain ⟨_, _, put⟩ := exists_of_mem_right (mapM_eq_ok.mp put) member
  exact orderRow_names put

theorem scanRows_columns {storage : Storage} {db : Database} {label : Option String} {table : String}
    {columns : Option (List String)} {rows : List Row} (scanned : scanRows storage db label table columns = .ok rows) :
    HaveColumns (scanCols db label table columns) rows := by
  obtain ⟨_, _, put⟩ := bind_eq_ok.mp scanned
  exact orderedRows_columns put

theorem prefixRows_columns {label : Option String} {columns : List String} {rows : List Row}
    (laid : HaveColumns columns rows) : HaveColumns (columns.map (qualify label)) (prefixRows label rows) := by
  intro row member
  obtain ⟨source, inside, rfl⟩ := List.mem_map.mp member
  rw [← laid source inside, List.map_map, List.map_map]
  rfl

theorem project_columns {columns : List String} {row : Row} (within : columns ⊆ row.map (·.1))
    (listed : columns ≠ ["*"]) : (project columns row).map (·.1) = columns := by
  rw [project, if_neg listed]
  clear listed
  induction columns with
  | nil => rfl
  | cons name columns ih =>
      obtain ⟨inside, later⟩ := List.cons_subset.mp within
      rw [List.filterMap_cons, (lookup_of_mem inside []).1]
      exact congrArg (name :: ·) (ih later)

theorem distinctLoop_subset (seen : List (List Value)) (rows : List Row) : distinctLoop seen rows ⊆ rows := by
  induction rows generalizing seen with
  | nil => exact List.nil_subset _
  | cons row rows ih =>
      simp only [distinctLoop]
      split
      · exact List.subset_cons_of_subset row (ih seen)
      · exact List.cons_subset_cons row (ih _)

theorem sortRows_subset (spec : SortSpec) (rows : List Row) : sortRows spec rows ⊆ rows := by
  rw [sortRows]
  split
  · exact List.Subset.refl rows
  · intro row member
    obtain ⟨item, inside, rfl⟩ := List.mem_map.mp member
    obtain ⟨row, found, rfl⟩ := List.mem_map.mp (mem_sortBy.mp inside)
    exact found

theorem filterM_subset {Item : Type} {keep : Item → Except String Bool} {items kept : List Item}
    (ran : filterM keep items = .ok kept) : kept ⊆ items := by
  induction items generalizing kept with
  | nil =>
      cases ran
      exact List.nil_subset _
  | cons item items ih =>
      obtain ⟨flag, _, later⟩ := bind_eq_ok.mp ran
      obtain ⟨others, ran, same⟩ := bind_eq_ok.mp later
      have within := ih ran
      cases same
      cases flag with
      | true => exact List.cons_subset_cons item within
      | false => exact List.subset_cons_of_subset item within

theorem nestedLoop_columns {kind : JoinKind} {matched : Row → Row → Bool} {lcols rcols : List String}
    {lrows rrows : List Row} (lefts : HaveColumns lcols lrows) (rights : HaveColumns rcols rrows) :
    HaveColumns (lcols ++ rcols) (nestedLoop kind rcols matched lrows rrows) := by
  intro row member
  obtain ⟨l, inside, member⟩ := List.mem_flatMap.mp member
  rw [joinedRows] at member
  split at member
  · cases kind with
    | inner => cases member
    | left =>
        cases List.mem_singleton.mp member
        rw [List.map_append, lefts l inside, nullRow, List.map_map]
        exact congrArg (lcols ++ ·) (List.map_id rcols)
  · obtain ⟨r, found, rfl⟩ := List.mem_map.mp member
    rw [List.map_append, lefts l inside, rights r (List.mem_of_mem_filter found)]

theorem rowsOf_columns {columns : List String} {result : Except String (List Row)}
    (laid : ∀ rows, result = .ok rows → HaveColumns columns rows) : HaveColumns columns (rowsOf result) := by
  cases result with
  | error message => exact fun row member => by cases member
  | ok rows => exact laid rows rfl

section Columns

variable [Host] [Printer] {outer : Row} {storage : Storage} {db : Database}

theorem groupRowsFrom_lengths {keys : List Expr} {rows : List Row} {groups : List (List Value × List Row)}
    {order : List (List Value)} {found : List (List Value × List Row)}
    (grouped : groupRowsFrom outer keys groups order rows = .ok found)
    (before : ∀ key ∈ order, key.length = keys.length) : ∀ group ∈ found, group.1.length = keys.length := by
  induction rows generalizing groups order with
  | nil =>
      cases grouped
      intro group member
      obtain ⟨key, inside, rfl⟩ := List.mem_map.mp member
      exact before key (List.mem_reverse.mp inside)
  | cons row rows ih =>
      obtain ⟨key, evaluated, later⟩ := bind_eq_ok.mp grouped
      refine ih later ?_
      have length := (mapM_eq_ok.mp evaluated).length_eq
      split
      · exact before
      · exact List.forall_mem_cons.mpr (And.intro length.symm before)

theorem evalAggregate_columns {keys aggregates : List (String × Expr)} {rows groups : List Row}
    (grouped : evalAggregate outer keys aggregates rows = .ok groups) :
    HaveColumns (keys.map (·.1) ++ aggregates.map (·.1)) groups := by
  obtain ⟨found, grouped, each⟩ := bind_eq_ok.mp grouped
  have lengths := groupRowsFrom_lengths grouped (fun key member => by cases member)
  intro row member
  obtain ⟨group, inside, computed⟩ := exists_of_mem_right (mapM_eq_ok.mp each) member
  have width : group.1.length = (keys.map (·.1)).length := by
    split at inside
    · rename_i none
      cases List.mem_singleton.mp inside
      rw [Bool.and_eq_true, List.isEmpty_iff] at none
      rw [none.1]
      rfl
    · rw [List.length_map, lengths group inside, List.length_map]
  obtain ⟨values, evaluated, same⟩ := bind_eq_ok.mp computed
  cases same
  have length := (mapM_eq_ok.mp evaluated).length_eq
  rw [List.map_append, List.map_fst_zip width.ge, List.map_fst_zip (by rw [List.length_map, length])]

theorem sortBoundRows_subset {spec : List (Expr × SortDir)} {rows sorted : List Row}
    (ran : sortBoundRows spec outer rows = .ok sorted) : sorted ⊆ rows := by
  rw [sortBoundRows] at ran
  split at ran
  · cases ran
    exact List.Subset.refl rows
  · obtain ⟨decorated, each, same⟩ := bind_eq_ok.mp ran
    cases same
    intro row member
    obtain ⟨item, inside, rfl⟩ := List.mem_map.mp member
    obtain ⟨row, found, computed⟩ := exists_of_mem_right (mapM_eq_ok.mp each) (mem_sortBy.mp inside)
    obtain ⟨keys, _, same⟩ := bind_eq_ok.mp computed
    cases same
    exact found

/-- The rows of an answer have the columns of the plan. -/
theorem answer_columns {op : RelOp} (shaped : Shaped outer storage db op) :
    HaveColumns (relOpCols db op) (answer outer storage db op) := by
  induction op with
  | unit =>
      intro row member
      cases List.mem_singleton.mp member
      rfl
  | compute items source ih =>
      intro row member
      obtain ⟨_, _, rfl⟩ := List.mem_map.mp member
      rw [computedRow, List.map_map]
      rfl
  | aggregate keys aggregates source ih =>
      refine rowsOf_columns fun rows grouped => ?_
      have laid := evalAggregate_columns grouped
      rw [List.map_map] at laid
      rwa [relOpCols, ← List.map_id keys]
  | boundAggregate keys aggregates source ih => exact rowsOf_columns fun rows => evalAggregate_columns
  | scan label table columns => exact rowsOf_columns fun rows => scanRows_columns
  | lookup label table column key =>
      exact (rowsOf_columns fun rows => scanRows_columns).filter _
  | range label table column low high =>
      exact (rowsOf_columns fun rows => scanRows_columns).filter _
  | filter condition source ih => exact (ih shaped).filter _
  | project columns source ih =>
      obtain ⟨inner, within, listed⟩ := shaped
      intro row member
      obtain ⟨before, inside, rfl⟩ := List.mem_map.mp member
      exact project_columns (ih inner before inside ▸ within) listed
  | distinct source ih => exact (ih shaped).mono (distinctLoop_subset [] _)
  | sort spec source ih => exact (ih shaped.1).mono (sortRows_subset spec _)
  | boundSort spec source ih =>
      exact rowsOf_columns fun rows sorted => (ih shaped).mono (sortBoundRows_subset sorted)
  | limit count source ih => exact (ih shaped).mono (List.take_subset _ _)
  | derived label source ih => exact prefixRows_columns (ih shaped)
  | semiJoin kind leftKey rightKey left right query ihLeft ihRight =>
      refine rowsOf_columns fun rows ran => (ihLeft shaped.1).mono ?_
      obtain ⟨values, _, kept⟩ := bind_eq_ok.mp ran
      exact filterM_subset kept
  | join kind left right on ihLeft ihRight => exact nestedLoop_columns (ihLeft shaped.1) (ihRight shaped.2.1)

end Columns

end ChuSQL.Engine
