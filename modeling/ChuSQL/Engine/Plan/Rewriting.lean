import ChuSQL.Engine.Plan.Pushing

/-! Every rewriting of a plan keeps its answer, its columns, and what makes the next
rewriting sound. -/

set_option autoImplicit false

namespace ChuSQL.Engine

open Library Model

/-! ### Conditions that name columns of their input -/

/-- A condition without subqueries that names columns, each found once in the input. -/
structure Reads (columns : List String) (condition : Expr) : Prop where
  once : ∀ name ∈ colsInExpr condition, columns.count name = 1
  named : hasBoundColumns condition = false
  plain : hasSubquery condition = false

namespace Reads

variable {columns : List String} {left right condition : Expr}

theorem and_iff : Reads columns (.binary .and left right) ↔ Reads columns left ∧ Reads columns right := by
  constructor
  · rintro ⟨once, named, plain⟩
    rw [colsInExpr, List.forall_mem_append] at once
    rw [hasBoundColumns, Bool.or_eq_false_iff] at named
    rw [hasSubquery, Bool.or_eq_false_iff] at plain
    exact ⟨⟨once.1, named.1, plain.1⟩, ⟨once.2, named.2, plain.2⟩⟩
  · rintro ⟨first, second⟩
    refine ⟨?_, ?_, ?_⟩
    · rw [colsInExpr, List.forall_mem_append]
      exact ⟨first.once, second.once⟩
    · rw [hasBoundColumns, first.named, second.named]
      rfl
    · rw [hasSubquery, first.plain, second.plain]
      rfl

theorem split (reads : Reads columns condition) : ∀ part ∈ splitConj condition, Reads columns part := by
  fun_induction splitConj condition with
  | case1 left right ihLeft ihRight =>
      obtain ⟨first, second⟩ := and_iff.mp reads
      exact List.forall_mem_append.mpr ⟨ihLeft first, ihRight second⟩
  | case2 condition => exact List.forall_mem_singleton.mpr reads

theorem combine {parts : List Expr} (each : ∀ part ∈ parts, Reads columns part) (reads : Reads columns condition) :
    Reads columns (parts.foldl (.binary .and) condition) := by
  induction parts generalizing condition with
  | nil => exact reads
  | cons part parts ih =>
      obtain ⟨first, later⟩ := List.forall_mem_cons.mp each
      exact ih later (and_iff.mpr ⟨reads, first⟩)

/-- A condition of one side's columns names them once there. -/
theorem narrow {others : List String} (reads : Reads (columns ++ others) condition)
    (within : colsInExpr condition ⊆ columns) : Reads columns condition where
  once name member := by
    have one := reads.once name member
    have some := List.count_pos_iff.mpr (within member)
    rw [List.count_append] at one
    omega
  named := reads.named
  plain := reads.plain

/-- The columns of one side are not on the other. -/
theorem apart {others : List String} (reads : Reads (columns ++ others) condition)
    (within : colsInExpr condition ⊆ columns) : ∀ name ∈ colsInExpr condition, name ∉ others := by
  intro name member
  have one := reads.once name member
  have some := List.count_pos_iff.mpr (within member)
  rw [List.count_append] at one
  exact List.count_eq_zero.mp (by omega)

theorem swap {others : List String} (reads : Reads (columns ++ others) condition) :
    Reads (others ++ columns) condition where
  once name member := by
    rw [List.count_append, Nat.add_comm, ← List.count_append]
    exact reads.once name member
  named := reads.named
  plain := reads.plain

end Reads

theorem isSubsetOf_subset {need columns : List String} (subset : isSubsetOf need columns = true)
    (listed : columns ≠ ["*"]) : need ⊆ columns := by
  rw [isSubsetOf, decide_eq_false listed, Bool.false_or, List.all_eq_true] at subset
  exact fun name member => List.contains_iff_mem.mp (subset name member)

/-- The expressions of a plan name columns of their inputs, a scan lists columns of its table
whose names are not taken for qualified ones, and no column stands for all. -/
def Resolved (db : Database) : RelOp → Prop
  | .filter condition source => Reads (relOpCols db source) condition ∧ Resolved db source
  | .join _ left right on =>
      relOpCols db left ≠ ["*"] ∧ relOpCols db right ≠ ["*"] ∧ Resolved db left ∧ Resolved db right ∧
        colsInExpr on ⊆ relOpCols db left ++ relOpCols db right
  | .semiJoin _ leftKey rightKey left right _ =>
      Resolved db left ∧ Resolved db right ∧ colsInExpr leftKey ⊆ relOpCols db left ∧
        colsInExpr rightKey ⊆ relOpCols db right
  | .compute items source => Resolved db source ∧ ∀ item ∈ items, colsInExpr item.2 ⊆ relOpCols db source
  | .project _ source => Resolved db source
  | .aggregate keys aggregates source =>
      Resolved db source ∧ keys ⊆ relOpCols db source ∧ ∀ item ∈ aggregates, colsInExpr item.2 ⊆ relOpCols db source
  | .boundAggregate _ _ source => Resolved db source
  | .distinct source => Resolved db source
  | .sort spec source => Resolved db source ∧ spec.map (·.1) ⊆ relOpCols db source
  | .boundSort _ source => Resolved db source
  | .limit _ source => Resolved db source
  | .derived _ source => Resolved db source ∧ "*" ∉ relOpCols db source
  | .scan label table columns =>
      ∀ name ∈ scanCols db label table columns, name ∈ scanCols db label table none ∧
        unqualify (some (deriveQualifier label table)) (unqualify label name) = unqualify label name
  | .lookup _ _ _ _ => True
  | .range _ _ _ _ _ => True
  | .unit => True

theorem relOpCols_applyFilters (db : Database) (conditions : List Expr) (source : RelOp) :
    relOpCols db (applyFilters conditions source) = relOpCols db source := by
  induction conditions generalizing source with
  | nil => rfl
  | cons condition conditions ih => exact ih (.filter condition source)

theorem relOpCols_filterAll (db : Database) (conditions : List Expr) (source : RelOp) :
    relOpCols db (filterAll conditions source) = relOpCols db source := by
  cases conditions <;> rfl

theorem all_partition {Item : Type} (items : List Item) (left holds : Item → Bool) :
    ((items.partition left).1.all holds && (items.partition left).2.all holds) = items.all holds := by
  rw [List.partition_eq_filter_filter]
  induction items with
  | nil => rfl
  | cons item items ih => cases kept : left item <;> simp [kept, ← ih, Bool.and_left_comm, Bool.and_assoc]

theorem mem_partitionPred {columns : List String} {conditions : List Expr} {condition : Expr} :
    (condition ∈ (partitionPred columns conditions).1 ↔
      condition ∈ conditions ∧ isSubsetOf (colsInExpr condition) columns = true) ∧
    (condition ∈ (partitionPred columns conditions).2 → condition ∈ conditions) := by
  rw [partitionPred, List.partition_eq_filter_filter]
  exact ⟨List.mem_filter, List.mem_of_mem_filter⟩

/-- The conditions of a side name its columns only. -/
theorem partitionPred_reads {columns side : List String} {conditions : List Expr}
    (parts : ∀ part ∈ conditions, Reads columns part) (listed : side ≠ ["*"]) :
    ∀ part ∈ (partitionPred side conditions).1, Reads columns part ∧ colsInExpr part ⊆ side := by
  intro part member
  obtain ⟨inside, subset⟩ := mem_partitionPred.1.mp member
  exact ⟨parts part inside, isSubsetOf_subset subset listed⟩

/-- The conditions of a side and the others are all the conditions. -/
theorem all_partitionPred (columns : List String) (conditions : List Expr) (holds : Expr → Bool) :
    ((partitionPred columns conditions).1.all holds && (partitionPred columns conditions).2.all holds) =
      conditions.all holds := all_partition ..

/-! ### Sorting fewer rows -/

theorem sortRows_filter {spec : SortSpec} {rows : List Row} (keys : SortKeys spec rows) (keep : Row → Bool) :
    sortRows spec (rows.filter keep) = (sortRows spec rows).filter keep := by
  have decorated : (rows.filter keep).map (decorate spec) =
      (rows.map (decorate spec)).filter fun item => keep item.2 := by
    rw [List.filter_map]
    rfl
  rw [sortRows, sortRows]
  split
  · rfl
  · rw [decorated, sortBy_filter (compareRows_compares keys), List.filter_map]
    rfl

theorem SortKeys.mono {spec : SortSpec} {rows fewer : List Row} (keys : SortKeys spec rows) (within : fewer ⊆ rows) :
    SortKeys spec fewer where
  present entry member row inside := keys.present entry member row (within inside)
  compares entry member := (keys.compares entry member).mono fun _ found =>
    found.imp fun _ here => And.imp_left (fun inside => within inside) here

section Plans

variable [Host] [Printer] (outer : Row) (storage : Storage) (db : Database)

structure WellFormed (op : RelOp) : Prop where
  shaped : Shaped outer storage db op
  resolved : Resolved db op

/-- A well-formed plan with the answer and the columns of another. -/
structure Replaces (other op : RelOp) : Prop where
  answer : answer outer storage db other = answer outer storage db op
  columns : relOpCols db other = relOpCols db op
  formed : WellFormed outer storage db other

end Plans

section Rewrite

variable [Host] [Printer] {outer : Row} {storage : Storage} {db : Database}

theorem Replaces.refl {op : RelOp} (formed : WellFormed outer storage db op) : Replaces outer storage db op op :=
  ⟨rfl, rfl, formed⟩

theorem Replaces.trans {first second third : RelOp} (before : Replaces outer storage db first second)
    (after : Replaces outer storage db second third) : Replaces outer storage db first third :=
  ⟨before.answer.trans after.answer, before.columns.trans after.columns, before.formed⟩

/-! ### Several filters -/

theorem answer_applyFilters (conditions : List Expr) (source : RelOp) :
    answer outer storage db (applyFilters conditions source) =
      (answer outer storage db source).filter fun row => conditions.all (holds outer · row) := by
  induction conditions generalizing source with
  | nil => exact (List.filter_true _).symm
  | cons condition conditions ih =>
      rw [applyFilters, List.foldl_cons]
      refine (ih (.filter condition source)).trans ?_
      rw [answer, List.filter_filter]
      refine List.filter_congr fun row _ => ?_
      rw [List.all_cons, Bool.and_comm]

theorem applyFilters_formed {conditions : List Expr} {source : RelOp} (formed : WellFormed outer storage db source)
    (each : ∀ condition ∈ conditions, Reads (relOpCols db source) condition) :
    WellFormed outer storage db (applyFilters conditions source) := by
  induction conditions generalizing source with
  | nil => exact formed
  | cons condition conditions ih =>
      obtain ⟨first, later⟩ := List.forall_mem_cons.mp each
      exact ih ⟨formed.shaped, first, formed.resolved⟩ later

theorem answer_filterAll (conditions : List Expr) (source : RelOp) :
    answer outer storage db (filterAll conditions source) =
      (answer outer storage db source).filter fun row => conditions.all (holds outer · row) := by
  cases conditions with
  | nil => exact (List.filter_true _).symm
  | cons condition conditions =>
      rw [filterAll, combineConj, answer]
      refine List.filter_congr fun row _ => ?_
      rw [foldl_and_holds, List.all_cons]

theorem filterAll_formed {conditions : List Expr} {source : RelOp} (formed : WellFormed outer storage db source)
    (each : ∀ condition ∈ conditions, Reads (relOpCols db source) condition) :
    WellFormed outer storage db (filterAll conditions source) := by
  cases conditions with
  | nil => exact formed
  | cons condition conditions =>
      obtain ⟨first, later⟩ := List.forall_mem_cons.mp each
      exact ⟨formed.shaped, first.combine later, formed.resolved⟩

/-! ### Joins -/

theorem all_congr {conditions : List Expr} {row other : Row}
    (same : ∀ condition ∈ conditions, holds outer condition row = holds outer condition other) :
    conditions.all (holds outer · row) = conditions.all (holds outer · other) := by
  rw [Bool.eq_iff_iff, List.all_eq_true, List.all_eq_true]
  exact forall₂_congr fun condition member => by rw [same condition member]

/-- The conditions of the left side hold of a joined row where they hold of the left row. -/
theorem holds_left {conditions : List Expr} {columns lcols : List String} {l : Row}
    (each : ∀ condition ∈ conditions, Reads columns condition ∧ colsInExpr condition ⊆ lcols)
    (left : l.map (·.1) = lcols) (rest : Row) :
    conditions.all (holds outer · (l ++ rest)) = conditions.all (holds outer · l) := by
  refine all_congr fun condition member => ?_
  obtain ⟨reads, within⟩ := each condition member
  exact holds_congr reads.named fun name inside => lookup_left (left ▸ within inside) rest outer

theorem holds_right {conditions : List Expr} {lcols rcols : List String} {l : Row}
    (each : ∀ condition ∈ conditions, Reads (lcols ++ rcols) condition ∧ colsInExpr condition ⊆ rcols)
    (left : l.map (·.1) = lcols) (r : Row) :
    conditions.all (holds outer · (l ++ r)) = conditions.all (holds outer · r) := by
  refine all_congr fun condition member => ?_
  obtain ⟨reads, within⟩ := each condition member
  have absent := reads.swap.apart within
  exact holds_congr reads.named fun name inside => lookup_right (left ▸ absent name inside) outer

theorem pushJoin_replaces {condition on : Expr} {left right : RelOp}
    (formed : WellFormed outer storage db (.filter condition (.join .inner left right on))) :
    Replaces outer storage db (pushJoin db condition left right on) (.filter condition (.join .inner left right on)) := by
  obtain ⟨⟨lshaped, rshaped, plain⟩, reads, lnamed, rnamed, lresolved, rresolved, within⟩ := formed
  have parts := reads.split
  have lefts : ∀ part ∈ (partitionPred (relOpCols db left) (splitConj condition)).1,
      Reads (relOpCols db left ++ relOpCols db right) part ∧ colsInExpr part ⊆ relOpCols db left :=
    partitionPred_reads parts lnamed
  have rights : ∀ part ∈ (partitionPred (relOpCols db right)
        (partitionPred (relOpCols db left) (splitConj condition)).2).1,
      Reads (relOpCols db left ++ relOpCols db right) part ∧ colsInExpr part ⊆ relOpCols db right :=
    partitionPred_reads (fun part member => parts part (mem_partitionPred.2 member)) rnamed
  refine ⟨?_, ?_, ?_⟩
  · have laid := answer_columns lshaped
    rw [pushJoin, answer_filterAll]
    simp only [answer, answer_applyFilters, relOpCols_applyFilters]
    rw [← filter_inner (fun row =>
        (partitionPred (relOpCols db left) (splitConj condition)).1.all (holds outer · row) &&
          (partitionPred (relOpCols db right) (partitionPred (relOpCols db left) (splitConj condition)).2).1.all
            (holds outer · row)), List.filter_filter]
    · refine List.filter_congr fun row _ => ?_
      rw [← splitConj_holds condition row, ← all_partitionPred (relOpCols db left) (splitConj condition),
        ← all_partitionPred (relOpCols db right) (partitionPred (relOpCols db left) (splitConj condition)).2,
        Bool.and_comm, Bool.and_assoc]
    · intro l inside r _
      rw [holds_left lefts (laid l inside) r, holds_right rights (laid l inside) r]
  · rw [pushJoin, relOpCols_filterAll]
    show relOpCols db (applyFilters _ left) ++ relOpCols db (applyFilters _ right) = _
    rw [relOpCols_applyFilters, relOpCols_applyFilters]
    rfl
  · have sides : ∀ part ∈ (partitionPred (relOpCols db right)
        (partitionPred (relOpCols db left) (splitConj condition)).2).2,
        Reads (relOpCols db left ++ relOpCols db right) part := fun part member =>
      parts part (mem_partitionPred.2 (mem_partitionPred.2 member))
    have lformed := applyFilters_formed ⟨lshaped, lresolved⟩ fun part member =>
      (lefts part member).1.narrow (lefts part member).2
    have rformed := applyFilters_formed ⟨rshaped, rresolved⟩ fun part member =>
      (rights part member).1.swap.narrow (rights part member).2
    refine filterAll_formed
      ⟨⟨lformed.shaped, rformed.shaped, plain⟩, ?_, ?_, lformed.resolved, rformed.resolved, ?_⟩ ?_
    · rwa [relOpCols_applyFilters]
    · rwa [relOpCols_applyFilters]
    · rwa [relOpCols_applyFilters, relOpCols_applyFilters]
    · rwa [relOpCols, relOpCols_applyFilters, relOpCols_applyFilters]

theorem pushLeftJoin_replaces {condition on : Expr} {left right : RelOp}
    (formed : WellFormed outer storage db (.filter condition (.join .left left right on))) :
    Replaces outer storage db (pushLeftJoin db condition left right on)
      (.filter condition (.join .left left right on)) := by
  obtain ⟨⟨lshaped, rshaped, plain⟩, reads, lnamed, rnamed, lresolved, rresolved, within⟩ := formed
  have parts := reads.split
  have lefts : ∀ part ∈ (partitionPred (relOpCols db left) (splitConj condition)).1,
      Reads (relOpCols db left ++ relOpCols db right) part ∧ colsInExpr part ⊆ relOpCols db left :=
    partitionPred_reads parts lnamed
  refine ⟨?_, ?_, ?_⟩
  · have laid := answer_columns lshaped
    rw [pushLeftJoin, answer_filterAll]
    simp only [answer, answer_applyFilters, relOpCols_applyFilters]
    rw [← filter_left (fun row => (partitionPred (relOpCols db left) (splitConj condition)).1.all (holds outer · row)),
      List.filter_filter]
    · refine List.filter_congr fun row _ => ?_
      rw [← splitConj_holds condition row, ← all_partitionPred (relOpCols db left) (splitConj condition), Bool.and_comm]
    · intro l inside r
      rw [holds_left lefts (laid l inside) r]
  · rw [pushLeftJoin, relOpCols_filterAll]
    show relOpCols db (applyFilters _ left) ++ relOpCols db right = _
    rw [relOpCols_applyFilters]
    rfl
  · have others : ∀ part ∈ (partitionPred (relOpCols db left) (splitConj condition)).2,
        Reads (relOpCols db left ++ relOpCols db right) part := fun part member =>
      parts part (mem_partitionPred.2 member)
    have lformed := applyFilters_formed ⟨lshaped, lresolved⟩ fun part member =>
      (lefts part member).1.narrow (lefts part member).2
    refine filterAll_formed ⟨⟨lformed.shaped, rshaped, plain⟩, ?_, rnamed, lformed.resolved, rresolved, ?_⟩ ?_
    · rwa [relOpCols_applyFilters]
    · rwa [relOpCols_applyFilters]
    · rwa [relOpCols, relOpCols_applyFilters]

/-! ### Filters and sorting -/

theorem pushOne_replaces {condition : Expr} {source : RelOp}
    (formed : WellFormed outer storage db (.filter condition source)) :
    Replaces outer storage db (pushOne (.filter condition source)) (.filter condition source) := by
  obtain ⟨shaped, reads, resolved⟩ := formed
  cases source
  case filter inner source =>
    rw [pushOne]
    split
    · exact Replaces.refl ⟨shaped, reads, resolved⟩
    · refine ⟨?_, rfl, shaped, Reads.and_iff.mpr ⟨reads, resolved.1⟩, resolved.2⟩
      rw [answer, answer, answer, List.filter_filter]
      exact List.filter_congr fun row _ => holds_and condition inner row
  case sort spec source =>
    rw [pushOne]
    split
    · exact Replaces.refl ⟨shaped, reads, resolved⟩
    · have fewer : SortKeys spec (answer outer storage db (.filter condition source)) :=
        shaped.2.mono fun row member => List.mem_of_mem_filter member
      refine ⟨?_, rfl, ⟨shaped.1, fewer⟩, ⟨reads, resolved.1⟩, resolved.2⟩
      rw [answer, answer, answer, answer, sortRows_filter shaped.2]
  all_goals exact Replaces.refl ⟨shaped, reads, resolved⟩

end Rewrite

end ChuSQL.Engine
