import ChuSQL.Library.Related
import ChuSQL.Engine.Plan.Passes

/-! Rows that agree on the columns that are read: what each operator makes of them. -/

set_option autoImplicit false

namespace ChuSQL.Engine

open Library Model

/-- Rows with the same values, or none, in some columns. -/
def Alike (need : List String) (row other : Row) : Prop := ∀ name ∈ need, lookup name row = lookup name other

abbrev AllAlike (need : List String) : List Row → List Row → Prop := List.Forall₂ (Alike need)

theorem Alike.mono {need fewer : List String} {row other : Row} (alike : Alike need row other) (within : fewer ⊆ need) :
    Alike fewer row other := fun name member => alike name (within member)

theorem AllAlike.mono {need fewer : List String} {rows others : List Row} (alike : AllAlike need rows others)
    (within : fewer ⊆ need) : AllAlike fewer rows others := List.Forall₂.imp (fun _ _ each => each.mono within) alike

theorem AllAlike.refl (need : List String) (rows : List Row) : AllAlike need rows rows :=
  List.forall₂_same.mpr fun _ _ _ _ => rfl

theorem lookup_append (name : String) (row rest : Row) :
    lookup name (row ++ rest) = (lookup name row).or (lookup name rest) := by
  induction row with
  | nil => rfl
  | cons entry row ih =>
      rw [List.cons_append, lookup, lookup]
      split
      · rfl
      · exact ih

theorem Alike.append {need : List String} {row other rest others : Row} (alike : Alike need row other)
    (also : Alike need rest others) : Alike need (row ++ rest) (other ++ others) := by
  intro name member
  rw [lookup_append, lookup_append, alike name member, also name member]

theorem Alike.outer {need : List String} {row other : Row} (alike : Alike need row other) (outer : Row) :
    Alike need (row ++ outer) (other ++ outer) := alike.append fun _ _ => rfl

theorem exists_alike {need : List String} {rows others : List Row} (alike : AllAlike need rows others) {row : Row}
    (member : row ∈ rows) : ∃ other ∈ others, Alike need row other := by
  induction alike with
  | nil => cases member
  | cons first _ ih =>
      rcases List.mem_cons.mp member with rfl | later
      · exact ⟨_, List.mem_cons_self, first⟩
      · exact (ih later).imp fun _ => And.imp_left (List.mem_cons_of_mem _)

/-! ### Projections, prefixes and NULLs -/

theorem lookup_listed (columns : List String) (name : String) (row : Row) :
    lookup name (columns.filterMap fun name => (lookup name row).map fun value => (name, value)) =
      if name ∈ columns then lookup name row else none := by
  induction columns with
  | nil => rfl
  | cons first columns ih =>
      rw [List.filterMap_cons]
      cases found : lookup first row with
      | none =>
          by_cases same : first = name
          · subst same
            simp [ih, found]
          · simp [ih, Ne.symm same]
      | some value =>
          by_cases same : first = name
          · subst same
            simp [lookup, found]
          · simp [lookup, ih, same, Ne.symm same]

theorem lookup_project {columns : List String} (listed : columns ≠ ["*"]) (name : String) (row : Row) :
    lookup name (project columns row) = if name ∈ columns then lookup name row else none := by
  rw [project, if_neg listed, lookup_listed]

theorem project_alike {columns : List String} (listed : columns ≠ ["*"]) {row other : Row}
    (alike : Alike columns row other) :
    project columns row = project columns other := by
  rw [project, project, if_neg listed, if_neg listed]
  refine List.filterMap_congr fun name member => ?_
  rw [alike name member]

theorem project_twice {columns : List String} (listed : columns ≠ ["*"]) (row : Row) :
    project columns (project columns row) = project columns row := by
  refine project_alike listed fun name member => ?_
  rw [lookup_project listed, if_pos member]

theorem lookup_prefixed (label : Option String) (column : String) (row : Row) :
    lookup (qualify label column) (row.map fun entry => (qualify label entry.1, entry.2)) = lookup column row := by
  induction row with
  | nil => rfl
  | cons entry row ih =>
      have same : qualify label entry.1 = qualify label column ↔ entry.1 = column := by
        constructor
        · intro equal
          rw [← unqualify_qualify label entry.1, equal, unqualify_qualify]
        · exact fun equal => congrArg (qualify label) equal
      rw [List.map_cons, lookup, lookup, ih]
      simp only [same]

theorem lookup_nullRow (name : String) (columns : List String) :
    lookup name (nullRow columns) = if name ∈ columns then some .null else none := by
  induction columns with
  | nil => rfl
  | cons first columns ih =>
      rw [nullRow, List.map_cons, lookup]
      by_cases same : first = name
      · rw [if_pos same, if_pos (List.mem_cons.mpr (.inl same.symm))]
      · rw [if_neg same]
        simpa [Ne.symm same, nullRow] using ih

theorem lookup_eq_none {name : String} {row : Row} (absent : name ∉ row.map (·.1)) : lookup name row = none := by
  have found := lookup_of_not_mem absent []
  rwa [List.append_nil] at found

/-! ### Sorting -/

theorem sortRows_alike {spec : SortSpec} {need : List String} {rows others : List Row}
    (alike : AllAlike (need ++ spec.map (·.1)) rows others) :
    AllAlike (need ++ spec.map (·.1)) (sortRows spec rows) (sortRows spec others) := by
  rw [sortRows, sortRows]
  split
  · exact alike
  · have decorated : List.Forall₂ (fun a x : Decorated => a.1 = x.1 ∧ Alike (need ++ spec.map (·.1)) a.2 x.2)
        (rows.map (decorate spec)) (others.map (decorate spec)) := by
      rw [List.forall₂_map_left_iff, List.forall₂_map_right_iff]
      refine List.Forall₂.imp (fun row other each => And.intro ?_ each) alike
      exact List.map_congr_left fun entry member =>
        each entry.1 (List.mem_append_right _ (List.mem_map_of_mem member))
    rw [AllAlike, List.forall₂_map_left_iff, List.forall₂_map_right_iff]
    refine List.Forall₂.imp (fun _ _ => And.right) (forall₂_sortBy (fun a b x y first second => ?_) decorated)
    rw [compareRows, compareRows, first.1, second.1]

theorem SortKeys.alike {spec : SortSpec} {rows others : List Row} (keys : SortKeys spec others)
    (alike : AllAlike (spec.map (·.1)) rows others) : SortKeys spec rows where
  present entry member row inside := by
    obtain ⟨other, found, each⟩ := exists_alike alike inside
    rw [each entry.1 (List.mem_map_of_mem member)]
    exact keys.present entry member other found
  compares entry member := (keys.compares entry member).mono fun value ⟨row, inside, here⟩ => by
    obtain ⟨other, found, each⟩ := exists_alike alike inside
    exact ⟨other, found, by rwa [← each entry.1 (List.mem_map_of_mem member)]⟩

/-! ### The rows of a group -/

theorem zip_alike {need : List String} {rows others : List Row} (alike : AllAlike need rows others)
    (values : List (List Value)) :
    List.Forall₂ (fun a x : List Value × Row => a.1 = x.1 ∧ Alike need a.2 x.2) (values.zip rows) (values.zip others) := by
  induction alike generalizing values with
  | nil =>
      rw [List.zip_nil_right]
      exact .nil
  | cons first _ ih =>
      cases values with
      | nil => exact .nil
      | cons value values => exact .cons (And.intro rfl first) (ih values)

theorem itemsOf_alike {need : List String} {rows others : List Row} (alike : AllAlike need rows others)
    (values : List (List Value)) (key : List Value) :
    AllAlike need (Grouping.itemsOf Value.sameAll key (values.zip rows))
      (Grouping.itemsOf Value.sameAll key (values.zip others)) := by
  rw [Grouping.itemsOf, Grouping.itemsOf, AllAlike, List.forall₂_map_left_iff, List.forall₂_map_right_iff]
  refine List.Forall₂.imp (fun _ _ => And.right) (List.rel_filter (fun a x same => ?_) (zip_alike alike values))
  simp only [same.1]

/-- One group of no rows stands for no groups, where there are no keys. -/
theorem top_alike {need : List String} {none : Bool} {groups others : List (List Value × List Row)}
    (each : List.Forall₂ (fun a x => a.1 = x.1 ∧ AllAlike need a.2 x.2) groups others) :
    List.Forall₂ (fun a x => a.1 = x.1 ∧ AllAlike need a.2 x.2) (if none && groups.isEmpty then [([], [])] else groups)
      (if none && others.isEmpty then [([], [])] else others) := by
  cases each with
  | nil =>
      split
      · exact .cons (And.intro rfl .nil) .nil
      · exact .nil
  | cons first rest =>
      rw [List.isEmpty_cons, List.isEmpty_cons, Bool.and_false]
      exact .cons first rest

/-! ### Tests that may fail -/

theorem filterM_alike {need : List String} {keep : Row → Except String Bool} {rows others : List Row}
    (same : ∀ row other, Alike need row other → keep row = keep other) (alike : AllAlike need rows others) :
    AllAlike need (rowsOf (filterM keep rows)) (rowsOf (filterM keep others)) ∧
      (filterM keep rows).isOk = (filterM keep others).isOk := by
  induction alike with
  | nil => exact ⟨.nil, rfl⟩
  | @cons row other rows others first _ ih =>
      rw [filterM, filterM, same row other first]
      cases keep other with
      | error message => exact ⟨.nil, rfl⟩
      | ok kept =>
          obtain ⟨each, ends⟩ := ih
          cases tried : filterM keep rows with
          | error message =>
              cases also : filterM keep others with
              | error problem => exact ⟨.nil, rfl⟩
              | ok found =>
                  rw [tried, also] at ends
                  cases ends
          | ok found =>
              cases also : filterM keep others with
              | error problem =>
                  rw [tried, also] at ends
                  cases ends
              | ok result =>
                  rw [tried, also] at each
                  cases kept with
                  | true => exact ⟨.cons first each, rfl⟩
                  | false => exact ⟨each, rfl⟩

/-! ### The keys of a join -/

theorem columnName_named {expression : Expr} {name : String} (named : hasBoundColumns expression = false)
    (found : columnName expression = some name) : colsInExpr expression = [name] := by
  cases expression
  case col other =>
    cases found
    rfl
  case columnSlot slot other => cases named
  all_goals cases found

/-- The keys of a condition depend on the columns it names. -/
theorem equiKeys_columns {lcols rcols lothers rothers : List String} {on : Expr} (named : hasBoundColumns on = false)
    (lefts : ∀ name ∈ colsInExpr on, name ∈ lcols ↔ name ∈ lothers)
    (rights : ∀ name ∈ colsInExpr on, name ∈ rcols ↔ name ∈ rothers) :
    equiKeys lcols rcols on = equiKeys lothers rothers on := by
  unfold equiKeys
  split
  · rename_i left right
    split
    · rename_i a b first second
      rw [hasBoundColumns, Bool.or_eq_false_iff] at named
      rw [colsInExpr, columnName_named named.1 first, columnName_named named.2 second] at lefts rights
      have members : a ∈ [a] ++ [b] ∧ b ∈ [a] ++ [b] := by simp
      simp only [lefts a members.1, lefts b members.2, rights a members.1, rights b members.2]
    · rfl
  · rfl

theorem equiKeys_read {lcols rcols : List String} {on : Expr} {keys : EquiKeys} (named : hasBoundColumns on = false)
    (recognized : equiKeys lcols rcols on = some keys) : keys.left ∈ colsInExpr on ∧ keys.right ∈ colsInExpr on := by
  unfold equiKeys at recognized
  split at recognized
  · split at recognized
    · rename_i first second
      rw [hasBoundColumns, Bool.or_eq_false_iff] at named
      rw [colsInExpr, columnName_named named.1 first, columnName_named named.2 second]
      split at recognized
      · cases recognized
        simp
      · split at recognized
        · cases recognized
          simp
        · cases recognized
    · cases recognized
  · cases recognized

/-! ### Pairs of rows -/

theorem joinedRows_alike {kind : JoinKind} {need ncols nothers : List String} {matched fewer : Row → Row → Bool}
    (same : ∀ l lother r rother, Alike need l lother → Alike need r rother → matched l r = fewer lother rother)
    (nulls : ∀ name ∈ need, name ∈ ncols ↔ name ∈ nothers) {rrows rothers : List Row}
    (rights : AllAlike need rrows rothers)
    {l lother : Row} (left : Alike need l lother) :
    AllAlike need (joinedRows kind ncols matched rrows l) (joinedRows kind nothers fewer rothers lother) := by
  have kept : AllAlike need (rrows.filter (matched l)) (rothers.filter (fewer lother)) :=
    List.rel_filter (fun r rother right => by simp only [same l lother r rother left right]) rights
  rw [joinedRows, joinedRows]
  generalize rrows.filter (matched l) = hits at kept ⊢
  generalize rothers.filter (fewer lother) = others at kept ⊢
  cases kept with
  | nil =>
      cases kind with
      | inner => exact .nil
      | left =>
          refine .cons (left.append fun name member => ?_) .nil
          rw [lookup_nullRow, lookup_nullRow]
          simp only [nulls name member]
  | cons first rest =>
      refine .cons (left.append first) ?_
      rw [List.forall₂_map_left_iff, List.forall₂_map_right_iff]
      exact rest.imp fun _ _ each => left.append each

/-- Joining rows that agree on the columns that the pairing and the operators above read. -/
theorem nestedLoop_alike {kind : JoinKind} {need ncols nothers : List String} {matched fewer : Row → Row → Bool}
    (same : ∀ l lother r rother, Alike need l lother → Alike need r rother → matched l r = fewer lother rother)
    (nulls : ∀ name ∈ need, name ∈ ncols ↔ name ∈ nothers) {lrows lothers rrows rothers : List Row}
    (lefts : AllAlike need lrows lothers) (rights : AllAlike need rrows rothers) :
    AllAlike need (nestedLoop kind ncols matched lrows rrows) (nestedLoop kind nothers fewer lothers rothers) := by
  induction lefts with
  | nil => exact .nil
  | cons first _ ih =>
      rw [nestedLoop_cons, nestedLoop_cons]
      exact List.rel_append (joinedRows_alike same nulls rights first) ih

/-! ### Expressions -/

section Expressions

variable [Host] [Printer] {outer : Row}

theorem evalExpr_alike {expression : Expr} (named : hasBoundColumns expression = false) {row other : Row}
    (alike : Alike (colsInExpr expression) row other) :
    evalExpr expression (row ++ outer) = evalExpr expression (other ++ outer) :=
  evalExpr_congr expression (.inl named) (alike.outer outer)

theorem holds_alike {condition : Expr} (named : hasBoundColumns condition = false) {row other : Row}
    (alike : Alike (colsInExpr condition) row other) : holds outer condition row = holds outer condition other :=
  holds_congr named (alike.outer outer)

theorem computedRow_alike {items : List (String × Expr)} (named : ∀ item ∈ items, hasBoundColumns item.2 = false)
    {row other : Row} (alike : ∀ item ∈ items, Alike (colsInExpr item.2) row other) :
    computedRow outer items row = computedRow outer items other := by
  refine List.map_congr_left fun item member => ?_
  rw [valueOf, valueOf, evalExpr_alike (named item member) (alike item member)]

/-! ### Groups -/

theorem groupRowsFrom_error {keys : List Expr} {rows : List Row} {message : String}
    (failed : rows.mapM (groupKey outer keys) = .error message) (groups : List (List Value × List Row))
    (order : List (List Value)) : groupRowsFrom outer keys groups order rows = .error message := by
  induction rows generalizing groups order with
  | nil => cases failed
  | cons row rows ih =>
      rw [groupRowsFrom]
      rw [List.mapM_cons] at failed
      cases tried : groupKey outer keys row with
      | error problem =>
          rw [tried] at failed
          cases failed
          rfl
      | ok key =>
          rw [tried] at failed
          refine ih ?_ _ _
          cases later : rows.mapM (groupKey outer keys) with
          | error problem =>
              rw [later] at failed
              exact failed
          | ok values =>
              rw [later] at failed
              cases failed

/-- The groups of rows, by the keys of all of them. -/
theorem groupRows_mapM (keys : List Expr) (rows : List Row) :
    groupRows outer keys rows = (rows.mapM (groupKey outer keys)).map fun values =>
      (Grouping.firsts Value.sameAll values).map fun key =>
        (key, Grouping.itemsOf Value.sameAll key (values.zip rows)) := by
  cases evaluated : rows.mapM (groupKey outer keys) with
  | error message => exact groupRowsFrom_error evaluated [] []
  | ok values => exact groupRows_eq evaluated

theorem evalAgg_alike {expression : Expr} (named : hasBoundColumns expression = false) {rows others : List Row}
    (alike : AllAlike (colsInExpr expression) rows others) :
    evalAgg outer expression rows = evalAgg outer expression others := by
  have length := alike.length_eq
  cases expression
  case countAll => rw [evalAgg, evalAgg, aggregateOf, length]
  case aggregate builtin argument =>
    have read : hasBoundColumns argument = false := named
    have values : valuesOf outer argument rows = valuesOf outer argument others :=
      mapM_eq_of_forall₂ (fun _ _ each => evalExpr_alike read each) alike
    rw [evalAgg, evalAgg, aggregateOf, length]
    simp only [values]
  all_goals rfl

theorem groupKey_alike {keys : List Expr} {need : List String} (named : ∀ key ∈ keys, hasBoundColumns key = false)
    (within : ∀ key ∈ keys, colsInExpr key ⊆ need) {row other : Row} (alike : Alike need row other) :
    groupKey outer keys row = groupKey outer keys other :=
  mapM_eq_of_forall₂ (fun _ _ same => same)
    (List.forall₂_same.mpr fun key member => evalExpr_alike (named key member) (alike.mono (within key member)))

theorem oneGroup_alike {names need : List String} {aggregates : List (String × Expr)}
    (named : ∀ item ∈ aggregates, hasBoundColumns item.2 = false)
    (within : ∀ item ∈ aggregates, colsInExpr item.2 ⊆ need) {group other : List Value × List Row}
    (same : group.1 = other.1) (alike : AllAlike need group.2 other.2) :
    oneGroup outer names aggregates group = oneGroup outer names aggregates other := by
  have values : aggregates.mapM (fun aggregate => evalAgg outer aggregate.2 group.2) =
      aggregates.mapM fun aggregate => evalAgg outer aggregate.2 other.2 :=
    mapM_eq_of_forall₂ (fun _ _ equal => equal)
      (List.forall₂_same.mpr fun item member => evalAgg_alike (named item member) (alike.mono (within item member)))
  rw [oneGroup, oneGroup, values, same]

/-- Grouping rows that agree on the columns of the keys and the aggregates. -/
theorem evalAggregate_alike {keys aggregates : List (String × Expr)} {need : List String} {rows others : List Row}
    (named : ∀ item ∈ keys ++ aggregates, hasBoundColumns item.2 = false)
    (within : ∀ item ∈ keys ++ aggregates, colsInExpr item.2 ⊆ need) (alike : AllAlike need rows others) :
    evalAggregate outer keys aggregates rows = evalAggregate outer keys aggregates others := by
  obtain ⟨namedKeys, namedOthers⟩ := List.forall_mem_append.mp named
  obtain ⟨withinKeys, withinOthers⟩ := List.forall_mem_append.mp within
  have values : rows.mapM (groupKey outer (keys.map (·.2))) = others.mapM (groupKey outer (keys.map (·.2))) :=
    mapM_eq_of_forall₂ (fun _ _ each => groupKey_alike (List.forall_mem_map.mpr namedKeys)
      (List.forall_mem_map.mpr withinKeys) each) alike
  rw [evalAggregate, evalAggregate, groupRows_mapM, groupRows_mapM, values]
  cases others.mapM (groupKey outer (keys.map (·.2))) with
  | error message => rfl
  | ok found =>
      have groups : List.Forall₂ (fun a x : List Value × List Row => a.1 = x.1 ∧ AllAlike need a.2 x.2)
          ((Grouping.firsts Value.sameAll found).map fun key =>
            (key, Grouping.itemsOf Value.sameAll key (found.zip rows)))
          ((Grouping.firsts Value.sameAll found).map fun key =>
            (key, Grouping.itemsOf Value.sameAll key (found.zip others))) := by
        rw [List.forall₂_map_left_iff, List.forall₂_map_right_iff]
        exact List.forall₂_same.mpr fun key _ => And.intro rfl (itemsOf_alike alike found key)
      refine mapM_eq_of_forall₂ (fun a x each => ?_) (top_alike groups)
      exact oneGroup_alike namedOthers withinOthers each.1 each.2

/-! ### Semi-joins -/

theorem semiKeeps_alike {kind : SemiKind} {leftKey : Expr} (named : hasBoundColumns leftKey = false)
    (values : List Value) {row other : Row} (alike : Alike (colsInExpr leftKey) row other) :
    semiKeeps kind leftKey outer values row = semiKeeps kind leftKey outer values other := by
  rw [semiKeeps, semiKeeps, evalExpr_alike named alike]

/-- A semi-join reads only the right keys of the right rows. -/
theorem semiRows_right {kind : SemiKind} {leftKey rightKey : Expr} (named : hasBoundColumns rightKey = false)
    (lrows : List Row) {rrows rothers : List Row} (rights : AllAlike (colsInExpr rightKey) rrows rothers) :
    semiRows kind leftKey rightKey outer lrows rrows = semiRows kind leftKey rightKey outer lrows rothers := by
  have values : rrows.mapM (fun row => evalExpr rightKey (row ++ outer)) =
      rothers.mapM fun row => evalExpr rightKey (row ++ outer) :=
    mapM_eq_of_forall₂ (fun _ _ each => evalExpr_alike named each) rights
  rw [semiRows, semiRows, values]

theorem semiRows_left {kind : SemiKind} {leftKey rightKey : Expr} {need : List String}
    (named : hasBoundColumns leftKey = false) {lrows lothers : List Row} (rrows : List Row)
    (lefts : AllAlike (need ++ colsInExpr leftKey) lrows lothers) :
    AllAlike (need ++ colsInExpr leftKey) (rowsOf (semiRows kind leftKey rightKey outer lrows rrows))
      (rowsOf (semiRows kind leftKey rightKey outer lothers rrows)) := by
  rw [semiRows, semiRows]
  cases rrows.mapM fun row => evalExpr rightKey (row ++ outer) with
  | error message => exact .nil
  | ok values =>
      exact (filterM_alike (fun _ _ each => semiKeeps_alike named values
        (each.mono (List.subset_append_right _ _))) lefts).1

/-! ### Joins -/

theorem joinMatch_alike {lcols rcols lothers rothers : List String} {on : Expr} (named : hasBoundColumns on = false)
    (lefts : ∀ name ∈ colsInExpr on, name ∈ lcols ↔ name ∈ lothers)
    (rights : ∀ name ∈ colsInExpr on, name ∈ rcols ↔ name ∈ rothers) {l lother r rother : Row}
    (left : Alike (colsInExpr on) l lother) (right : Alike (colsInExpr on) r rother) :
    joinMatch outer lcols rcols on l r = joinMatch outer lothers rothers on lother rother := by
  have keys : equiKeys lcols rcols on = equiKeys lothers rothers on := equiKeys_columns named lefts rights
  rw [joinMatch, joinMatch, keys]
  cases recognized : equiKeys lothers rothers on with
  | none => exact holds_alike named (left.append right)
  | some keys =>
      obtain ⟨first, second⟩ := equiKeys_read named recognized
      show hashMatched keys l r = hashMatched keys lother rother
      rw [hashMatched, hashMatched, joinKeyOf, joinKeyOf, joinKeyOf, joinKeyOf, left _ first, right _ second]

end Expressions

end ChuSQL.Engine
