import ChuSQL.Engine.Plan.Alike

/-! Dropping the columns that nothing reads: the rows of a pruned plan agree with those of
the plan on the columns that are asked for, and are the same where all of them are. -/

set_option autoImplicit false

namespace ChuSQL.Engine

open Library Model

/-- The rows of every table have the columns of the table. -/
structure Laid (storage : Storage) (db : Database) : Prop where
  columns : ∀ table rows, storage.scan table = .ok rows → ∀ row ∈ rows, scanCols db none table none ⊆ row.map (·.1)

/-! ### Scans -/

/-- A stored row as a scan gives it. -/
def scannedRow (label : Option String) (columns : List String) (row : Row) : Row :=
  columns.map fun name => (name, keyValue (unqualify label name) row)

theorem lookup_scannedRow {label : Option String} {columns : List String} {name : String} (member : name ∈ columns)
    (row : Row) : lookup name (scannedRow label columns row) = some (keyValue (unqualify label name) row) := by
  induction columns with
  | nil => cases member
  | cons first columns ih =>
      rw [scannedRow, List.map_cons, lookup]
      split
      · rename_i same
        rw [same]
      · rename_i other
        exact ih ((List.mem_cons.mp member).resolve_left (Ne.symm other))

theorem scanCols_unlabelled {db : Database} {label : Option String} {table name : String}
    (member : name ∈ scanCols db label table none) : unqualify label name ∈ scanCols db none table none := by
  rw [scanCols] at member ⊢
  split at member
  · cases member
  · rename_i found listed
    obtain ⟨column, inside, rfl⟩ := List.mem_map.mp member
    rw [unqualify_qualify]
    exact List.mem_map.mpr ⟨column, inside, rfl⟩

theorem orderRow_cells {columns : List String} {row : Row} {cell : String → Value}
    (found : ∀ name ∈ columns, lookup name row = some (cell name)) :
    orderRow columns row = .ok (columns.map fun name => (name, cell name)) := by
  rw [orderRow, mapM_eq_ok, List.forall₂_map_right_iff]
  refine List.forall₂_same.mpr fun name member => ?_
  rw [found name member]

/-- A scan gives, for every stored row, the cells of its columns. -/
theorem scanRows_cells {storage : Storage} {db : Database} (laid : Laid storage db) {label : Option String}
    {table : String}
    {columns : Option (List String)} (within : scanCols db label table columns ⊆ scanCols db label table none)
    {stored : List Row} (read : storage.scan table = .ok stored) :
    scanRows storage db label table columns = .ok (stored.map (scannedRow label (scanCols db label table columns))) := by
  have present : ∀ row ∈ stored, ∀ name ∈ scanCols db label table columns,
      lookup (unqualify label name) row = some (keyValue (unqualify label name) row) := by
    intro row member name inside
    exact (lookup_of_mem (laid.columns table stored read row member (scanCols_unlabelled (within inside))) []).1
  have ordered : ∀ kept : Row → Row, (∀ row, ∀ name ∈ scanCols db label table columns,
      lookup (unqualify label name) (kept row) = lookup (unqualify label name) row) →
      orderedRows (scanCols db label table columns) (prefixRows label (stored.map kept)) =
        .ok (stored.map (scannedRow label (scanCols db label table columns))) := by
    intro kept same
    rw [orderedRows, prefixRows, List.map_map, mapM_eq_ok, List.forall₂_map_left_iff, List.forall₂_map_right_iff]
    refine List.forall₂_same.mpr fun row member => orderRow_cells fun name inside => ?_
    have shape := qualify_scanned inside
    calc lookup name ((kept row).map fun entry => (qualify label entry.1, entry.2))
      _ = lookup (qualify label (unqualify label name)) ((kept row).map fun entry => (qualify label entry.1, entry.2)) := by
          rw [shape]
      _ = lookup (unqualify label name) (kept row) := lookup_prefixed label (unqualify label name) (kept row)
      _ = lookup (unqualify label name) row := same row name inside
      _ = some (keyValue (unqualify label name) row) := present row member name inside
  cases columns with
  | none =>
      rw [scanRows]
      simp only [read]
      have whole := ordered id fun _ _ _ => rfl
      rwa [List.map_id] at whole
  | some columns =>
      rw [scanRows]
      simp only [Storage.scanColumns, read]
      refine ordered (fun row => columns.filterMap fun name => (lookup name row).map fun value => (name, value)) ?_
      intro row name inside
      obtain ⟨column, listed, rfl⟩ := List.mem_map.mp inside
      rw [unqualify_qualify, lookup_listed, if_pos listed]

/-- A scan that cannot read its table gives no rows, whatever its columns. -/
theorem scanRows_unread {storage : Storage} {db : Database} {label : Option String} {table message : String}
    {columns : Option (List String)} (read : storage.scan table = .error message) :
    scanRows storage db label table columns = .error message := by
  cases columns <;> simp only [scanRows, Storage.scanColumns, read] <;> rfl

/-! ### What is asked for -/

theorem all_contains {need columns : List String} : columns.all (need.contains ·) = true ↔ columns ⊆ need := by
  rw [List.all_eq_true]
  exact forall₂_congr fun name _ => List.contains_iff_mem

theorem needsAll_iff {need : List String} : needsAll need = true ↔ "*" ∈ need := List.contains_iff_mem

theorem subset_flatMap {items : List (String × Expr)} {item : String × Expr} (member : item ∈ items) :
    colsInExpr item.2 ⊆ items.flatMap fun item => colsInExpr item.2 :=
  fun _ here => List.mem_flatMap.mpr ⟨item, member, here⟩

theorem not_only {need : List String} (named : "*" ∉ need) : need ≠ ["*"] :=
  fun all => named (by rw [all]; exact List.mem_singleton_self "*")

theorem sideNeed_asked (need columns : List String) :
    "*" ∈ sideNeed need columns ∨ sideNeed need columns ⊆ columns := by
  rw [sideNeed]
  split
  · exact .inl (List.mem_singleton_self "*")
  · refine .inr fun name member => ?_
    exact List.contains_iff_mem.mp (List.mem_filter.mp member).2

/-- A side with a column that stands for all gives all its columns. -/
theorem sideNeed_star {need columns : List String} (star : "*" ∈ columns) : "*" ∈ sideNeed need columns := by
  rw [sideNeed, if_pos (needsAll_iff.mpr star)]
  exact List.mem_singleton_self "*"

theorem mem_sideNeed {need columns : List String} {name : String} (named : "*" ∉ columns) :
    name ∈ sideNeed need columns ↔ name ∈ need ∧ name ∈ columns := by
  rw [sideNeed, if_neg (by rwa [needsAll_iff]), List.mem_filter, List.contains_iff_mem]

theorem sideNeed_full {need columns : List String} (all : columns ⊆ need) :
    "*" ∈ sideNeed need columns ∨ columns ⊆ sideNeed need columns := by
  by_cases named : "*" ∈ columns
  · exact .inl (sideNeed_star named)
  · exact .inr fun name member => (mem_sideNeed named).mpr ⟨all member, member⟩

section Scanned

variable {db : Database} {label : Option String} {table : String} {columns : Option (List String)} {need : List String}

theorem mem_scanned (resolved : Resolved db (.scan label table columns))
    (asked : need ⊆ scanCols db label table columns) (column : String) :
    column ∈ scanned db label table need ↔ ∃ name ∈ need, unqualify label name = column := by
  rw [scanned, List.mem_eraseDups, List.mem_filter, List.mem_map]
  constructor
  · rintro ⟨⟨name, member, rfl⟩, _⟩
    exact ⟨name, member, (resolved name (asked member)).2.symm⟩
  · rintro ⟨name, member, rfl⟩
    obtain ⟨available, physical⟩ := resolved name (asked member)
    exact ⟨⟨name, member, physical⟩, List.contains_iff_mem.mpr (List.mem_map_of_mem available)⟩

/-- A narrowed scan gives just the columns that are asked for. -/
theorem mem_scanCols_scanned (resolved : Resolved db (.scan label table columns))
    (asked : need ⊆ scanCols db label table columns) (name : String) :
    name ∈ scanCols db label table (some (scanned db label table need)) ↔ name ∈ need := by
  rw [scanCols, List.mem_map]
  constructor
  · rintro ⟨column, member, rfl⟩
    obtain ⟨other, inside, rfl⟩ := (mem_scanned resolved asked column).mp member
    rwa [qualify_scanned (asked inside)]
  · intro member
    exact ⟨unqualify label name, (mem_scanned resolved asked _).mpr ⟨name, member, rfl⟩, qualify_scanned (asked member)⟩

end Scanned

/-! ### What pruning keeps -/

section Pruning

variable [Host] [Printer] (outer : Row) (storage : Storage) (db : Database)

/-- A plan for the columns that are asked for of another: its rows agree on them, and are
the same where every column is asked for. -/
structure Narrowed (need : List String) (op other : RelOp) : Prop where
  shaped : Shaped outer storage db op
  within : relOpCols db op ⊆ relOpCols db other
  kept : ∀ name ∈ need, name ∈ relOpCols db other → name ∈ relOpCols db op
  alike : AllAlike need (answer outer storage db op) (answer outer storage db other)
  full : "*" ∈ need ∨ relOpCols db other ⊆ need →
    answer outer storage db op = answer outer storage db other ∧ relOpCols db op = relOpCols db other

end Pruning

section Operators

variable [Host] [Printer] {outer : Row} {storage : Storage} {db : Database} {need : List String}

/-- A plan with the same rows and columns is one for any columns. -/
theorem Narrowed.of_same {op other : RelOp} (shaped : Shaped outer storage db op)
    (rows : answer outer storage db op = answer outer storage db other)
    (columns : relOpCols db op = relOpCols db other) :
    Narrowed outer storage db need op other where
  shaped := shaped
  within _ member := columns ▸ member
  kept _ _ member := columns ▸ member
  alike := rows ▸ AllAlike.refl need _
  full _ := ⟨rows, columns⟩

theorem Narrowed.refl {op : RelOp} (shaped : Shaped outer storage db op) : Narrowed outer storage db need op op :=
  .of_same shaped rfl rfl

/-- A plan for more columns is the whole one where all of them are asked for. -/
theorem Narrowed.full_left {others : List String} {op other : RelOp}
    (pruned : Narrowed outer storage db (need ++ others) op other) (all : "*" ∈ need ∨ relOpCols db other ⊆ need) :
    answer outer storage db op = answer outer storage db other ∧ relOpCols db op = relOpCols db other :=
  pruned.full (all.imp (List.mem_append_left _) (List.subset_append_of_subset_left _))

/-- A projection on columns that a plan has is one for them. -/
theorem project_narrowed {op : RelOp} (shaped : Shaped outer storage db op) (asked : need ⊆ relOpCols db op)
    (named : "*" ∉ need) (fewer : ¬relOpCols db op ⊆ need) : Narrowed outer storage db need (.project need op) op where
  shaped := ⟨shaped, asked, not_only named⟩
  within := asked
  kept _ member _ := member
  alike := by
    rw [answer, AllAlike, List.forall₂_map_left_iff]
    refine List.forall₂_same.mpr fun row _ name member => ?_
    rw [lookup_project (not_only named), if_pos member]
  full all := (all.elim named fewer).elim

theorem pushProjectLeaf_narrowed {leaf : RelOp} (shaped : Shaped outer storage db leaf)
    (asked : "*" ∈ need ∨ need ⊆ relOpCols db leaf) :
    Narrowed outer storage db need (pushProjectLeaf db need leaf) leaf := by
  rw [pushProjectLeaf]
  split
  · exact .refl shaped
  · rename_i named
    rw [needsAll_iff] at named
    split
    · exact .refl shaped
    · rename_i fewer
      rw [all_contains] at fewer
      exact project_narrowed shaped (asked.resolve_left named) named fewer

theorem scan_narrowed (laid : Laid storage db) {label : Option String} {table : String} {columns : Option (List String)}
    (resolved : Resolved db (.scan label table columns)) (named : "*" ∉ need)
    (asked : need ⊆ scanCols db label table columns) (fewer : ¬scanCols db label table columns ⊆ need) :
    Narrowed outer storage db need (.scan label table (some (scanned db label table need))) (.scan label table columns) where
  shaped := trivial
  within name member := asked ((mem_scanCols_scanned resolved asked name).mp member)
  kept name member _ := (mem_scanCols_scanned resolved asked name).mpr member
  alike := by
    rw [answer, answer]
    cases read : storage.scan table with
    | error message =>
        rw [scanRows_unread read, scanRows_unread read]
        exact .nil
    | ok stored =>
        rw [scanRows_cells laid (fun name member => (resolved name (asked
          ((mem_scanCols_scanned resolved asked name).mp member))).1) read,
          scanRows_cells laid (fun name member => (resolved name member).1) read]
        show AllAlike need (stored.map _) (stored.map _)
        rw [AllAlike, List.forall₂_map_left_iff, List.forall₂_map_right_iff]
        refine List.forall₂_same.mpr fun row _ name member => ?_
        rw [lookup_scannedRow ((mem_scanCols_scanned resolved asked name).mpr member), lookup_scannedRow (asked member)]
  full all := (all.elim named fewer).elim

theorem filter_narrowed {condition : Expr} {op source : RelOp} (named : hasBoundColumns condition = false)
    (inner : Narrowed outer storage db (need ++ colsInExpr condition) op source) :
    Narrowed outer storage db need (.filter condition op) (.filter condition source) where
  shaped := inner.shaped
  within := inner.within
  kept name member := inner.kept name (List.mem_append_left _ member)
  alike := by
    refine AllAlike.mono (List.rel_filter (fun row other each => ?_) inner.alike) (List.subset_append_left _ _)
    simp only [holds_alike named (each.mono (List.subset_append_right _ _))]
  full all := by
    obtain ⟨rows, columns⟩ := inner.full_left all
    exact ⟨by rw [answer, answer, rows], columns⟩

theorem compute_narrowed {items : List (String × Expr)} {op source : RelOp}
    (named : ∀ item ∈ items, hasBoundColumns item.2 = false)
    (inner : Narrowed outer storage db (items.flatMap fun item => colsInExpr item.2) op source) :
    Narrowed outer storage db need (.compute items op) (.compute items source) := by
  refine .of_same inner.shaped ?_ rfl
  refine map_eq_of_forall₂ (fun row other each => ?_) inner.alike
  exact computedRow_alike named fun item member => each.mono (subset_flatMap member)

theorem aggregate_narrowed {keys : List String} {aggregates : List (String × Expr)} {op source : RelOp}
    (named : ∀ item ∈ aggregates, hasBoundColumns item.2 = false)
    (inner : Narrowed outer storage db (keys ++ aggregates.flatMap fun item => colsInExpr item.2) op source) :
    Narrowed outer storage db need (.aggregate keys aggregates op) (.aggregate keys aggregates source) := by
  refine .of_same inner.shaped ?_ rfl
  rw [answer, answer, evalAggregate_alike ?_ ?_ inner.alike]
  · refine List.forall_mem_append.mpr ⟨fun item member => ?_, named⟩
    obtain ⟨name, _, rfl⟩ := List.mem_map.mp member
    rfl
  · refine List.forall_mem_append.mpr ⟨fun item member => ?_, fun item member => ?_⟩
    · obtain ⟨name, inside, rfl⟩ := List.mem_map.mp member
      intro other here
      rw [List.mem_singleton.mp here]
      exact List.mem_append_left _ inside
    · exact List.subset_append_of_subset_right _ (subset_flatMap member)

theorem sort_narrowed {spec : SortSpec} {op source : RelOp} (keys : SortKeys spec (answer outer storage db source))
    (inner : Narrowed outer storage db (need ++ spec.map (·.1)) op source) :
    Narrowed outer storage db need (.sort spec op) (.sort spec source) where
  shaped := ⟨inner.shaped, keys.alike (inner.alike.mono (List.subset_append_right _ _))⟩
  within := inner.within
  kept name member := inner.kept name (List.mem_append_left _ member)
  alike := (sortRows_alike inner.alike).mono (List.subset_append_left _ _)
  full all := by
    obtain ⟨rows, columns⟩ := inner.full_left all
    exact ⟨by rw [answer, answer, rows], columns⟩

theorem limit_narrowed {count : Int} {op source : RelOp} (inner : Narrowed outer storage db need op source) :
    Narrowed outer storage db need (.limit count op) (.limit count source) where
  shaped := inner.shaped
  within := inner.within
  kept := inner.kept
  alike := List.forall₂_take count.toNat inner.alike
  full all := by
    obtain ⟨rows, columns⟩ := inner.full all
    exact ⟨by rw [answer, answer, rows], columns⟩

theorem distinct_narrowed {op source : RelOp} (inner : Narrowed outer storage db (relOpCols db source) op source) :
    Narrowed outer storage db need (.distinct op) (.distinct source) := by
  obtain ⟨rows, columns⟩ := inner.full (.inr (List.Subset.refl _))
  exact .of_same inner.shaped (by rw [answer, answer, rows]) columns

theorem semiJoin_narrowed {kind : SemiKind} {leftKey rightKey : Expr} {op left others right : RelOp}
    {query : Option Statement} (namedLeft : hasBoundColumns leftKey = false)
    (namedRight : hasBoundColumns rightKey = false)
    (lefts : Narrowed outer storage db (need ++ colsInExpr leftKey) op left)
    (rights : Narrowed outer storage db (colsInExpr rightKey) others right) :
    Narrowed outer storage db need (.semiJoin kind leftKey rightKey op others query)
      (.semiJoin kind leftKey rightKey left right query) where
  shaped := ⟨lefts.shaped, rights.shaped⟩
  within := lefts.within
  kept name member := lefts.kept name (List.mem_append_left _ member)
  alike := by
    rw [answer, answer, semiRows_right namedRight _ rights.alike]
    exact (semiRows_left namedLeft _ lefts.alike).mono (List.subset_append_left _ _)
  full all := by
    obtain ⟨rows, columns⟩ := lefts.full_left all
    exact ⟨by rw [answer, answer, semiRows_right namedRight _ rights.alike, rows], columns⟩

/-! ### The sides of a join -/

section Sides

variable {op side : RelOp}

/-- What a side asks for is there as before. -/
theorem side_columns (pruned : Narrowed outer storage db (sideNeed need (relOpCols db side)) op side) {name : String}
    (member : name ∈ need) : name ∈ relOpCols db op ↔ name ∈ relOpCols db side := by
  refine ⟨fun inside => pruned.within inside, fun inside => ?_⟩
  by_cases named : "*" ∈ relOpCols db side
  · rwa [(pruned.full (.inl (sideNeed_star named))).2]
  · exact pruned.kept name ((mem_sideNeed named).mpr ⟨member, inside⟩) inside

/-- The rows of a side agree on everything that is asked for, of this side or not. -/
theorem side_alike (pruned : Narrowed outer storage db (sideNeed need (relOpCols db side)) op side)
    (shaped : Shaped outer storage db side) :
    AllAlike need (answer outer storage db op) (answer outer storage db side) := by
  by_cases named : "*" ∈ relOpCols db side
  · rw [(pruned.full (.inl (sideNeed_star named))).1]
    exact AllAlike.refl need _
  · refine (forall₂_mem pruned.alike).imp fun row other ⟨inside, also, each⟩ name member => ?_
    by_cases here : name ∈ relOpCols db side
    · exact each name ((mem_sideNeed named).mpr ⟨member, here⟩)
    · rw [lookup_eq_none, lookup_eq_none]
      · rwa [answer_columns shaped other also]
      · rw [answer_columns pruned.shaped row inside]
        exact fun found => here (pruned.within found)

end Sides

theorem join_narrowed {kind : JoinKind} {on : Expr} {op left others right : RelOp} (bound : hasBoundColumns on = false)
    (shaped : Shaped outer storage db (.join kind left right on)) (named : "*" ∉ need)
    (lefts : Narrowed outer storage db (sideNeed (need ++ colsInExpr on) (relOpCols db left)) op left)
    (rights : Narrowed outer storage db (sideNeed (need ++ colsInExpr on) (relOpCols db right)) others right) :
    Narrowed outer storage db need (.join kind op others on) (.join kind left right on) where
  shaped := ⟨lefts.shaped, rights.shaped, shaped.2.2⟩
  within := List.append_subset.mpr ⟨List.subset_append_of_subset_left _ lefts.within,
    List.subset_append_of_subset_right _ rights.within⟩
  kept name member inside := by
    have asked : name ∈ need ++ colsInExpr on := List.mem_append_left _ member
    rcases List.mem_append.mp inside with first | second
    · exact List.mem_append_left _ ((side_columns lefts asked).mpr first)
    · exact List.mem_append_right _ ((side_columns rights asked).mpr second)
  alike := by
    have reads : colsInExpr on ⊆ need ++ colsInExpr on := List.subset_append_right _ _
    refine AllAlike.mono (nestedLoop_alike (fun l lother r rother left right => ?_)
      (fun name member => side_columns rights member) (side_alike lefts shaped.1) (side_alike rights shaped.2.1))
      (List.subset_append_left _ _)
    exact joinMatch_alike bound (fun name member => side_columns lefts (reads member))
      (fun name member => side_columns rights (reads member)) (left.mono reads) (right.mono reads)
  full all := by
    obtain ⟨first, second⟩ := List.append_subset.mp (all.resolve_left named)
    obtain ⟨lrows, lcols⟩ := lefts.full (sideNeed_full (List.subset_append_of_subset_left _ first))
    obtain ⟨rrows, rcols⟩ := rights.full (sideNeed_full (List.subset_append_of_subset_left _ second))
    exact ⟨by rw [answer, answer, lrows, rrows, lcols, rcols], by rw [relOpCols, relOpCols, lcols, rcols]⟩

/-! ### Derived tables -/

theorem derived_narrowed {label : Option String} {op source : RelOp} (named : "*" ∉ relOpCols db source)
    (asked : need ⊆ relOpCols db (.derived label source)) (star : "*" ∉ need)
    (fewer : ¬relOpCols db source ⊆ (need.map (unqualify label)).eraseDups)
    (inner : Narrowed outer storage db (need.map (unqualify label)).eraseDups op source) :
    Narrowed outer storage db need (.derived label (.project (need.map (unqualify label)).eraseDups op))
      (.derived label source) := by
  have columns : ∀ name ∈ need, ∃ column ∈ relOpCols db source, qualify label column = name :=
    fun name member => List.mem_map.mp (asked member)
  have wanted : ∀ column, column ∈ (need.map (unqualify label)).eraseDups ↔ qualify label column ∈ need := by
    intro column
    rw [List.mem_eraseDups, List.mem_map]
    constructor
    · rintro ⟨name, member, rfl⟩
      obtain ⟨column, _, rfl⟩ := columns name member
      rwa [unqualify_qualify]
    · intro member
      exact ⟨qualify label column, member, unqualify_qualify label column⟩
  have present : ∀ column ∈ (need.map (unqualify label)).eraseDups, column ∈ relOpCols db source := by
    intro column member
    obtain ⟨other, inside, same⟩ := columns _ ((wanted column).mp member)
    rwa [← unqualify_qualify label column, ← same, unqualify_qualify]
  generalize (need.map (unqualify label)).eraseDups = list at *
  have listed : list ≠ ["*"] := not_only fun member => named (present "*" member)
  refine ⟨⟨inner.shaped, fun column member => inner.kept column member (present column member), listed⟩, ?_, ?_, ?_, ?_⟩
  · intro name member
    obtain ⟨column, inside, rfl⟩ := List.mem_map.mp member
    exact List.mem_map_of_mem (present column inside)
  · intro name member inside
    obtain ⟨column, _, rfl⟩ := List.mem_map.mp inside
    exact List.mem_map_of_mem ((wanted column).mpr member)
  · rw [answer, answer, answer, prefixRows, prefixRows, List.map_map, AllAlike, List.forall₂_map_left_iff,
      List.forall₂_map_right_iff]
    refine List.Forall₂.imp (fun row other each name member => ?_) inner.alike
    obtain ⟨column, _, rfl⟩ := columns name member
    have asks := (wanted column).mpr member
    rw [Function.comp_apply, lookup_prefixed, lookup_prefixed, lookup_project listed, if_pos asks, each column asks]
  · intro all
    refine (fewer fun column member => (wanted column).mpr ?_).elim
    exact all.resolve_left star (List.mem_map_of_mem member)

/-! ### Projections -/

/-- A projection keeps its columns over a pruned plan. -/
theorem project_kept {columns : List String} {op source : RelOp}
    (shaped : Shaped outer storage db (.project columns source))
    (inner : Narrowed outer storage db columns op source) :
    Narrowed outer storage db need (.project columns op) (.project columns source) := by
  obtain ⟨_, within, listed⟩ := shaped
  refine .of_same ⟨inner.shaped, fun name member => inner.kept name member (within member), listed⟩ ?_ rfl
  exact map_eq_of_forall₂ (fun _ _ each => project_alike listed each) inner.alike

/-- A projection on the columns of a projection is not made twice. -/
theorem project_once {columns : List String} {op source : RelOp}
    (shaped : Shaped outer storage db (.project columns source))
    (inner : Narrowed outer storage db columns (.project columns op) source) :
    Narrowed outer storage db need (.project columns op) (.project columns source) := by
  have twice : Narrowed outer storage db columns (.project columns (.project columns op)) (.project columns source) :=
    project_kept shaped inner
  obtain ⟨rows, _⟩ := twice.full (.inr (List.Subset.refl _))
  refine .of_same inner.shaped ?_ rfl
  rw [← rows, answer, answer, answer, List.map_map]
  exact List.map_congr_left fun row _ => (project_twice shaped.2.2 row).symm

/-! ### Whole plans -/

/-- A pruned plan agrees with the plan on the columns that are asked for. -/
theorem pushProjectUnbound_narrowed (laid : Laid storage db) {op : RelOp} (formed : WellFormed outer storage db op)
    (named : hasBoundPlanColumns op = false) (asked : "*" ∈ need ∨ need ⊆ relOpCols db op) :
    Narrowed outer storage db need (pushProjectUnbound db need op) op := by
  obtain ⟨shaped, resolved⟩ := formed
  induction op generalizing need with
  | unit => exact .refl shaped
  | boundSort spec source ih => exact .refl shaped
  | boundAggregate keys aggregates source ih => exact .refl shaped
  | lookup label table column key => exact pushProjectLeaf_narrowed shaped asked
  | range label table column low high => exact pushProjectLeaf_narrowed shaped asked
  | scan label table columns =>
      rw [pushProjectUnbound]
      split
      · exact .refl shaped
      · rename_i star
        rw [needsAll_iff] at star
        split
        · exact .refl shaped
        · rename_i fewer
          rw [all_contains] at fewer
          exact scan_narrowed laid resolved star (asked.resolve_left star) fewer
  | compute items source ih =>
      rw [hasBoundPlanColumns, Bool.or_eq_false_iff, List.any_eq_false] at named
      refine compute_narrowed (fun item member => Bool.eq_false_iff.mpr (named.1 item member))
        (ih named.2 (.inr fun name member => ?_) shaped resolved.1)
      obtain ⟨item, inside, reads⟩ := List.mem_flatMap.mp member
      exact resolved.2 item inside reads
  | aggregate keys aggregates source ih =>
      rw [hasBoundPlanColumns, Bool.or_eq_false_iff, List.any_eq_false] at named
      refine aggregate_narrowed (fun item member => Bool.eq_false_iff.mpr (named.1 item member))
        (ih named.2 (.inr (List.append_subset.mpr ⟨resolved.2.1, fun name member => ?_⟩)) shaped resolved.1)
      obtain ⟨item, inside, reads⟩ := List.mem_flatMap.mp member
      exact resolved.2.2 item inside reads
  | filter condition source ih =>
      rw [hasBoundPlanColumns, Bool.or_eq_false_iff] at named
      have reads : colsInExpr condition ⊆ relOpCols db source := by
        intro name member
        exact List.count_pos_iff.mp (by rw [resolved.1.once name member]; exact Nat.one_pos)
      exact filter_narrowed named.1 (ih named.2 (asked.imp (List.mem_append_left _) fun within =>
        List.append_subset.mpr ⟨within, reads⟩) shaped resolved.2)
  | project columns source ih =>
      have inner := @ih columns named (.inr shaped.2.1) shaped.1 resolved
      rw [pushProjectUnbound]
      generalize pushProjectUnbound db columns source = op at inner ⊢
      split
      · split
        · rename_i same
          subst same
          exact project_once shaped inner
        · exact project_kept shaped inner
      · exact project_kept shaped inner
  | distinct source ih => exact distinct_narrowed (ih named (.inr (List.Subset.refl _)) shaped resolved)
  | sort spec source ih =>
      exact sort_narrowed shaped.2 (ih named (asked.imp (List.mem_append_left _) fun within =>
        List.append_subset.mpr ⟨within, resolved.2⟩) shaped.1 resolved.1)
  | limit count source ih => exact limit_narrowed (ih named asked shaped resolved)
  | semiJoin kind leftKey rightKey left right query ihLeft ihRight =>
      rw [hasBoundPlanColumns, Bool.or_eq_false_iff, Bool.or_eq_false_iff, Bool.or_eq_false_iff] at named
      obtain ⟨⟨⟨namedLeft, namedRight⟩, leftBound⟩, rightBound⟩ := named
      refine semiJoin_narrowed namedLeft namedRight (ihLeft leftBound (asked.imp (List.mem_append_left _) fun within => ?_)
        shaped.1 resolved.1) (ihRight rightBound (.inr resolved.2.2.2) shaped.2 resolved.2.1)
      exact List.append_subset.mpr ⟨within, resolved.2.2.1⟩
  | join kind left right on ihLeft ihRight =>
      rw [hasBoundPlanColumns, Bool.or_eq_false_iff, Bool.or_eq_false_iff] at named
      obtain ⟨⟨bound, leftBound⟩, rightBound⟩ := named
      obtain ⟨_, _, leftResolved, rightResolved, _⟩ := resolved
      rw [pushProjectUnbound]
      split
      · rename_i star
        rw [needsAll_iff] at star
        have lefts := ihLeft leftBound (.inl star) shaped.1 leftResolved
        have rights := ihRight rightBound (.inl star) shaped.2.1 rightResolved
        obtain ⟨lrows, lcols⟩ := lefts.full (.inl star)
        obtain ⟨rrows, rcols⟩ := rights.full (.inl star)
        exact .of_same ⟨lefts.shaped, rights.shaped, shaped.2.2⟩ (by rw [answer, answer, lrows, rrows, lcols, rcols])
          (by rw [relOpCols, relOpCols, lcols, rcols])
      · rename_i star
        rw [needsAll_iff] at star
        exact join_narrowed bound shaped star
          (ihLeft leftBound (sideNeed_asked _ _) shaped.1 leftResolved)
          (ihRight rightBound (sideNeed_asked _ _) shaped.2.1 rightResolved)
  | derived label source ih =>
      rw [pushProjectUnbound]
      have whole := @ih ["*"] named (.inl (List.mem_singleton_self "*")) shaped resolved.1
      split
      · obtain ⟨rows, columns⟩ := whole.full (.inl (List.mem_singleton_self "*"))
        exact .of_same whole.shaped (by rw [answer, answer, rows]) (by rw [relOpCols, relOpCols, columns])
      · rename_i fewer
        rw [Bool.or_eq_true, not_or, needsAll_iff, all_contains] at fewer
        have within := asked.resolve_left fewer.1
        refine derived_narrowed resolved.2 within fewer.1 fewer.2 (ih named (.inr fun column member => ?_) shaped resolved.1)
        obtain ⟨name, inside, rfl⟩ := List.mem_map.mp (List.mem_eraseDups.mp member)
        obtain ⟨column, here, rfl⟩ := List.mem_map.mp (within inside)
        rwa [unqualify_qualify]

theorem pushProject_narrowed (laid : Laid storage db) {op : RelOp} (formed : WellFormed outer storage db op)
    (asked : "*" ∈ need ∨ need ⊆ relOpCols db op) : Narrowed outer storage db need (pushProject db need op) op := by
  rw [pushProject]
  split
  · exact .refl formed.shaped
  · rename_i unbound
    exact pushProjectUnbound_narrowed laid formed (Bool.eq_false_iff.mpr unbound) asked

variable [BindingPrinter]

end Operators

/-! ### Tables in memory -/

theorem memory_indexed [Host] [Printer] {outer : Row} {db : Database} : Indexed outer (memoryStorage db) db where
  lookups _ _ _ _ _ _ _ found := by cases found
  ranges _ _ _ _ _ _ _ found := by cases found

theorem memory_laid {db : Database}
    (rows : ∀ entry ∈ db, ∀ row ∈ entry.2.rows, entry.2.cols.map (·.1) ⊆ row.map (·.1)) :
    Laid (memoryStorage db) db where
  columns table stored read row member name inside := by
    have listed : (lookupTable db table).map (·.rows) = .ok stored := read
    rw [lookupTable] at listed
    rw [scanCols] at inside
    cases found : lookup table db with
    | none =>
        rw [found] at inside
        cases inside
    | some here =>
        rw [found] at listed inside
        cases listed
        exact rows (table, here) (mem_of_lookup found) row member inside

/-- Two tables of numbered rows. -/
def numberedTables : Database :=
  [("a", ⟨"a", [("k", plainColumn .int), ("v", plainColumn .int)],
      [[("k", .int 1), ("v", .int 5)], [("k", .int 2), ("v", .int 7)], [("k", .int 3), ("v", .null)]]⟩),
    ("b", ⟨"b", [("k", plainColumn .int), ("w", plainColumn .int)],
      [[("k", .int 2), ("w", .int 4)], [("k", .int 1), ("w", .int 4)], [("k", .int 2), ("w", .int 9)]]⟩)]

/-- A condition on each side of a join: one becomes a range, the other a lookup. -/
def filteredJoin : RelOp :=
  .project ["a.v"]
    (.filter (.binary .and (.binary .gtE (.col "a.v") (.litInt 6)) (.binary .eq (.col "b.w") (.litInt 4)))
      (.join .inner (.scan (some "a") "a" none) (.scan (some "b") "b" none) (.binary .eq (.col "a.k") (.col "b.k"))))

def plainJoin : RelOp :=
  .join .left (.scan (some "a") "a" none) (.scan (some "b") "b" none) (.binary .eq (.col "a.k") (.col "b.k"))

theorem numbered_laid : Laid (memoryStorage numberedTables) numberedTables := memory_laid (by decide +kernel)

theorem filteredJoin_formed : @WellFormed silentHost silentPrinter [] (memoryStorage numberedTables) numberedTables
    filteredJoin := by
  refine @WellFormed.mk silentHost silentPrinter _ _ _ _ ⟨⟨trivial, trivial, rfl⟩, ?_, ?_⟩
    ⟨⟨?_, rfl, rfl⟩, ?_, ?_, ?_, ?_, ?_⟩
  · decide +kernel
  · decide +kernel
  · decide +kernel
  · decide +kernel
  · decide +kernel
  · rw [Resolved]
    decide +kernel
  · rw [Resolved]
    decide +kernel
  · decide +kernel

theorem plainJoin_formed : @WellFormed silentHost silentPrinter [] (memoryStorage numberedTables) numberedTables
    plainJoin := by
  refine @WellFormed.mk silentHost silentPrinter _ _ _ _ ⟨trivial, trivial, rfl⟩ ⟨?_, ?_, ?_, ?_, ?_⟩
  · decide +kernel
  · decide +kernel
  · rw [Resolved]
    decide +kernel
  · rw [Resolved]
    decide +kernel
  · decide +kernel

/-- Every index is worth its use. -/
def everyIndex : Estimates := ⟨fun _ _ => true, fun _ _ _ _ => true⟩

def numberedRun (op : RelOp) : Except String (List Row) :=
  @evalRelOpIn silentHost silentPrinter silentBindings (memoryStorage numberedTables) numberedTables [] op

def optimizedJoin : RelOp :=
  pushProject numberedTables ["*"]
    ((@optimizeRelOp silentHost silentPrinter numberedTables everyIndex fun _ => .error "")^[2] filteredJoin)

theorem ran_of_count {op : RelOp} {count : Nat} (counted : (numberedRun op).toOption.map List.length = some count) :
    ∃ rows, numberedRun op = .ok rows ∧ rows.length = count := by
  cases ran : numberedRun op with
  | error message =>
      rw [ran] at counted
      cases counted
  | ok rows =>
      rw [ran] at counted
      exact ⟨rows, rfl, Option.some.inj counted⟩

end ChuSQL.Engine
