import ChuSQL.Engine.Sort

/-! The first rows of a sort, and LIMIT over a projection or a filter, are the first rows of
the whole result. -/

set_option autoImplicit false

namespace ChuSQL.Engine

open Library Model

/-! ### Keys that order rows -/

/-- All rows have the sort columns, and the values of each are totally preordered. -/
structure SortKeys (spec : SortSpec) (rows : List Row) : Prop where
  present : ∀ entry ∈ spec, ∀ row ∈ rows, ∃ value, lookup entry.1 row = some value
  compares : ∀ entry ∈ spec, ComparesOn compareValue {value | ∃ row ∈ rows, lookup entry.1 row = some value}

/-- Compare by one column. -/
def compareBy (entry : String × SortDir) (left right : Row) : Ordering :=
  match lookup entry.1 left, lookup entry.1 right with
  | some v1, some v2 => if entry.2 = .desc then (compareValue v1 v2).swap else compareValue v1 v2
  | _, _ => .eq

/-- Compare by the columns in turn. -/
def compareSpec : SortSpec → Row → Row → Ordering
  | [], _, _ => .eq
  | entry :: rest, left, right => (compareBy entry left right).then (compareSpec rest left right)

theorem compareKeys_spec (spec : SortSpec) (left right : Row) :
    compareKeys (spec.map (·.2)) (sortKey spec left) (sortKey spec right) = compareSpec spec left right := by
  induction spec with
  | nil => rfl
  | cons entry rest ih =>
      obtain ⟨name, dir⟩ := entry
      rw [sortKey, sortKey, List.map_cons, List.map_cons, List.map_cons, compareSpec, compareBy]
      cases first : lookup name left with
      | none => exact ih
      | some v1 =>
          cases second : lookup name right with
          | none => exact ih
          | some v2 =>
              simp only [compareKeys]
              cases compared : compareValue v1 v2 with
              | eq =>
                  cases dir with
                  | asc => exact ih
                  | desc => exact ih
              | lt =>
                  cases dir with
                  | asc => rfl
                  | desc => rfl
              | gt =>
                  cases dir with
                  | asc => rfl
                  | desc => rfl

theorem compareBy_compares {entry : String × SortDir} {rows : List Row}
    (present : ∀ row ∈ rows, ∃ value, lookup entry.1 row = some value)
    (compares : ComparesOn compareValue {value | ∃ row ∈ rows, lookup entry.1 row = some value}) :
    ComparesOn (compareBy entry) {row | row ∈ rows} := by
  have directed : ComparesOn (fun v1 v2 => if entry.2 = .desc then (compareValue v1 v2).swap else compareValue v1 v2)
      {value | ∃ row ∈ rows, lookup entry.1 row = some value} := by
    by_cases down : entry.2 = .desc
    · simp only [if_pos down]
      exact compares.swap
    · simp only [if_neg down]
      exact compares
  have images : ∀ row ∈ {row | row ∈ rows},
      (lookup entry.1 row).getD .null ∈ {value | ∃ row ∈ rows, lookup entry.1 row = some value} := by
    intro row member
    obtain ⟨value, found⟩ := present row member
    exact Exists.intro row (And.intro member (by rw [found]; rfl))
  refine (directed.image images).congr fun left first right second => ?_
  obtain ⟨v1, found⟩ := present left first
  obtain ⟨v2, other⟩ := present right second
  rw [compareBy, found, other]
  rfl

theorem compareSpec_compares {spec : SortSpec} {rows : List Row} (keys : SortKeys spec rows) :
    ComparesOn (compareSpec spec) {row | row ∈ rows} := by
  induction spec with
  | nil => exact ComparesOn.mk (fun _ _ _ _ => rfl) fun _ _ _ _ _ _ _ _ => rfl
  | cons entry rest ih =>
      have first := compareBy_compares (keys.present entry List.mem_cons_self) (keys.compares entry List.mem_cons_self)
      refine first.lexicographic (ih (SortKeys.mk ?_ ?_))
      · exact fun other member => keys.present other (List.mem_cons_of_mem _ member)
      · exact fun other member => keys.compares other (List.mem_cons_of_mem _ member)

theorem compareRows_compares {spec : SortSpec} {rows : List Row} (keys : SortKeys spec rows) :
    ComparesOn (compareRows spec) {item | item ∈ rows.map (decorate spec)} := by
  have images : ∀ item ∈ {item | item ∈ rows.map (decorate spec)}, item.2 ∈ {row | row ∈ rows} := by
    intro item member
    obtain ⟨row, inside, same⟩ := List.mem_map.mp member
    exact same ▸ inside
  refine ((compareSpec_compares keys).image images).congr fun left first right second => ?_
  obtain ⟨a, _, leftSame⟩ := List.mem_map.mp first
  obtain ⟨b, _, rightSame⟩ := List.mem_map.mp second
  subst leftSame rightSame
  exact compareKeys_spec spec a b

/-! ### Blocks merged layer by layer -/

theorem mergeTwo_eq (spec : SortSpec) (n : Nat) (xs ys : List Decorated) :
    mergeTwo spec n xs ys = (mergeBy (compareRows spec) xs ys).take n := by
  fun_induction mergeTwo spec n xs ys with
  | case1 => rw [List.take_zero]
  | case2 n ys => rw [nil_mergeBy]
  | case3 n xs _ => rw [mergeBy_nil]
  | case4 n a as b bs after ih => rw [mergeBy_cons, if_pos after, List.take_succ_cons, ih]
  | case5 n a as b bs after ih => rw [mergeBy_cons, if_neg after, List.take_succ_cons, ih]

/-- Neighbouring blocks put together. -/
def joinBlocks : List (List Decorated) → List (List Decorated)
  | a :: b :: rest => (a ++ b) :: joinBlocks rest
  | rest => rest

theorem joinBlocks_flatten (blocks : List (List Decorated)) : (joinBlocks blocks).flatten = blocks.flatten := by
  fun_induction joinBlocks blocks with
  | case1 a b rest ih => rw [List.flatten_cons, ih, List.flatten_cons, List.flatten_cons, List.append_assoc]
  | case2 rest _ => rfl

/-- A block sorted and cut. -/
def topOf (spec : SortSpec) (k : Nat) (block : List Decorated) : List Decorated :=
  (sortBy (compareRows spec) block).take k

theorem mergeTwo_topOf {spec : SortSpec} {k : Nat} {a b : List Decorated}
    (compares : ComparesOn (compareRows spec) {item | item ∈ a ++ b}) :
    mergeTwo spec k (topOf spec k a) (topOf spec k b) = topOf spec k (a ++ b) := by
  rw [mergeTwo_eq, topOf, topOf, take_mergeBy le_rfl le_rfl, mergeBy_sortBy compares, topOf]

theorem pairwise_topOf {spec : SortSpec} {k : Nat} {blocks : List (List Decorated)}
    (compares : ComparesOn (compareRows spec) {item | item ∈ blocks.flatten}) :
    pairwise spec k (blocks.map (topOf spec k)) = (joinBlocks blocks).map (topOf spec k) := by
  fun_induction joinBlocks blocks with
  | case1 a b rest ih =>
      rw [List.flatten_cons, List.flatten_cons, ← List.append_assoc] at compares
      have first : ComparesOn (compareRows spec) {item | item ∈ a ++ b} :=
        compares.mono fun _ member => List.mem_append_left _ member
      have later : ComparesOn (compareRows spec) {item | item ∈ rest.flatten} :=
        compares.mono fun _ member => List.mem_append_right _ member
      rw [List.map_cons, List.map_cons, pairwise, mergeTwo_topOf first, ih later, List.map_cons]
  | case2 rest single =>
      cases rest with
      | nil => rfl
      | cons a rest =>
          cases rest with
          | nil => rfl
          | cons b rest => exact absurd rfl (single a b rest)

theorem reduce_topOf {spec : SortSpec} {k : Nat} {blocks : List (List Decorated)}
    (compares : ComparesOn (compareRows spec) {item | item ∈ blocks.flatten}) :
    reduce spec k (blocks.map (topOf spec k)) = topOf spec k blocks.flatten := by
  generalize size : blocks.length = count
  induction count using Nat.strong_induction_on generalizing blocks with
  | _ count ih =>
      cases blocks with
      | nil =>
          rw [List.map_nil, reduce]
          exact List.take_nil.symm
      | cons a rest =>
          cases rest with
          | nil => rw [List.map_cons, List.map_nil, reduce, List.flatten_cons, List.flatten_nil, List.append_nil]
          | cons b rest =>
              have joined := pairwise_topOf (k := k) compares
              have lengths := congrArg List.length joined
              rw [length_pairwise, List.length_map, List.length_map] at lengths
              have shorter : (joinBlocks (a :: b :: rest)).length < count := by
                rw [List.length_cons, List.length_cons] at size lengths
                omega
              rw [List.map_cons, List.map_cons] at joined ⊢
              rw [reduce, joined, ih _ shorter (by rw [joinBlocks_flatten]; exact compares) rfl, joinBlocks_flatten]

theorem chunksOf_flatten {α : Type} (size : Nat) (items : List α) :
    (chunksOf size items).flatten = items := by
  fun_induction chunksOf size items with
  | case1 => rfl
  | case2 item items ih => rw [List.flatten_cons, ih, List.cons_append, List.take_append_drop]

theorem chunksOf_length {α : Type} {size : Nat} (positive : 0 < size) {items chunk : List α}
    (member : chunk ∈ chunksOf size items) : chunk.length ≤ size := by
  fun_induction chunksOf size items with
  | case1 => cases member
  | case2 item items ih =>
      cases List.mem_cons.mp member with
      | inl same =>
          subst same
          rw [List.length_cons, List.length_take]
          omega
      | inr later => exact ih later

theorem sortRowsTopK_eq {spec : SortSpec} (k : Int) {rows : List Row} (keys : SortKeys spec rows) :
    sortRowsTopK spec k rows = (sortRows spec rows).take k.toNat := by
  rw [sortRowsTopK, sortRows]
  split
  · rename_i low
    rw [Int.toNat_of_nonpos low, List.take_zero]
  · rename_i positive
    have positive : 0 < k.toNat := by omega
    split
    · rfl
    · have layer : ((chunksOf k.toNat rows).map fun chunk => sortBy (compareRows spec) (chunk.map (decorate spec))) =
          ((chunksOf k.toNat rows).map (List.map (decorate spec))).map (topOf spec k.toNat) := by
        rw [List.map_map]
        refine List.map_congr_left fun chunk member => ?_
        rw [Function.comp_apply, topOf, List.take_of_length_le]
        rw [length_sortBy, List.length_map]
        exact chunksOf_length positive member
      have whole : ((chunksOf k.toNat rows).map (List.map (decorate spec))).flatten = rows.map (decorate spec) := by
        rw [← List.map_flatten, chunksOf_flatten]
      rw [layer, reduce_topOf (by rw [whole]; exact compareRows_compares keys), whole, topOf, List.map_take]

/-- Rows that compare equal stay in the order they came in. -/
theorem sortRows_ties {spec : SortSpec} {rows : List Row} (keys : SortKeys spec rows) {row : Row} (member : row ∈ rows) :
    (sortRows spec rows).filter (fun other => compareSpec spec row other == .eq) =
      rows.filter fun other => compareSpec spec row other == .eq := by
  rw [sortRows]
  split
  · rfl
  · have tied := @tiedWith_sortBy _ (compareRows spec) (decorate spec row) (rows.map (decorate spec))
      ((compareRows_compares keys).mono fun item inside => by
        cases inside with
        | inl same => exact same ▸ List.mem_map_of_mem member
        | inr inside => exact inside)
    have forget : ∀ items : List Decorated, (∀ item ∈ items, item ∈ rows.map (decorate spec)) →
        (items.map (·.2)).filter (fun other => compareSpec spec row other == .eq) =
          (tiedWith (compareRows spec) (decorate spec row) items).map (·.2) := by
      intro items within
      rw [List.filter_map, tiedWith]
      refine congrArg _ (List.filter_congr fun item inside => ?_)
      obtain ⟨other, _, same⟩ := List.mem_map.mp (within item inside)
      subst same
      exact congrArg (· == Ordering.eq) (compareKeys_spec spec row other).symm
    rw [forget _ fun item inside => mem_sortBy.mp inside, tied, ← forget _ fun _ inside => inside, List.map_map]
    exact congrArg _ (List.map_id rows)

/-! ### Rows behind the cut -/

/-- What a transformation keeps of all rows. -/
def keepAll (transform : Row → Except String (Option Row)) (rows : List Row) : Except String (List Row) := do
  let results ← rows.mapM transform
  pure (results.filterMap id)

theorem keepAll_cons (transform : Row → Except String (Option Row)) (row : Row) (rows : List Row) :
    keepAll transform (row :: rows) = (do
      let result ← transform row
      let others ← keepAll transform rows
      pure (result.toList ++ others)) := by
  simp only [keepAll, List.mapM_cons, bind_assoc, pure_bind]
  cases transform row with
  | error error => rfl
  | ok result =>
      cases rows.mapM transform with
      | error error => rfl
      | ok results =>
          cases result with
          | none => rfl
          | some computed => rfl

theorem foldlM_limit (transform : Row → Except String (Option Row)) {room : Int} (positive : 0 ≤ room)
    (kept : List Row) (rows : List Row) :
    (do
      let state ← rows.foldlM (limitStep transform) (room, kept)
      pure state.2.reverse) =
    (do
      let found ← keepAll transform rows
      pure (kept.reverse ++ found.take room.toNat)) := by
  induction rows generalizing room kept with
  | nil => exact congrArg Except.ok (by rw [List.reverse_nil, List.filterMap_nil, List.take_nil, List.append_nil])
  | cons row rest ih =>
      rw [List.foldlM_cons, keepAll_cons]
      simp only [bind_assoc, pure_bind, limitStep]
      cases transform row with
      | error error => rfl
      | ok result =>
          cases result with
          | none => exact ih positive kept
          | some computed =>
              by_cases room' : room > 0
              · have step : room.toNat = (room - 1).toNat + 1 := by omega
                have later := ih (by omega : 0 ≤ room - 1) (computed :: kept)
                simp only [List.reverse_cons, List.append_assoc, List.singleton_append] at later
                rw [step]
                simp only [if_pos room']
                exact later
              · have none : room.toNat = 0 := by omega
                have later := ih positive kept
                rw [none] at later ⊢
                simp only [if_neg room', List.take_zero] at later ⊢
                exact later

theorem rowsLimited_eq (limit : Int) (transform : Row → Except String (Option Row)) (rows : List Row) :
    rowsLimited limit transform rows = (do
      let found ← keepAll transform rows
      pure (found.take limit.toNat)) := by
  have spread := foldlM_limit transform (le_max_left 0 limit) [] rows
  have same : (max 0 limit).toNat = limit.toNat := by omega
  rw [same] at spread
  exact spread

section Limit

variable [Host] [Printer]

theorem keepAll_compute (outer : Row) (items : List (String × Expr)) (rows : List Row) :
    keepAll (fun row => some <$> computeRow outer items row) rows = rows.mapM (computeRow outer items) := by
  induction rows with
  | nil => rfl
  | cons row rest ih =>
      rw [keepAll_cons, ih, List.mapM_cons]
      cases computeRow outer items row with
      | error error => rfl
      | ok computed => rfl

theorem keepAll_filter (outer : Row) (condition : Expr) (rows : List Row) :
    keepAll (fun row => do
      let kept ← evalCondForRow condition (row ++ outer)
      pure (if kept then some row else none)) rows = filterRows outer condition rows := by
  induction rows with
  | nil => rfl
  | cons row rest ih =>
      rw [keepAll_cons, ih, filterRows]
      cases evalCondForRow condition (row ++ outer) with
      | error error => rfl
      | ok kept =>
          cases kept with
          | true => rfl
          | false => rfl

/-- An operator under a LIMIT gives the first rows of the operator on its own, or fails with
it; a sort needs rows that its columns order. -/
theorem limited_eq (operator : Fused) (outer : Row) (n : Int) (rows : List Row)
    (ordered : ∀ spec, operator = .sort spec → SortKeys spec rows) :
    (operator.limited outer n rows = (do
      let result ← operator.run outer rows
      pure (result.take n.toNat))) ∧
    ∀ spec, operator = .sort spec → ∀ row ∈ rows,
      (sortRows spec rows).filter (fun other => compareSpec spec row other == .eq) =
        rows.filter fun other => compareSpec spec row other == .eq := by
  refine And.intro ?_ fun spec same row member => sortRows_ties (ordered spec same) member
  cases operator with
  | compute items => rw [Fused.limited, rowsLimited_eq, keepAll_compute, Fused.run]
  | filter condition => rw [Fused.limited, rowsLimited_eq, keepAll_filter, Fused.run]
  | sort spec =>
      rw [Fused.limited, Fused.run, sortRowsTopK_eq n (ordered spec rfl)]
      rfl

end Limit

def twoRows : List Row := [[("a", .int 1)], [("a", .int 2)]]

def twoValues : List Value := [.int 1, .int 2]

theorem twoValues_compare : ComparesOn compareValue {value | value ∈ twoValues} where
  opposite := (by decide : ∀ a ∈ twoValues, ∀ b ∈ twoValues, compareValue b a = (compareValue a b).swap)
  transitive := (by decide : ∀ a ∈ twoValues, ∀ b ∈ twoValues, ∀ c ∈ twoValues,
    (compareValue a b).isLE → (compareValue b c).isLE → (compareValue a c).isLE)

theorem twoRows_keys (spec : SortSpec) (same : Fused.sort [("a", .desc)] = Fused.sort spec) : SortKeys spec twoRows := by
  cases same
  refine SortKeys.mk (fun entry member row inside => ?_) fun entry member => twoValues_compare.mono fun value found => ?_
  · cases List.mem_singleton.mp member
    cases List.mem_cons.mp inside with
    | inl same => exact Exists.intro (.int 1) (by cases same; rfl)
    | inr rest => exact Exists.intro (.int 2) (by cases List.mem_singleton.mp rest; rfl)
  · cases List.mem_singleton.mp member
    obtain ⟨row, inside, found⟩ := found
    cases List.mem_cons.mp inside with
    | inl same =>
        cases same
        cases found
        exact List.mem_cons_self
    | inr rest =>
        cases List.mem_singleton.mp rest
        cases found
        exact List.mem_cons_of_mem _ List.mem_cons_self

theorem limited_small :
    @Fused.limited silentHost silentPrinter [] 1 twoRows (.sort [("a", .desc)]) = .ok [[("a", .int 2)]] :=
  (@limited_eq silentHost silentPrinter (.sort [("a", .desc)]) [] 1 twoRows twoRows_keys).1

end ChuSQL.Engine
