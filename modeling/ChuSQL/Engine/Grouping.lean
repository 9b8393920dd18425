import ChuSQL.Model.Same
import ChuSQL.Engine.Expr

/-! GROUP BY and DISTINCT. Groups are kept apart by the derived equality of their keys,
while DISTINCT compares canonical values. -/

set_option autoImplicit false

namespace ChuSQL.Engine

open Library Model

/-- Keep the first row of each combination of canonical values. -/
def distinctLoop (seen : List (List Value)) : List Row → List Row
  | [] => []
  | row :: rows =>
      let key := (row.map (·.2)).map canonicalValue
      if seen.any (Value.sameAll key) then distinctLoop seen rows else row :: distinctLoop (key :: seen) rows

def distinctRows (rows : List Row) : List Row := distinctLoop [] rows

section Groups

variable [Host] [Printer]

def groupKey (outer : Row) (keys : List Expr) (row : Row) : Except String (List Value) :=
  keys.mapM fun key => evalExpr key (row ++ outer)

/-- Put each row into the group of its key; the groups stay in the order they were met. -/
def groupRowsFrom (outer : Row) (keys : List Expr) (groups : List (List Value × List Row))
    (order : List (List Value)) : List Row → Except String (List (List Value × List Row))
  | [] => pure (order.reverse.map fun key => (key, (Grouping.lookupGroup Value.sameAll key groups).reverse))
  | row :: rows => do
      let key ← groupKey outer keys row
      let order := if Grouping.hasGroup Value.sameAll key groups then order else key :: order
      groupRowsFrom outer keys (Grouping.insertGroup Value.sameAll key row groups) order rows

def groupRows (outer : Row) (keys : List Expr) (rows : List Row) :
    Except String (List (List Value × List Row)) := groupRowsFrom outer keys [] [] rows

/-- The built-in of an aggregate with its argument, and nothing of any other expression. -/
def aggregateOf : Expr → Option (Builtin × Option Expr)
  | .countAll => some (.countAll, none)
  | .aggregate builtin argument => some (builtin, some argument)
  | _ => none

def valuesOf (outer : Row) (expression : Expr) (rows : List Row) : Except String (List Value) :=
  rows.mapM fun row => evalExpr expression (row ++ outer)

def evalAgg (outer : Row) (expression : Expr) (rows : List Row) : Except String Value :=
  match aggregateOf expression with
  | none => .error "only COUNT, SUM, AVG, MIN and MAX can be aggregated"
  | some (builtin, argument) => do
      let values ← (match argument with
        | none => .ok []
        | some argument => valuesOf outer argument rows)
      invokeBuiltin builtin rows.length values

/-- The output row of a group: its key and its aggregates. -/
def oneGroup (outer : Row) (names : List String) (aggregates : List (String × Expr))
    (group : List Value × List Row) : Except String Row := do
  let values ← aggregates.mapM fun aggregate => evalAgg outer aggregate.2 group.2
  pure (names.zip group.1 ++ (aggregates.map (·.1)).zip values)

def evalAggregate (outer : Row) (keys aggregates : List (String × Expr)) (rows : List Row) :
    Except String (List Row) := do
  let groups ← groupRows outer (keys.map (·.2)) rows
  let top := if keys.isEmpty && groups.isEmpty then [([], [])] else groups
  top.mapM (oneGroup outer (keys.map (·.1)) aggregates)

/-! ### What the loops compute -/

theorem groupRowsFrom_eq {outer : Row} {keys : List Expr} {rows : List Row} {values : List (List Value)}
    (evaluated : List.Forall₂ (fun row key => groupKey outer keys row = .ok key) rows values)
    (groups : List (List Value × List Row)) (order : List (List Value)) :
    groupRowsFrom outer keys groups order rows =
      .ok (Grouping.groupLoop Value.sameAll (values.zip rows) groups order) := by
  induction evaluated generalizing groups order with
  | nil => rfl
  | cons first _ ih =>
      rw [groupRowsFrom, first]
      exact ih _ _

end Groups

theorem distinctLoop_eq (names : List String) (keys : List (List Value)) (kept : List (List Value))
    (width : ∀ key ∈ keys, key.length = names.length) :
    distinctLoop (kept.map (·.map canonicalValue)) (keys.map names.zip) =
      (Grouping.firstsAfter keysEqual kept keys).map names.zip := by
  induction keys generalizing kept with
  | nil => rfl
  | cons key keys ih =>
      have values : (names.zip key).map (·.2) = key :=
        List.map_snd_zip (width key List.mem_cons_self).le
      have member : (kept.map (·.map canonicalValue)).any (Value.sameAll (key.map canonicalValue)) =
          kept.any (keysEqual key) := by
        rw [List.any_map]
        rfl
      rw [List.map_cons, distinctLoop, Grouping.firstsAfter]
      simp only [values, member]
      have later : ∀ other ∈ keys, other.length = names.length := fun other inside =>
        width other (List.mem_cons_of_mem _ inside)
      split
      · exact ih kept later
      · rw [List.map_cons, ← ih (key :: kept) later, List.map_cons]

/-- DISTINCT on the key columns keeps the first row of each combination of equal keys. -/
theorem distinctRows_eq (names : List String) (keys : List (List Value))
    (width : ∀ key ∈ keys, key.length = names.length) :
    distinctRows (keys.map names.zip) = (Grouping.firsts keysEqual keys).map names.zip :=
  distinctLoop_eq names keys [] width

/-! ### Grouping by equality -/

/-- Some groups are those of the equality of key values: each holds, in order, the rows
whose key equals its own, each key has exactly one, and they are the rows that DISTINCT
keeps of the keys. -/
structure GroupedByEquality (names : List String) (keys : List (List Value)) (rows : List Row)
    (groups : List (List Value × List Row)) : Prop where
  members : ∀ group ∈ groups, group.2 = Grouping.itemsOf keysEqual group.1 (keys.zip rows)
  exactlyOne : ∀ key ∈ keys, ∃! group, group ∈ groups ∧ keysEqual group.1 key = true
  distinct : (groups.map fun group => names.zip group.1) = distinctRows (keys.map names.zip)

/-- No key holds a NaN, and keys are only equal when they are alike. -/
def AlikeWhenEqual (keys : List (List Value)) : Prop :=
  (∀ key ∈ keys, ∀ value ∈ key, valuesEqual value value = true) ∧
    ∀ a ∈ keys, ∀ b ∈ keys, keysEqual a b = true → Value.sameAll a b = true

section Claim

variable [Host] [Printer] {outer : Row} {exprs : List Expr} {rows : List Row} {keys : List (List Value)}

theorem groupRows_eq (evaluated : rows.mapM (groupKey outer exprs) = .ok keys) :
    groupRows outer exprs rows =
      .ok ((Grouping.firsts Value.sameAll keys).map fun key =>
        (key, Grouping.itemsOf Value.sameAll key (keys.zip rows))) := by
  have each := mapM_eq_ok.mp evaluated
  rw [groupRows, groupRowsFrom_eq each, Grouping.groupLoop_start Value.sameAll_equivalence,
    List.map_fst_zip each.length_eq.symm.le]

theorem group_by_equality_iff (names : List String) (width : names.length = exprs.length)
    (evaluated : rows.mapM (groupKey outer exprs) = .ok keys) :
    (∃ groups, groupRows outer exprs rows = .ok groups ∧ GroupedByEquality names keys rows groups) ↔
      AlikeWhenEqual keys := by
  have values : ∀ key ∈ keys, key.length = names.length := by
    intro key member
    obtain ⟨row, _, evaluates⟩ := exists_of_mem_right (mapM_eq_ok.mp evaluated) member
    rw [width, ← (mapM_eq_ok.mp evaluates).length_eq]
  rw [groupRows_eq evaluated]
  constructor
  · intro grouped
    obtain ⟨groups, result, held⟩ := grouped
    cases result
    have number : ∀ key ∈ keys, ∀ value ∈ key, valuesEqual value value = true := by
      intro key member
      obtain ⟨group, inside, _⟩ := held.exactlyOne key member
      exact valuesEqual_of_keysEqual (keysEqual_equivalence.trans (keysEqual_equivalence.symm inside.2) inside.2)
    refine ⟨number, fun a first b second equal => ?_⟩
    -- both keys have a group, and the two groups answer for one key
    obtain ⟨a', met, alike⟩ := Grouping.exists_first first (sameAll_refl (number a first))
    obtain ⟨b', kept, also⟩ := Grouping.exists_first second (sameAll_refl (number b second))
    have unique := (held.exactlyOne a first).unique
      ⟨List.mem_map_of_mem met, keysEqual_of_same (Value.sameAll_symm alike)⟩
      ⟨List.mem_map_of_mem kept, keysEqual_equivalence.trans (keysEqual_of_same (Value.sameAll_symm also))
        (keysEqual_equivalence.symm equal)⟩
    rw [Prod.mk.injEq] at unique
    exact Value.sameAll_trans alike (unique.1 ▸ Value.sameAll_symm also)
  · intro alike
    obtain ⟨number, equals⟩ := alike
    have agree : ∀ a ∈ keys, ∀ b ∈ keys, Value.sameAll a b = keysEqual a b := fun a first b second =>
      Bool.eq_iff_iff.mpr ⟨keysEqual_of_same, equals a first b second⟩
    have firsts := Grouping.firsts_congr agree
    refine ⟨_, rfl, fun group member => ?_, fun key member => ?_, ?_⟩
    · obtain ⟨key, kept, rfl⟩ := List.mem_map.mp member
      refine congrArg (List.map _) (List.filter_congr fun item inside => ?_)
      exact agree key (Grouping.mem_firsts kept) item.1 (List.of_mem_zip inside).1
    · obtain ⟨first, kept, equal⟩ := Grouping.exists_first member (keysEqual_refl (number key member))
      refine ⟨_, ⟨List.mem_map_of_mem (firsts ▸ kept), keysEqual_equivalence.symm equal⟩, fun other held => ?_⟩
      obtain ⟨second, met, rfl⟩ := List.mem_map.mp held.1
      have one : second = first := Grouping.eq_of_mem_firsts keysEqual_equivalence (firsts ▸ met) kept
        (keysEqual_equivalence.trans held.2 equal)
      rw [one]
    · rw [List.map_map, distinctRows_eq names keys values, ← firsts]
      rfl

end Claim

/-! ### An integer and the double equal to it -/

def mixedRows : List Row := [[("n", .int 1)], [("n", .float (fromIntegral 1))]]

/-- The two rows have equal keys, DISTINCT keeps one of them, and there are two groups. -/
theorem mixed_keys_split :
    keysEqual [.int 1] [.float (fromIntegral 1)] = true ∧ (distinctRows mixedRows).length = 1 ∧
      (@groupRows silentHost silentPrinter [] [.col "n"] mixedRows).toOption.map (·.length) = some 2 := by
  decide +kernel

def alikeRows : List Row := [[("n", .int 1)], [("n", .int 2)], [("n", .int 1)]]

theorem group_by_equality_alike :
    ∃ groups, @groupRows silentHost silentPrinter [] [.col "n"] alikeRows = .ok groups ∧
      GroupedByEquality ["n"] [[.int 1], [.int 2], [.int 1]] alikeRows groups := by
  refine (@group_by_equality_iff silentHost silentPrinter [] [.col "n"] alikeRows _ ["n"] rfl rfl).mpr ⟨?_, ?_⟩ <;> decide +kernel

end ChuSQL.Engine
