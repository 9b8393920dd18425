import ChuSQL.Library.Blocks
import ChuSQL.Engine.Join

/-! A hash join gives the rows of the nested loop, in its order, as long as no integer
meets a double beyond 2^53 that it is rounded to. -/

set_option autoImplicit false

namespace ChuSQL.Engine

open Library Model

/-! ### Values of comparable types -/

section Compare

variable {a b : ColumnType} {x y : Value}

theorem typeClassOf_ne_null (held : ofType a x = true) (filled : isNull x = false) :
    typeClassOf a ≠ .null := by
  intro equal
  rw [ofType, equal, Bool.and_eq_true] at held
  cases x <;> first | exact absurd filled (by decide) | exact absurd held.1 Bool.false_ne_true

/-- Values held by columns of comparable types can be compared. -/
theorem comparable_of_type (comparable : comparableTypes a b = true) (left : ofType a x = true)
    (right : ofType b y = true) (first : isNull x = false) (second : isNull y = false) :
    comparableValue .eq x y = true := by
  have filled := typeClassOf_ne_null left first
  have also := typeClassOf_ne_null right second
  rw [comparableTypes_base] at comparable
  rw [← typeClassOf_base] at filled also
  obtain ⟨classes, equal, capable⟩ := comparableClasses_of_ne comparable filled also
  rw [ofType, ← typeClassOf_base, Bool.and_eq_true] at left right
  have plain := baseType_ne_domain a
  generalize baseType a = p at *
  generalize baseType b = q at *
  obtain ⟨leftClass, leftBelongs⟩ := left
  obtain ⟨rightClass, rightBelongs⟩ := right
  cases x <;> cases y
  case enum.enum name labels label other others second =>
    rw [holdsClass, beq_iff_eq] at leftClass
    cases equal (.inl leftClass)
    cases p with
    | enum expected supplied =>
        simp only [belongs, Bool.and_eq_true, beq_iff_eq] at leftBelongs rightBelongs
        simp [comparableValue, ← leftBelongs.1.1, ← leftBelongs.1.2, ← rightBelongs.1.1, ← rightBelongs.1.2]
    | domain name base => exact absurd rfl (plain name base)
    | _ => cases leftClass
  case runtime.runtime id value other content =>
    rw [holdsClass, beq_iff_eq] at leftClass
    have able := capable leftClass
    cases equal (.inr leftClass)
    cases p with
    | runtime expected =>
        simp only [belongs, Bool.and_eq_true, beq_iff_eq] at leftBelongs rightBelongs
        obtain ⟨rfl, valid⟩ := leftBelongs
        obtain ⟨rfl, also⟩ := rightBelongs
        simp [comparableValue, able, valid, also]
    | domain name base => exact absurd rfl (plain name base)
    | _ => cases leftClass
  all_goals first
    | rfl
    | exact absurd first (by decide)
    | exact absurd second (by decide)
    | simp only [holdsClass, Bool.or_eq_true, beq_iff_eq] at leftClass rightClass
      grind

end Compare

/-! ### The nested loop -/

/-- The rows of a left row: with each right row that it matches, or filled with NULL. -/
def joinedRows (kind : JoinKind) (ncols : List String) (matched : Row → Row → Bool) (rrows : List Row) (l : Row) :
    List Row :=
  if (rrows.filter (matched l)).isEmpty then unmatched kind l ncols
  else (rrows.filter (matched l)).map (l ++ ·)

def nestedLoop (kind : JoinKind) (ncols : List String) (matched : Row → Row → Bool) (lrows rrows : List Row) :
    List Row := lrows.flatMap (joinedRows kind ncols matched rrows)

section Loops

variable {kind : JoinKind} {ncols : List String} {matched fewer : Row → Row → Bool} {lrows rrows : List Row}

theorem nestedLoop_congr (agree : ∀ l ∈ lrows, ∀ r ∈ rrows, fewer l r = matched l r) :
    nestedLoop kind ncols fewer lrows rrows = nestedLoop kind ncols matched lrows rrows := by
  refine List.flatMap_congr fun l inside => ?_
  rw [joinedRows, joinedRows, List.filter_congr (agree l inside)]

theorem joinedRows_length_le {l : Row} (implied : ∀ r, fewer l r = true → matched l r = true) :
    (joinedRows kind ncols fewer rrows l).length ≤ (joinedRows kind ncols matched rrows l).length := by
  have within := List.monotone_filter_right rrows implied
  rw [joinedRows, joinedRows]
  cases few : rrows.filter (fewer l) with
  | nil =>
      cases rrows.filter (matched l) with
      | nil => exact le_rfl
      | cons => cases kind <;> simp [unmatched]
  | cons first rest =>
      rw [few] at within
      cases many : rrows.filter (matched l) with
      | nil => simp [many] at within
      | cons =>
          rw [many] at within
          simpa using within.length_le

/-- A left row has the same rows by two conditions only where the conditions agree. -/
theorem joinedRows_agree {l : Row} (implied : ∀ r, fewer l r = true → matched l r = true)
    (filled : ∀ r ∈ rrows, matched l r = true → r ≠ nullRow ncols)
    (equal : joinedRows kind ncols fewer rrows l = joinedRows kind ncols matched rrows l) :
    ∀ r ∈ rrows, fewer l r = matched l r := by
  have hits : rrows.filter (fewer l) = rrows.filter (matched l) := by
    have within := List.monotone_filter_right rrows implied
    rw [joinedRows, joinedRows] at equal
    cases few : rrows.filter (fewer l) with
    | nil =>
        cases many : rrows.filter (matched l) with
        | nil => rfl
        | cons r rest =>
            obtain ⟨inside, holds⟩ := List.mem_filter.mp (many ▸ List.mem_cons_self : r ∈ rrows.filter (matched l))
            have differ := filled r inside holds
            cases kind with
            | inner => simp [few, many, unmatched] at equal
            | left => simp [few, many, unmatched, differ.symm] at equal
    | cons first rest =>
        cases many : rrows.filter (matched l) with
        | nil => simp [few, many] at within
        | cons =>
            simp only [few, many, List.isEmpty_cons, Bool.false_eq_true, if_false] at equal
            exact (List.map_injective_iff.mpr (List.append_right_injective l)) equal
  intro r inside
  cases holds : matched l r with
  | false => exact Bool.eq_false_iff.mpr fun also => Bool.eq_false_iff.mp holds (implied r also)
  | true =>
      have member : r ∈ rrows.filter (matched l) := List.mem_filter.mpr ⟨inside, holds⟩
      rw [← hits] at member
      exact (List.mem_filter.mp member).2

theorem nestedLoop_agree (implied : ∀ l r, fewer l r = true → matched l r = true)
    (filled : ∀ l ∈ lrows, ∀ r ∈ rrows, matched l r = true → r ≠ nullRow ncols) :
    nestedLoop kind ncols fewer lrows rrows = nestedLoop kind ncols matched lrows rrows ↔
      ∀ l ∈ lrows, ∀ r ∈ rrows, fewer l r = matched l r := by
  constructor
  · intro equal l inside
    refine @joinedRows_agree kind ncols _ _ _ _ (implied l) (filled l inside) ?_
    exact Blocks.eq_of_flatMap_eq (fun l _ => joinedRows_length_le (implied l)) equal l inside
  · exact nestedLoop_congr

end Loops

/-! ### Buckets -/

/-- The keys of the two rows are equal as hashing tells. -/
def hashMatched (keys : EquiKeys) (l r : Row) : Bool :=
  match joinKeyOf keys.left l, joinKeyOf keys.right r with
  | some x, some y => x.same y
  | _, _ => false

theorem same_equivalence : Grouping.PartialEquivalence Value.same := ⟨Value.same_symm, Value.same_trans⟩

/-- A bucket holds the rows of its key, the last first. -/
theorem lookup_foldl (column : String) (key : Value) (rows : List Row) (buckets : List (Value × List Row)) :
    Grouping.lookupGroup Value.same key (rows.foldl (addToBucket column) buckets) =
      (rows.filter fun row => (joinKeyOf column row).any key.same).reverse ++
        Grouping.lookupGroup Value.same key buckets := by
  induction rows generalizing buckets with
  | nil => rfl
  | cons row rows ih =>
      rw [List.foldl_cons, ih, addToBucket]
      cases found : joinKeyOf column row with
      | none => simp [found]
      | some other =>
          rw [Grouping.lookupGroup_insertGroup same_equivalence]
          cases equal : key.same other with
          | false => simp [found, equal]
          | true => simp [found, equal]

theorem lookup_reversed (key : Value) (buckets : List (Value × List Row)) :
    Grouping.lookupGroup Value.same key (buckets.map fun bucket => (bucket.1, bucket.2.reverse)) =
      (Grouping.lookupGroup Value.same key buckets).reverse := by
  induction buckets with
  | nil => rfl
  | cons bucket buckets ih =>
      rw [List.map_cons, Grouping.lookupGroup, Grouping.lookupGroup]
      split
      · rfl
      · exact ih

theorem hashJoin_eq (kind : JoinKind) (keys : EquiKeys) (ncols : List String) (lrows rrows : List Row) :
    hashJoin kind keys ncols lrows rrows = nestedLoop kind ncols (hashMatched keys) lrows rrows := by
  refine List.flatMap_congr fun l _ => ?_
  rw [joinedRows]
  cases found : joinKeyOf keys.left l with
  | none => simp [hashMatched, found]
  | some key =>
      have matched : hashMatched keys l = fun row => (joinKeyOf keys.right row).any key.same := by
        funext row
        rw [hashMatched, found]
        cases joinKeyOf keys.right row <;> rfl
      simp only [matched, lookup_reversed, bucketsOf, lookup_foldl, Grouping.lookupGroup, List.append_nil,
        List.reverse_reverse]
      cases rrows.filter fun row => (joinKeyOf keys.right row).any key.same <;> rfl

/-! ### Columns of the layout -/

/-- The value of a column, NULL where the row has no such column. -/
def keyValue (column : String) (row : Row) : Value := (lookup column row).getD .null

/-- A column of the layout, by its name or at its place. -/
def ColumnOf (layout : List String) (name : String) (expression : Expr) : Prop :=
  expression = .col name ∨ ∃ slot : Nat, expression = .columnSlot slot name ∧ layout[slot]? = some name

theorem lookup_of_mem {name : String} {row : Row} (member : name ∈ row.map (·.1)) (rest : Row) :
    lookup name row = some (keyValue name row) ∧ lookup name (row ++ rest) = lookup name row := by
  induction row with
  | nil => cases member
  | cons entry row ih =>
      by_cases here : entry.1 = name
      · simp [keyValue, lookup, here]
      · have later := ih (by simpa [Ne.symm here] using member)
        simpa [keyValue, lookup, here] using later

section Columns

variable [Host] [Printer]

theorem evalExpr_column {layout : List String} {name : String} {expression : Expr}
    (column : ColumnOf layout name expression) {row : Row} (laid : row.map (·.1) = layout)
    (once : layout.count name = 1) (outer : Row) :
    evalExpr expression (row ++ outer) = .ok (keyValue name row) := by
  have member : name ∈ row.map (·.1) := laid ▸ List.count_pos_iff.mp (by omega)
  obtain ⟨found, first⟩ := lookup_of_mem member outer
  cases column with
  | inl named =>
      rw [named, evalExpr, first, found]
  | inr placed =>
      obtain ⟨slot, rfl, place⟩ := placed
      rw [← laid, List.getElem?_map, Option.map_eq_some_iff] at place
      obtain ⟨⟨key, value⟩, place, rfl⟩ := place
      have value := lookup_of_place (laid ▸ once) place
      obtain ⟨inside, entry⟩ := List.getElem?_eq_some_iff.mp place
      have dropped : (row ++ outer).drop slot = row[slot] :: (row.drop (slot + 1) ++ outer) := by
        rw [List.drop_append_of_le_length inside.le, List.drop_eq_getElem_cons inside, List.cons_append]
      rw [evalExpr, slotValue, Int.toNat_natCast, dropped, entry]
      simp [keyValue, value]

end Columns

/-! ### The condition -/

/-- Two keys that are not NULL, and equal in the order. -/
def equalKeys (x y : Value) : Bool := !isNull x && !isNull y && compareValue x y == .eq

/-- A condition that equates a left and a right column, as analysis leaves it: each name
is found once, the columns are bound or still named, and their types may be compared. -/
structure Equates (lcols rcols : List String) (a b : ColumnType) (cond : Expr) (keys : EquiKeys) : Prop where
  left : keys.left ∈ lcols
  right : keys.right ∈ rcols
  leftOnce : (lcols ++ rcols).count keys.left = 1
  rightOnce : (lcols ++ rcols).count keys.right = 1
  equality : ∃ x y, ColumnOf (lcols ++ rcols) keys.left x ∧ ColumnOf (lcols ++ rcols) keys.right y ∧
    (cond = .binary .eq x y ∧ comparableTypes a b = true ∨
      cond = .binary .eq y x ∧ comparableTypes b a = true)

/-- Rows of a layout, whose values under a name are of a type. -/
def LaidOut (columns : List String) (name : String) (type : ColumnType) (rows : List Row) : Prop :=
  ∀ row ∈ rows, row.map (·.1) = columns ∧ ofType type (keyValue name row) = true

theorem equalKeys_comm (x y : Value) : equalKeys x y = equalKeys y x := by
  have swapped : compareValue x y = .eq ↔ compareValue y x = .eq := by
    rw [compareValue_eq_iff, compareValue_eq_iff]
    have symmetric : valuesEqual x y = true ↔ valuesEqual y x = true := ⟨valuesEqual_symm, valuesEqual_symm⟩
    rw [symmetric]
    exact or_congr_right or_comm
  rw [Bool.eq_iff_iff]
  simp only [equalKeys, Bool.and_eq_true, beq_iff_eq, swapped]
  rw [and_comm (a := (!isNull x) = true)]

theorem columnName_of {layout : List String} {name : String} {x : Expr} (column : ColumnOf layout name x) :
    columnName x = some name := by
  cases column with
  | inl named => rw [named, columnName]
  | inr placed =>
      obtain ⟨slot, rfl, _⟩ := placed
      rw [columnName]

/-- A column has no subqueries to replace. -/
theorem column_plain {layout : List String} {name : String} {x : Expr} (column : ColumnOf layout name x)
    {m : Type → Type} [Monad m] (run : Subquery → Row → m (Except String (List Row))) (env : Row) :
    subquerySlotsIn x = [] ∧ substSubqueries run x env = pure (.ok x) := by
  cases column with
  | inl named => rw [named, subquerySlotsIn, substSubqueries] <;> simp
  | inr placed =>
      obtain ⟨slot, rfl, _⟩ := placed
      rw [subquerySlotsIn, substSubqueries] <;> simp

section Equality

variable [Host] [Printer]

/-- The equality of two values that can be compared. -/
theorem evalCond_equality {x y : Expr} {left right : Value} {env : Row} (first : evalExpr x env = .ok left)
    (second : evalExpr y env = .ok right)
    (comparable : isNull left = false → isNull right = false → comparableValue .eq left right = true) :
    evalCondForRow (.binary .eq x y) env = .ok (equalKeys left right) := by
  have value : evalExpr (.binary .eq x y) env = compareValues .eq (· == .eq) left right := by
    rw [evalExpr, first, second]
    rfl
  rw [evalCondForRow, value, compareValues, equalKeys]
  cases leftNull : isNull left with
  | true => rfl
  | false =>
      cases rightNull : isNull right with
      | true => rfl
      | false =>
          rw [comparable leftNull rightNull]
          rfl

end Equality

section Condition

variable {lcols rcols : List String} {a b : ColumnType} {cond : Expr} {keys : EquiKeys}

namespace Equates

variable (equates : Equates lcols rcols a b cond keys)

include equates

theorem apart : keys.left ∉ rcols ∧ keys.right ∉ lcols := by
  have first := equates.leftOnce
  have second := equates.rightOnce
  rw [List.count_append] at first second
  have here := List.count_pos_iff.mpr equates.left
  have there := List.count_pos_iff.mpr equates.right
  exact ⟨List.count_eq_zero.mp (by omega), List.count_eq_zero.mp (by omega)⟩

/-- The two columns are recognized. -/
theorem equiKeys_eq : equiKeys lcols rcols cond = some keys := by
  obtain ⟨_, absent⟩ := equates.apart
  have differ : keys.left ≠ keys.right := fun same => absent (same ▸ equates.left)
  obtain ⟨x, y, first, second, shape⟩ := equates.equality
  cases shape with
  | inl straight =>
      rw [straight.1, equiKeys, columnName_of first, columnName_of second]
      simp [differ, equates.left, equates.right]
  | inr flipped =>
      rw [flipped.1, equiKeys, columnName_of first, columnName_of second]
      simp [differ.symm, equates.left, equates.right, absent]

/-- The condition holds of two rows when their keys are equal. -/
theorem evalCond_eq [Host] [Printer] {l r : Row} (laidLeft : l.map (·.1) = lcols ∧ ofType a (keyValue keys.left l) = true)
    (laidRight : r.map (·.1) = rcols ∧ ofType b (keyValue keys.right r) = true) (outer : Row) :
    evalCondForRow cond (l ++ r ++ outer) = .ok (equalKeys (keyValue keys.left l) (keyValue keys.right r)) := by
  obtain ⟨x, y, first, second, shape⟩ := equates.equality
  have laid : (l ++ r).map (·.1) = lcols ++ rcols := by rw [List.map_append, laidLeft.1, laidRight.1]
  have leftValue : keyValue keys.left (l ++ r) = keyValue keys.left l := by
    rw [keyValue, (lookup_of_mem (laidLeft.1 ▸ equates.left) r).2, keyValue]
  have rightValue : keyValue keys.right (l ++ r) = keyValue keys.right r := by
    rw [keyValue, lookup_of_not_mem (laidLeft.1 ▸ equates.apart.2) r, keyValue]
  have evalLeft := evalExpr_column first laid equates.leftOnce outer
  have evalRight := evalExpr_column second laid equates.rightOnce outer
  rw [leftValue] at evalLeft
  rw [rightValue] at evalRight
  cases shape with
  | inl straight =>
      rw [straight.1]
      exact evalCond_equality evalLeft evalRight (comparable_of_type straight.2 laidLeft.2 laidRight.2)
  | inr flipped =>
      rw [flipped.1, equalKeys_comm]
      exact evalCond_equality evalRight evalLeft (comparable_of_type flipped.2 laidRight.2 laidLeft.2)

/-- There is nothing to replace in the condition. -/
theorem plain {m : Type → Type} [Monad m] [LawfulMonad m] (run : Subquery → Row → m (Except String (List Row)))
    (env : Row) : subquerySlotsIn cond = [] ∧ substSubqueries run cond env = pure (.ok cond) := by
  obtain ⟨x, y, first, second, shape⟩ := equates.equality
  have both : ∀ p q : Expr, (∃ name, ColumnOf (lcols ++ rcols) name p) → (∃ name, ColumnOf (lcols ++ rcols) name q) →
      subquerySlotsIn (.binary .eq p q) = [] ∧
        substSubqueries run (.binary .eq p q) env = pure (.ok (.binary .eq p q)) := by
    intro p q one two
    obtain ⟨_, one⟩ := one
    obtain ⟨_, two⟩ := two
    rw [subquerySlotsIn, substSubqueries, (column_plain one run env).1, (column_plain two run env).1,
      (column_plain one run env).2, (column_plain two run env).2]
    simp [Except.map]
  cases shape with
  | inl straight => exact straight.1 ▸ both x y ⟨_, first⟩ ⟨_, second⟩
  | inr flipped => exact flipped.1 ▸ both y x ⟨_, second⟩ ⟨_, first⟩

end Equates

end Condition

/-! ### Running the loop -/

section Run

variable [Host] [Printer] [BindingPrinter] {m : Type → Type} [Monad m] [LawfulMonad m]
  {run : Subquery → Row → m (Except String (List Row))} {outer : Row} {cond : Expr} {matched : Row → Row → Bool}

/-- Without subqueries every entry of the cache is the condition itself. -/
theorem keepPairs_eq {l : Row} {rrows : List Row} (references : subquerySlotsIn cond = [])
    (plain : ∀ env, substSubqueries run cond env = pure (.ok cond))
    (holds : ∀ r ∈ rrows, evalCondForRow cond (l ++ r ++ outer) = .ok (matched l r)) (acc : List Row)
    (cache : List (String × Expr)) (cached : ∀ entry ∈ cache, entry.2 = cond) :
    ∃ next, (∀ entry ∈ next, entry.2 = cond) ∧ keepPairs run outer cond l rrows acc cache =
      pure (.ok (acc.reverse ++ (rrows.filter (matched l)).map (l ++ ·), next)) := by
  induction rrows generalizing acc cache with
  | nil => exact ⟨cache, cached, by simp [keepPairs]⟩
  | cons r rrows ih =>
      have key : bindingKey (subquerySlotsIn cond) (l ++ r ++ outer) = .ok (BindingPrinter.showBindings []) := by
        rw [references]
        rfl
      have later : ∀ other ∈ rrows, evalCondForRow cond (l ++ other ++ outer) = .ok (matched l other) :=
        fun other inside => holds other (List.mem_cons_of_mem _ inside)
      obtain ⟨next, kept, result⟩ := ih later (if matched l r then (l ++ r) :: acc else acc)
        ((BindingPrinter.showBindings [], cond) :: cache) (List.forall_mem_cons.mpr ⟨rfl, cached⟩)
      refine ⟨next, kept, ?_⟩
      rw [keepPairs, key]
      have compared := holds r List.mem_cons_self
      cases found : lookup (BindingPrinter.showBindings []) cache with
      | none =>
          simp only [found, plain, pure_bind, compared, result]
          cases hit : matched l r <;> simp [hit]
      | some expression =>
          have same : expression = cond := cached _ (mem_of_lookup found)
          simp only [found, same, pure_bind, compared, result]
          cases hit : matched l r <;> simp [hit]

theorem pairRows_eq {kind : JoinKind} {ncols : List String} {rrows lrows : List Row} (references : subquerySlotsIn cond = [])
    (plain : ∀ env, substSubqueries run cond env = pure (.ok cond))
    (holds : ∀ l ∈ lrows, ∀ r ∈ rrows, evalCondForRow cond (l ++ r ++ outer) = .ok (matched l r)) (acc : List Row)
    (cache : List (String × Expr)) (cached : ∀ entry ∈ cache, entry.2 = cond) :
    pairRows run outer kind ncols cond rrows lrows acc cache =
      pure (.ok (acc.reverse ++ nestedLoop kind ncols matched lrows rrows)) := by
  induction lrows generalizing acc cache with
  | nil => simp [pairRows, nestedLoop]
  | cons l lrows ih =>
      obtain ⟨next, kept, result⟩ := keepPairs_eq references plain (holds l List.mem_cons_self) [] cache cached
      have later := ih (fun other inside => holds other (List.mem_cons_of_mem _ inside))
        ((joinedRows kind ncols matched rrows l).reverse ++ acc) next kept
      rw [pairRows, result, pure_bind]
      have padded : (if ([].reverse ++ (rrows.filter (matched l)).map (l ++ ·)).isEmpty then unmatched kind l ncols
          else [].reverse ++ (rrows.filter (matched l)).map (l ++ ·)) = joinedRows kind ncols matched rrows l := by
        rw [joinedRows, List.reverse_nil, List.nil_append, List.isEmpty_map]
      simp only [padded, later]
      rw [List.reverse_append, List.reverse_reverse, List.append_assoc, nestedLoop, nestedLoop, List.flatMap_cons]

end Run

/-! ### Keys by hash and by order -/

theorem keyValue_nullRow (name : String) (columns : List String) : keyValue name (nullRow columns) = .null := by
  rw [keyValue, nullRow]
  induction columns with
  | nil => rfl
  | cons column columns ih =>
      rw [List.map_cons, lookup]
      split
      · rfl
      · exact ih

theorem hashMatched_eq (keys : EquiKeys) (l r : Row) :
    hashMatched keys l r =
      (!isNull (keyValue keys.left l) && !isNull (keyValue keys.right r) &&
        valuesEqual (keyValue keys.left l) (keyValue keys.right r)) := by
  have key : ∀ (column : String) (row : Row), joinKeyOf column row =
      if isNull (keyValue column row) then none else some (canonicalValue (keyValue column row)) := by
    intro column row
    rw [joinKeyOf, keyValue]
    cases lookup column row with
    | none => rfl
    | some value => cases value <;> rfl
  rw [hashMatched, key, key]
  cases isNull (keyValue keys.left l) <;> cases isNull (keyValue keys.right r) <;> rfl

theorem hashMatched_implies {keys : EquiKeys} {l r : Row} (matched : hashMatched keys l r = true) :
    equalKeys (keyValue keys.left l) (keyValue keys.right r) = true := by
  rw [hashMatched_eq, Bool.and_eq_true] at matched
  rw [equalKeys, Bool.and_eq_true, beq_iff_eq, compareValue_eq_iff]
  exact ⟨matched.1, .inl matched.2⟩

/-- Hashing and the order tell the same of two keys unless the keys collide. -/
theorem hashMatched_agrees (keys : EquiKeys) (l r : Row) :
    hashMatched keys l r = equalKeys (keyValue keys.left l) (keyValue keys.right r) ↔
      ¬Value.Collides (keyValue keys.left l) (keyValue keys.right r) ∧
        ¬Value.Collides (keyValue keys.right r) (keyValue keys.left l) := by
  rw [hashMatched_eq, equalKeys]
  generalize keyValue keys.left l = x
  generalize keyValue keys.right r = y
  have filled : ∀ {p q : Value}, Value.Collides p q → isNull p = false ∧ isNull q = false := by
    intro p q collides
    cases p <;> cases q <;> first | exact ⟨rfl, rfl⟩ | exact absurd collides id
  constructor
  · intro agree
    refine ⟨fun collides => ?_, fun collides => ?_⟩
    · obtain ⟨_, equal, _, differ⟩ := collides_differ collides
      rw [(filled collides).1, (filled collides).2, equal, differ] at agree
      cases agree
    · obtain ⟨_, _, equal, differ⟩ := collides_differ collides
      have differs : valuesEqual x y = false := Bool.eq_false_iff.mpr fun same =>
        Bool.eq_false_iff.mp differ (valuesEqual_symm same)
      rw [(filled collides).1, (filled collides).2, equal, differs] at agree
      cases agree
  · intro apart
    rw [Bool.eq_iff_iff]
    simp only [Bool.and_eq_true, beq_iff_eq, compareValue_eq apart.1 apart.2]

/-! ### The joins -/

/-- The keys of the two rows are equal, as the condition asks. -/
def keysMatch (keys : EquiKeys) (l r : Row) : Bool := equalKeys (keyValue keys.left l) (keyValue keys.right r)

section Joins

variable [Host] [Printer] [BindingPrinter] {m : Type → Type} [Monad m] [LawfulMonad m]
  {run : Subquery → Row → m (Except String (List Row))} {outer : Row} {kind : JoinKind}
  {lcols rcols : List String} {a b : ColumnType} {cond : Expr} {keys : EquiKeys} {lrows rrows : List Row}

omit [LawfulMonad m] in
theorem joinRowsIn_eq (equates : Equates lcols rcols a b cond keys) (lefts : LaidOut lcols keys.left a lrows)
    (rights : LaidOut rcols keys.right b rrows) :
    joinRowsIn run outer kind rcols cond lrows rrows = pure (.ok (hashJoin kind keys rcols lrows rrows)) := by
  have columns : (if rrows.isEmpty then rcols else rowsCols rrows) = rcols := by
    cases rrows with
    | nil => rfl
    | cons r rest => exact (rights r List.mem_cons_self).1
  rw [joinRowsIn, columns]
  cases lrows with
  | nil =>
      cases equiKeys (rowsCols []) rcols cond with
      | none => rfl
      | some other => rfl
  | cons l rest =>
      rw [rowsCols, (lefts l List.mem_cons_self).1, equates.equiKeys_eq]

/-- An index whose rows for a key are those of the scan with an equal key, where it is used at all. -/
def IndexedBy (lookupByColumn : String → String → Value → m (Except String IndexResult)) (table column : String)
    (label : Option String) (rcols : List String) (right : String) (rrows : List Row) (key : Value) : Prop :=
  lookupByColumn table column key = pure (.ok .noIndex) ∨
    ∃ rows, lookupByColumn table column key = pure (.ok (.indexRows rows)) ∧
      orderedRows rcols (prefixRows label rows) = .ok (rrows.filter fun r => equalKeys key (keyValue right r))

omit [Host] [Printer] [BindingPrinter] [Monad m] [LawfulMonad m] in
/-- Dropping the rows whose key is not equal loses no match. -/
theorem joinedRows_filter (l : Row) :
    joinedRows kind rcols (hashMatched keys) (rrows.filter (keysMatch keys l)) l =
      joinedRows kind rcols (hashMatched keys) rrows l := by
  have narrowed : (rrows.filter (keysMatch keys l)).filter (hashMatched keys l) = rrows.filter (hashMatched keys l) := by
    rw [List.filter_filter]
    refine List.filter_congr fun r _ => ?_
    cases matched : hashMatched keys l r with
    | false => rfl
    | true => exact hashMatched_implies matched
  rw [joinedRows, joinedRows, narrowed]

variable {lookupByColumn : String → String → Value → m (Except String IndexResult)} {db : Database}
  {label : Option String} {table : String}

/-- A probe gives nothing, or the rows that the hash join gives the left row. -/
theorem probe_eq (equates : Equates lcols rcols a b cond keys) (lefts : LaidOut lcols keys.left a lrows)
    (rights : LaidOut rcols keys.right b rrows) {l : Row} (inside : l ∈ lrows)
    (indexed : indexSafe db table (unqualify label keys.right) (keyValue keys.left l) = true →
      IndexedBy lookupByColumn table (unqualify label keys.right) label rcols keys.right rrows (keyValue keys.left l)) :
    ∃ found : Option (List Row), (∀ rows, found = some rows → rows = joinedRows kind rcols (hashMatched keys) rrows l) ∧
      probeIndexJoin run lookupByColumn db outer kind label table keys rcols cond l = pure (.ok found) := by
  have laid := lefts l inside
  have key := (lookup_of_mem (laid.1 ▸ equates.left) []).1
  rw [probeIndexJoin, key]
  by_cases safe : indexSafe db table (unqualify label keys.right) (keyValue keys.left l) = true
  · simp only [safe, if_true]
    cases indexed safe with
    | inl missing =>
        refine ⟨none, by simp, ?_⟩
        rw [missing, pure_bind]
    | inr present =>
        obtain ⟨rows, result, ordered⟩ := present
        have hits : (rrows.filter fun r => equalKeys (keyValue keys.left l) (keyValue keys.right r)) =
            rrows.filter (keysMatch keys l) := rfl
        have selected : LaidOut rcols keys.right b (rrows.filter (keysMatch keys l)) := fun r member =>
          rights r (List.mem_of_mem_filter member)
        have single : LaidOut lcols keys.left a [l] := fun other member => List.mem_singleton.mp member ▸ laid
        have joined := @joinRowsIn_eq _ _ _ m _ run outer kind _ _ _ _ _ _ _ _ equates single selected
        rw [hashJoin_eq, nestedLoop, List.flatMap_singleton, joinedRows_filter] at joined
        refine ⟨some (joinedRows kind rcols (hashMatched keys) rrows l), by simp, ?_⟩
        rw [result, pure_bind]
        simp only [ordered, hits, joined, pure_bind]
        rfl
  · refine ⟨none, by simp, ?_⟩
    simp [safe]

omit [Host] [Printer] [BindingPrinter] in
/-- Probes that succeed for every left row give the blocks of the rows one after another. -/
theorem probes_eq {probe : Row → m (Except String (Option (List Row)))} {block : Row → List Row}
    (each : ∀ l ∈ lrows, ∃ found : Option (List Row), (∀ rows, found = some rows → rows = block l) ∧
      probe l = pure (.ok found)) :
    ∃ found : List (Option (List Row)), lrows.mapM probe = pure (found.map .ok) ∧
      ∀ blocks, found.mapM id = some blocks → blocks.flatten = lrows.flatMap block := by
  induction lrows with
  | nil =>
      refine ⟨[], rfl, fun blocks none => ?_⟩
      cases none
      rfl
  | cons l lrows ih =>
      obtain ⟨first, same, result⟩ := each l List.mem_cons_self
      obtain ⟨rest, results, others⟩ := ih fun other inside => each other (List.mem_cons_of_mem _ inside)
      refine ⟨first :: rest, by simp [List.mapM_cons, result, results], fun blocks all => ?_⟩
      rw [List.mapM_cons] at all
      obtain ⟨rows, here, all⟩ := Option.bind_eq_some_iff.mp all
      obtain ⟨later, there, all⟩ := Option.bind_eq_some_iff.mp all
      cases all
      rw [List.flatten_cons, others later there, same rows here, List.flatMap_cons]

theorem mapM_ok {Found : Type} (found : List Found) :
    (found.map .ok).mapM id = (.ok found : Except String (List Found)) := by
  induction found with
  | nil => rfl
  | cons first rest ih =>
      rw [List.map_cons, List.mapM_cons, ih]
      rfl

/-- Probing every left row gives what hashing gives, whether or not the index serves all. -/
theorem joinScan_eq (equates : Equates lcols rcols a b cond keys) (lefts : LaidOut lcols keys.left a lrows)
    (rights : LaidOut rcols keys.right b rrows)
    (indexed : ∀ l ∈ lrows, indexSafe db table (unqualify label keys.right) (keyValue keys.left l) = true →
      IndexedBy lookupByColumn table (unqualify label keys.right) label rcols keys.right rrows (keyValue keys.left l)) :
    joinScan run lookupByColumn db outer kind label table lcols rcols cond lrows (pure (.ok rrows)) =
      pure (.ok (hashJoin kind keys rcols lrows rrows)) := by
  obtain ⟨found, results, blocks⟩ := probes_eq fun l inside =>
    @probe_eq _ _ _ m _ _ run outer kind _ _ _ _ _ _ _ _ lookupByColumn db label table equates lefts rights l
      inside (indexed l inside)
  rw [joinScan, equates.equiKeys_eq]
  simp only [results, pure_bind, mapM_ok]
  cases all : found.mapM id with
  | none => exact joinRowsIn_eq equates lefts rights
  | some rows =>
      simp only [blocks rows all]
      rw [hashJoin_eq, nestedLoop]

/-- The nested loop gives the rows whose keys are equal in the order; hashing gives them too
when no integer meets a double that it is rounded to, and so does the index. -/
theorem hash_join_iff (equates : Equates lcols rcols a b cond keys) (lefts : LaidOut lcols keys.left a lrows)
    (rights : LaidOut rcols keys.right b rrows)
    (indexed : ∀ l ∈ lrows, indexSafe db table (unqualify label keys.right) (keyValue keys.left l) = true →
      IndexedBy lookupByColumn table (unqualify label keys.right) label rcols keys.right rrows (keyValue keys.left l)) :
    filterPairsM run outer kind rcols cond lrows rrows =
        pure (.ok (nestedLoop kind rcols (keysMatch keys) lrows rrows)) ∧
      joinRowsIn run outer kind rcols cond lrows rrows = pure (.ok (hashJoin kind keys rcols lrows rrows)) ∧
      joinScan run lookupByColumn db outer kind label table lcols rcols cond lrows (pure (.ok rrows)) =
        pure (.ok (hashJoin kind keys rcols lrows rrows)) ∧
      (hashJoin kind keys rcols lrows rrows = nestedLoop kind rcols (keysMatch keys) lrows rrows ↔
        ∀ l ∈ lrows, ∀ r ∈ rrows, ¬Value.Collides (keyValue keys.left l) (keyValue keys.right r) ∧
          ¬Value.Collides (keyValue keys.right r) (keyValue keys.left l)) := by
  refine ⟨?_, joinRowsIn_eq equates lefts rights, joinScan_eq equates lefts rights indexed, ?_⟩
  · have loop : pairRows run outer kind rcols cond rrows lrows [] [] =
        pure (.ok ([].reverse ++ nestedLoop kind rcols (keysMatch keys) lrows rrows)) :=
      pairRows_eq (equates.plain run []).1 (fun env => (equates.plain run env).2)
        (fun l inside r member => equates.evalCond_eq (lefts l inside) (rights r member) outer) [] []
        (List.forall_mem_nil _)
    exact loop
  · have filled : ∀ l ∈ lrows, ∀ r ∈ rrows, keysMatch keys l r = true → r ≠ nullRow rcols := by
      intro l _ r _ matched padding
      rw [keysMatch, equalKeys, padding, keyValue_nullRow] at matched
      simp [isNull] at matched
    rw [hashJoin_eq, @nestedLoop_agree kind rcols (keysMatch keys) (hashMatched keys) lrows rrows
      (fun l r => hashMatched_implies) filled]
    exact forall_congr' fun l => forall_congr' fun _ => forall_congr' fun r => forall_congr' fun _ =>
      hashMatched_agrees keys l r

end Joins

/-! ### An integer and the double it is rounded to -/

@[reducible]
def silentBindings : BindingPrinter where
  showBindings _ := ""

/-- Two tables of one number each, joined where the numbers are equal. -/
def numbersEqual : Expr := .binary .eq (.col "a.n") (.col "b.n")

def numberRows (name : String) (values : List Value) : List Row := values.map fun value => [(name, value)]

def noSubqueries (_ : Subquery) (_ : Row) : Id (Except String (List Row)) := .ok []

def noIndexes (_ _ : String) (_ : Value) : Id (Except String IndexResult) := .ok .noIndex

theorem numbers_equate : Equates ["a.n"] ["b.n"] .int .double numbersEqual ⟨"a.n", "b.n"⟩ where
  left := by decide
  right := by decide
  leftOnce := by decide
  rightOnce := by decide
  equality := ⟨.col "a.n", .col "b.n", .inl rfl, .inl rfl, .inl ⟨rfl, by decide⟩⟩

theorem hash_join_small :
    hashJoin .left ⟨"a.n", "b.n"⟩ ["b.n"] (numberRows "a.n" [.int 1, .null]) (numberRows "b.n" [.float (fromIntegral 1)]) =
      nestedLoop .left ["b.n"] (keysMatch ⟨"a.n", "b.n"⟩) (numberRows "a.n" [.int 1, .null])
        (numberRows "b.n" [.float (fromIntegral 1)]) := by
  refine (@hash_join_iff silentHost silentPrinter silentBindings Id _ _ noSubqueries [] .left ["a.n"] ["b.n"] .int .double
    numbersEqual ⟨"a.n", "b.n"⟩ (numberRows "a.n" [.int 1, .null]) (numberRows "b.n" [.float (fromIntegral 1)])
    noIndexes [] none "b" numbers_equate ?_ ?_ ?_).2.2.2.mpr ?_
  · exact List.forall_mem_cons.mpr ⟨by decide, List.forall_mem_cons.mpr ⟨by decide, List.forall_mem_nil _⟩⟩
  · exact List.forall_mem_cons.mpr ⟨by decide, List.forall_mem_nil _⟩
  · exact fun _ _ _ => .inl rfl
  · have small : ∀ value : Value, ¬Value.Collides value (.float (fromIntegral 1)) := by
      intro value collides
      cases value with
      | int n => exact absurd collides.1 (by decide +kernel)
      | _ => exact collides
    refine List.forall_mem_cons.mpr ⟨?_, List.forall_mem_cons.mpr ⟨?_, List.forall_mem_nil _⟩⟩
    all_goals exact List.forall_mem_cons.mpr ⟨⟨small _, id⟩, List.forall_mem_nil _⟩

/-- The condition holds of 2^53 + 3 and the double nearest to it, and hashing misses the pair. -/
theorem wide_keys_missed :
    (@filterPairsM silentHost silentPrinter silentBindings Id _ noSubqueries [] .inner ["b.n"] numbersEqual
      (numberRows "a.n" [.int 9007199254740995]) (numberRows "b.n" [.float besideWide])).toOption.map (·.length) = some 1 ∧
      hashJoin .inner ⟨"a.n", "b.n"⟩ ["b.n"] (numberRows "a.n" [.int 9007199254740995])
        (numberRows "b.n" [.float besideWide]) = [] := by
  refine ⟨by decide +kernel, ?_⟩
  rw [← List.isEmpty_iff]
  decide +kernel

end ChuSQL.Engine
