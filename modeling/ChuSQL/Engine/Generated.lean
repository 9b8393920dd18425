import ChuSQL.Engine.Insert

/-! Generated keys are fresh as long as counting does not leave the machine integers, and
no double was given that a later key counts up to. -/

set_option autoImplicit false

namespace ChuSQL.Engine

open Library Model

/-! ### Counting without overflow -/

/-- The number after the given one, or after the last. -/
def countOn (count : Int) : Option Value → Int
  | none => count + 1
  | some .null => count + 1
  | some value => max (count + 1) ((valueInt value).toInt + 1)

/-- The first number to generate. -/
def countFrom (placed : List Int64) : Int :=
  match placed with
  | [] => 1
  | n :: ns => (ns.foldl larger n).toInt + 1

section Column

variable [Host]

/-- Along the rows, each generated number is the one counted to, and differs from every
integer placed before. -/
def Fresh (name : String) : List Int64 → Int → List (Option Value) → List Row → Prop
  | placed, count, supplied :: rest, row :: rows =>
      (omitted supplied = true → ∃ n : Int64, lookup name row = some (.int n) ∧ n ∉ placed ∧ n.toInt = count) ∧
        Fresh name (placed ++ integersOf name [row]) (countOn count supplied) rest rows
  | _, _, _, _ => True

/-- The integer that a double becomes. -/
def wholeGiven : Option Value → List Int64
  | some (.float d) => [(properFraction d).1]
  | _ => []

/-- Along the rows, each number to generate is a machine integer, and no double given
before becomes it. -/
def Countable : List Int64 → Int → List (Option Value) → Prop
  | whole, count, supplied :: rest =>
      (omitted supplied = true → isInt64 count ∧ ∀ n ∈ whole, n.toInt ≠ count) ∧
        Countable (whole ++ wholeGiven supplied) (countOn count supplied) rest
  | _, _, [] => True

/-! ### Storing in an integer column -/

theorem coerce_int {type : ColumnType} (integral : integerType type = true) (n : Int64) :
    coerceValue type (.int n) = .ok (.int n) := by
  induction type with
  | domain name base ih => exact ih integral
  | int | bigInt | smallInt => rfl
  | _ => cases integral

theorem coerce_given {type : ColumnType} (integral : integerType type = true) {value stored : Value}
    (given : isNull value = false) (stores : coerceValue type value = .ok stored) :
    ∃ n, stored = .int n ∧ (value = .int n ∨ ∃ d, value = .float d ∧ n = (properFraction d).1) := by
  induction type with
  | domain name base ih =>
      refine ih integral ?_
      cases value <;> first | exact absurd given (by decide) | exact stores
  | int | bigInt | smallInt =>
      cases value with
      | null => exact absurd given (by decide)
      | int n =>
          cases stores
          exact ⟨n, rfl, .inl rfl⟩
      | float d =>
          rw [coerceValue, toInt] at stores
          · split at stores
            · cases stores
              exact ⟨_, rfl, .inr ⟨d, rfl, rfl⟩⟩
            · cases stores
          · simp
      | _ => cases stores
  | _ => cases integral

/-! ### A row -/

/-- The value given for a column, when the row has one. -/
def givenAt (target : BoundInsertColumn) (values : List Value) : Option Value := target.slot.bind (values[·]?)

omit [Host] in
theorem suppliedValue_ok {values : List Value} {target : BoundInsertColumn} {supplied : Option Value}
    (read : suppliedValue values target = .ok supplied) : supplied = givenAt target values := by
  rw [suppliedValue] at read
  rw [givenAt]
  cases slot : target.slot with
  | none =>
      rw [slot] at read
      cases read
      rfl
  | some place =>
      rw [slot] at read
      cases found : values[place]? with
      | none => simp [found] at read
      | some value =>
          simp only [found, Except.ok.injEq] at read
          rw [← read, Option.bind_some, found]

section Row

variable {name : String} {column : Column} {auto : Option (String × Column)} {values : List Value}

omit [Host] in
/-- A column that is not the generated one leaves the counter. -/
theorem pickValue_other (target : BoundInsertColumn) (other : auto.map (·.1) ≠ some target.name)
    {supplied : Option Value} {counter : Int64} {picked : Value × Int64}
    (picks : pickValue auto target supplied counter = .ok picked) : picked.2 = counter := by
  simp only [pickValue, other, false_and, if_false] at picks
  cases supplied with
  | some value =>
      cases picks
      exact if_neg other
  | none =>
      cases default : target.column.default with
      | some value =>
          simp only [default, Except.ok.injEq] at picks
          rw [← picks]
      | none =>
          simp only [default] at picks
          split at picks <;> cases picks
          rfl

theorem buildRow_append (before after : List BoundInsertColumn) (counter : Int64) (acc : Row) :
    buildRow auto values (before ++ after) counter acc =
      buildRow auto values before counter acc >>= fun built => buildRow auto values after built.2 built.1.reverse := by
  induction before generalizing counter acc with
  | nil => simp [buildRow, bind, Except.bind]
  | cons target before ih =>
      rw [List.cons_append, buildRow, buildRow]
      simp only [bind_assoc, ih]

/-- Columns that are not the generated one leave the counter, and name their values. -/
theorem buildRow_others {targets : List BoundInsertColumn}
    (others : ∀ target ∈ targets, auto.map (·.1) ≠ some target.name) {counter : Int64} {acc : Row}
    {built : Row × Int64} (builds : buildRow auto values targets counter acc = .ok built) :
    built.2 = counter ∧ ∃ rest : Row, built.1 = acc.reverse ++ rest ∧ rest.map (·.1) = targets.map (·.name) := by
  induction targets generalizing counter acc with
  | nil =>
      cases builds
      exact ⟨rfl, [], by simp, rfl⟩
  | cons target targets ih =>
      obtain ⟨supplied, _, builds⟩ := bind_eq_ok.mp builds
      obtain ⟨⟨value, next⟩, picks, builds⟩ := bind_eq_ok.mp builds
      obtain ⟨stored, _, builds⟩ := bind_eq_ok.mp builds
      obtain ⟨same, rest, row, names⟩ := ih (fun other inside => others other (List.mem_cons_of_mem _ inside)) builds
      have kept := pickValue_other target (others target List.mem_cons_self) picks
      refine ⟨same.trans kept, (target.name, stored) :: rest, ?_, ?_⟩
      · rw [row, List.reverse_cons, List.append_assoc, List.singleton_append]
      · rw [List.map_cons, List.map_cons, names]

/-- What a row does with the generated column: the counter, or the value given. -/
structure Filled (target : BoundInsertColumn) (values : List Value) (counter : Int64) (row : Row) (next : Int64)
    (n : Int64) : Prop where
  placed : lookup target.name row = some (.int n)
  generated : omitted (givenAt target values) = true → n = counter ∧ next = counter + 1
  given : ∀ value, givenAt target values = some value → isNull value = false →
    next = larger (counter + 1) (valueInt value + 1) ∧
      (value = .int n ∨ ∃ d, value = .float d ∧ n = (properFraction d).1)

theorem buildRow_filled {target : BoundInsertColumn} {before after : List BoundInsertColumn}
    (named : auto = some (target.name, column)) (apart : ∀ other ∈ before ++ after, other.name ≠ target.name)
    (integral : integerType target.column.type = true) {counter : Int64} {built : Row × Int64}
    (builds : buildRow auto values (before ++ target :: after) counter [] = .ok built) :
    ∃ n, Filled target values counter built.1 built.2 n := by
  subst named
  have others : ∀ other ∈ before ++ after, (some (target.name, column)).map (·.1) ≠ some other.name :=
    fun other inside same => apart other inside (Option.some.inj same).symm
  rw [buildRow_append] at builds
  obtain ⟨⟨first, middle⟩, starts, builds⟩ := bind_eq_ok.mp builds
  obtain ⟨kept, leading, row, names⟩ :=
    buildRow_others (fun other inside => others other (List.mem_append_left _ inside)) starts
  obtain ⟨supplied, read, builds⟩ := bind_eq_ok.mp builds
  obtain ⟨⟨value, next⟩, picks, builds⟩ := bind_eq_ok.mp builds
  obtain ⟨stored, stores, builds⟩ := bind_eq_ok.mp builds
  obtain ⟨same, rest, whole, _⟩ :=
    buildRow_others (fun other inside => others other (List.mem_append_right _ inside)) builds
  have absent : target.name ∉ leading.map (·.1) := by
    intro member
    rw [names] at member
    obtain ⟨other, inside, equal⟩ := List.mem_map.mp member
    exact apart other (List.mem_append_left _ inside) equal
  have found : lookup target.name built.1 = some stored := by
    rw [whole, List.reverse_cons, List.reverse_reverse, row, List.reverse_nil, List.nil_append, List.append_assoc,
      lookup_of_not_mem absent]
    exact if_pos rfl
  rw [suppliedValue_ok read] at picks
  rw [kept] at picks
  by_cases left : omitted (givenAt target values) = true
  · simp only [pickValue, Option.map_some, left, and_self, if_true, Except.ok.injEq, Prod.mk.injEq] at picks
    rw [← picks.1, coerce_int integral] at stores
    cases stores
    refine ⟨counter, found, fun _ => ⟨rfl, same.trans picks.2.symm⟩, fun value given filled => ?_⟩
    rw [given, omitted, filled] at left
    cases left
  · cases given : givenAt target values with
    | none => exact absurd (given ▸ rfl) left
    | some value =>
        have filled : isNull value = false := by
          rw [given, omitted, Bool.not_eq_true] at left
          exact left
        simp only [pickValue, given, omitted, filled, Bool.false_eq_true, and_false, if_false, Except.ok.injEq,
          Prod.mk.injEq] at picks
        rw [← picks.1] at stores
        obtain ⟨n, stored, source⟩ := coerce_given integral filled stores
        refine ⟨n, stored ▸ found, fun omits => absurd omits left, fun other equal _ => ?_⟩
        rw [given] at equal
        cases equal
        exact ⟨same.trans (picks.2.symm.trans (if_pos rfl)), source⟩

end Row

/-! ### The rows of a statement -/

/-- Rows built one after another, the counter handed on. -/
def Runs (target : BoundInsertColumn) : Int64 → List (List Value) → List Row → Prop
  | counter, values :: rest, row :: rows => ∃ next n, Filled target values counter row next n ∧ Runs target next rest rows
  | _, [], [] => True
  | _, _, _ => False

theorem buildEach_runs {plan : InsertPlan} {target : BoundInsertColumn} {column : Column}
    {before after : List BoundInsertColumn} (layout : plan.layout = before ++ target :: after)
    (named : plan.auto = some (target.name, column)) (apart : ∀ other ∈ before ++ after, other.name ≠ target.name)
    (integral : integerType target.column.type = true) {counter : Int64} {given : List (List Value)}
    {acc built : List Row} (builds : buildEach plan counter given acc = .ok built) :
    ∃ rows, built = acc.reverse ++ rows ∧ Runs target counter given rows := by
  induction given generalizing counter acc with
  | nil =>
      cases builds
      exact ⟨[], by simp, trivial⟩
  | cons values given ih =>
      obtain ⟨⟨row, next⟩, first, builds⟩ := bind_eq_ok.mp builds
      rw [layout] at first
      obtain ⟨n, filled⟩ := buildRow_filled named apart integral first
      obtain ⟨rows, whole, runs⟩ := ih builds
      exact ⟨row :: rows, by simp [whole], next, n, filled, runs⟩

/-! ### Machine integers -/

omit [Host] in
theorem toInt_succ {n : Int64} {limit : Int} (below : n.toInt + 1 ≤ limit) (range : isInt64 limit) :
    (n + 1).toInt = n.toInt + 1 := by
  have high : limit ≤ 9223372036854775807 := range.2
  have low := n.le_toInt
  rw [Int64.toInt_add, Int64.toInt_one]
  exact Int.bmod_eq_of_le (by omega) (by omega)

omit [Host] in
theorem toInt_larger (a b : Int64) : (larger a b).toInt = max a.toInt b.toInt := by
  rw [larger]
  split
  · rename_i le
    rw [max_eq_right (Int64.le_iff_toInt_le.mp le)]
  · rename_i less
    rw [max_eq_left (Int64.le_iff_toInt_le.not.mp less |> not_le.mp).le]

omit [Host] in
theorem le_larger {n first : Int64} {ns : List Int64} (member : n ∈ first :: ns) :
    n.toInt ≤ (ns.foldl larger first).toInt := by
  induction ns generalizing n first with
  | nil =>
      rw [List.mem_singleton] at member
      rw [member, List.foldl_nil]
  | cons second ns ih =>
      rw [List.foldl_cons]
      have start : (larger first second).toInt ≤ (ns.foldl larger (larger first second)).toInt := ih List.mem_cons_self
      rw [toInt_larger] at start
      cases List.mem_cons.mp member with
      | inl same =>
          rw [same]
          exact (le_max_left _ _).trans start
      | inr later =>
          cases List.mem_cons.mp later with
          | inl same =>
              rw [same]
              exact (le_max_right _ _).trans start
          | inr inside => exact ih (List.mem_cons_of_mem _ inside)

/-! ### Fresh and countable -/

omit [Host] in
theorem integersOf_single {name : String} {row : Row} {n : Int64} (placed : lookup name row = some (.int n)) :
    integersOf name [row] = [n] := by
  simp [integersOf, integerIn, placed]

section Equivalence

variable {target : BoundInsertColumn}

/-- A number placed by a double is the integer the double becomes. -/
theorem wholeGiven_placed {values : List Value} {counter next n : Int64} {row : Row}
    (filled : Filled target values counter row next n) : wholeGiven (givenAt target values) ⊆ [n] := by
  cases given : givenAt target values with
  | none => exact List.nil_subset _
  | some value =>
      cases value with
      | float d =>
          obtain ⟨_, source⟩ := filled.given (.float d) given rfl
          cases source with
          | inl int => cases int
          | inr double =>
              obtain ⟨e, same, becomes⟩ := double
              cases same
              rw [becomes]
              exact List.Subset.refl _
      | _ => exact List.nil_subset _

theorem countable_of_fresh {counter : Int64} {given : List (List Value)} {rows : List Row}
    (runs : Runs target counter given rows) {placed whole : List Int64} {count : Int} (within : whole ⊆ placed)
    (fresh : Fresh target.name placed count (given.map (givenAt target)) rows) :
    Countable whole count (given.map (givenAt target)) := by
  induction given generalizing counter rows placed whole count with
  | nil => trivial
  | cons values given ih =>
      cases rows with
      | nil => cases runs
      | cons row rows =>
          obtain ⟨next, n, filled, later⟩ := runs
          obtain ⟨here, rest⟩ := fresh
          refine ⟨fun omits => ?_, ih later ?_ rest⟩
          · obtain ⟨m, _, new, counted⟩ := here omits
            refine ⟨counted ▸ ⟨m.minValue_le_toInt, m.toInt_le⟩, fun other member same => ?_⟩
            rw [← counted, Int64.toInt_inj] at same
            exact new (within (same ▸ member))
          · rw [integersOf_single filled.placed]
            exact List.append_subset.mpr ⟨List.Subset.trans within (List.subset_append_left _ _),
              List.Subset.trans (wholeGiven_placed filled) (List.subset_append_right _ _)⟩

omit [Host] in
theorem le_countOn (count : Int) (supplied : Option Value) : count + 1 ≤ countOn count supplied := by
  cases supplied with
  | none => exact le_rfl
  | some value => cases value <;> first | exact le_rfl | exact le_max_left _ _

/-- A row hands on the number counted to, as long as that is a machine integer. -/
theorem next_counted {values : List Value} {counter next n : Int64} {row : Row}
    (filled : Filled target values counter row next n) (range : isInt64 (countOn counter.toInt (givenAt target values))) :
    next.toInt = countOn counter.toInt (givenAt target values) := by
  have on := le_countOn counter.toInt (givenAt target values)
  cases given : givenAt target values with
  | none =>
      rw [given] at on range
      rw [(filled.generated (given ▸ rfl)).2, toInt_succ on range]
      rfl
  | some value =>
      cases null : isNull value with
      | true =>
          have same : value = .null := by
            cases value <;> first | rfl | cases null
          subst same
          rw [given] at on range
          rw [(filled.generated (given ▸ rfl)).2, toInt_succ on range]
          rfl
      | false =>
          have counts : countOn counter.toInt (some value) = max (counter.toInt + 1) ((valueInt value).toInt + 1) := by
            cases value <;> first | rfl | cases null
          rw [given, counts] at range
          rw [(filled.given value given null).1, toInt_larger, toInt_succ (le_max_left _ _) range,
            toInt_succ (le_max_right _ _) range, counts]

/-- The number placed is below the one counted to, or was given as a double. -/
theorem placed_below {values : List Value} {counter next n : Int64} {row : Row} {count : Int}
    (filled : Filled target values counter row next n)
    (agrees : omitted (givenAt target values) = true → counter.toInt = count) :
    n.toInt < countOn count (givenAt target values) ∨ n ∈ wholeGiven (givenAt target values) := by
  have on := le_countOn count (givenAt target values)
  by_cases omits : omitted (givenAt target values) = true
  · rw [(filled.generated omits).1, agrees omits]
    exact .inl (by omega)
  · cases given : givenAt target values with
    | none => exact absurd (given ▸ rfl) omits
    | some value =>
        rw [given, omitted, Bool.not_eq_true] at omits
        cases (filled.given value given omits).2 with
        | inl int =>
            rw [int]
            exact .inl ((Int.lt_succ _).trans_le (le_max_right _ _))
        | inr double =>
            obtain ⟨d, same, becomes⟩ := double
            rw [same, becomes]
            exact .inr (List.mem_singleton_self _)

/-- The number counted to is a machine integer as long as one is still to be generated. -/
theorem count_le {whole : List Int64} {count : Int} {items : List (Option Value)}
    (countable : Countable whole count items) (some : items.any omitted = true) : count ≤ Int64.maxValue.toInt := by
  induction items generalizing whole count with
  | nil => cases some
  | cons supplied items ih =>
      obtain ⟨here, rest⟩ := countable
      by_cases omits : omitted supplied = true
      · exact (here omits).1.2
      · rw [List.any_cons, Bool.or_eq_true] at some
        have later := ih rest (some.resolve_left omits)
        have on := le_countOn count supplied
        omega

theorem fresh_of_countable {counter : Int64} {given : List (List Value)} {rows : List Row}
    (runs : Runs target counter given rows) {placed whole : List Int64} {count : Int}
    (agrees : (given.map (givenAt target)).any omitted = true → counter.toInt = count)
    (below : ∀ n ∈ placed, n.toInt < count ∨ n ∈ whole)
    (countable : Countable whole count (given.map (givenAt target))) :
    Fresh target.name placed count (given.map (givenAt target)) rows := by
  induction given generalizing counter rows placed whole count with
  | nil => trivial
  | cons values given ih =>
      cases rows with
      | nil => cases runs
      | cons row rows =>
          obtain ⟨next, n, filled, later⟩ := runs
          obtain ⟨here, rest⟩ := countable
          rw [List.map_cons, List.any_cons, Bool.or_eq_true] at agrees
          refine ⟨fun omits => ?_, ih later (fun some => ?_) (fun m member => ?_) rest⟩
          · obtain ⟨same, _⟩ := filled.generated omits
            refine ⟨counter, same ▸ filled.placed, fun member => ?_, agrees (.inl omits)⟩
            cases below counter member with
            | inl less => exact absurd (agrees (.inl omits)) less.ne
            | inr double => exact (here omits).2 counter double (agrees (.inl omits))
          · have same := agrees (.inr some)
            have on := le_countOn count (givenAt target values)
            have low := counter.minValue_le_toInt
            rw [← same] at on ⊢
            exact next_counted filled ⟨by omega, same ▸ count_le rest some⟩
          · have on := le_countOn count (givenAt target values)
            rw [integersOf_single filled.placed, List.mem_append] at member
            rw [List.mem_append]
            cases member with
            | inl earlier =>
                cases below m earlier with
                | inl less => exact .inl (by omega)
                | inr double => exact .inr (.inl double)
            | inr here =>
                rw [List.mem_singleton.mp here]
                cases placed_below filled (fun omits => agrees (.inl omits)) with
                | inl less => exact .inl less
                | inr double => exact .inr (.inr double)

omit [Host] in
theorem start_counted {name : String} {column : Column} {current : List Row}
    (range : countFrom (integersOf name current) ≤ Int64.maxValue.toInt) :
    (autoStart (some (name, column)) current).toInt = countFrom (integersOf name current) := by
  rw [autoStart]
  cases found : integersOf name current with
  | nil => rfl
  | cons n ns =>
      rw [found] at range
      have low := (ns.foldl larger n).minValue_le_toInt
      refine toInt_succ le_rfl ⟨?_, range⟩
      omega

omit [Host] in
theorem lt_countFrom {placed : List Int64} {n : Int64} (member : n ∈ placed) : n.toInt < countFrom placed := by
  cases placed with
  | nil => cases member
  | cons first rest => exact Int.lt_add_one_of_le (le_larger member)

/-- The generated keys of a statement are fresh and counted without overflow just when each
number counted to is a machine integer that no double given before becomes. -/
theorem generated_keys_iff [Printer] {plan : InsertPlan} {column : Column} {before after : List BoundInsertColumn}
    (layout : plan.layout = before ++ target :: after) (named : plan.auto = some (target.name, column))
    (apart : ∀ other ∈ before ++ after, other.name ≠ target.name)
    (integral : integerType target.column.type = true) {current built : List Row} {rows : List (List Expr)}
    {given : List (List Value)} (evaluated : (rows.mapM fun row => row.mapM fun expression => evalExpr expression []) = .ok given)
    (builds : buildRows plan current rows = .ok built) :
    Fresh target.name (integersOf target.name current) (countFrom (integersOf target.name current))
        (given.map (givenAt target)) built ↔
      Countable [] (countFrom (integersOf target.name current)) (given.map (givenAt target)) := by
  rw [buildRows, evaluated] at builds
  have each : buildEach plan (autoStart plan.auto current) given [] = .ok built := by
    simp only [bind, Except.bind] at builds
    split at builds
    · cases builds
    · obtain ⟨made, each, builds⟩ := bind_eq_ok.mp builds
      obtain ⟨_, _, builds⟩ := bind_eq_ok.mp builds
      cases builds
      exact each
  obtain ⟨rest, whole, runs⟩ := buildEach_runs layout named apart integral each
  rw [List.reverse_nil, List.nil_append] at whole
  subst whole
  rw [named] at runs
  constructor
  · exact countable_of_fresh runs (List.nil_subset _)
  · intro countable
    exact fresh_of_countable runs (fun some => start_counted (count_le countable some))
      (fun n member => .inl (lt_countFrom member)) countable

end Equivalence

end Column

/-! ### A double that is counted up to -/

def keyColumn : BoundInsertColumn := ⟨"id", ⟨.int, false, none, true, false, false, none⟩, some 0⟩

/-- A table of one generated column. -/
def keyPlan : InsertPlan := ⟨[keyColumn], 1, some ("id", keyColumn.column), fun _ _ => .ok ()⟩

def twoFloat : Double := Double.ofInt 2

/-- After 2.0 was given, 2 is generated; after the largest integer, the smallest. -/
theorem generated_keys_repeat :
    (@buildRows Engine.silentHost Engine.silentPrinter keyPlan [] [[.litFloat twoFloat], [.litNull]]).toOption.map
        (integersOf "id") = some [2, 2] ∧
      (@buildRows Engine.silentHost Engine.silentPrinter keyPlan [[("id", .int Int64.maxValue)]] [[.litNull]]).toOption.map
        (integersOf "id") = some [Int64.minValue] := by
  decide +kernel

theorem generated_keys_small :
    Fresh "id" [] 1 [some (.int 5), some .null] [[("id", .int 5)], [("id", .int 6)]] := by
  refine (@generated_keys_iff Engine.silentHost keyColumn Engine.silentPrinter keyPlan keyColumn.column [] [] rfl rfl
    (List.forall_mem_nil _) rfl [] [[("id", .int 5)], [("id", .int 6)]] [[.litInt 5], [.litNull]] [[.int 5], [.null]]
    rfl rfl).mpr ?_
  refine And.intro (fun omits => absurd omits (by decide)) (And.intro (fun _ => ?_) trivial)
  exact ⟨by decide, List.forall_mem_nil _⟩

end ChuSQL.Engine
