import ChuSQL.Engine.Plan.Answer

/-! A run of a plan that succeeds gives the answer of the plan. -/

set_option autoImplicit false

namespace ChuSQL.Engine

open Library Model

/-! ### Qualified names -/

theorem unqualify_qualify (label : Option String) (column : String) :
    unqualify label (qualify label column) = column := by
  cases label with
  | none => rfl
  | some label =>
      have parts : (label ++ "." ++ column).toList = (label ++ ".").toList ++ column.toList := String.toList_append
      rw [unqualify, qualify, parts, if_pos (List.isPrefixOf_iff_prefix.mpr (List.prefix_append _ _)),
        ← String.length_toList, List.drop_left, String.ofList_toList]

theorem qualify_scanned {db : Database} {label : Option String} {table name : String} {columns : Option (List String)}
    (member : name ∈ scanCols db label table columns) : qualify label (unqualify label name) = name := by
  have shape : ∃ column, qualify label column = name := by
    cases columns with
    | some columns => exact (List.mem_map.mp member).imp fun _ => And.right
    | none =>
        rw [scanCols] at member
        split at member
        · cases member
        · exact (List.mem_map.mp member).elim fun column found => ⟨column.1, found.2⟩
  obtain ⟨column, rfl⟩ := shape
  rw [unqualify_qualify]

theorem equiKeys_mem {lcols rcols : List String} {on : Expr} {keys : EquiKeys}
    (recognized : equiKeys lcols rcols on = some keys) : keys.left ∈ lcols ∧ keys.right ∈ rcols := by
  unfold equiKeys at recognized
  split at recognized
  · split at recognized
    · split at recognized
      · rename_i both
        cases recognized
        exact both.2
      · split at recognized
        · rename_i both
          cases recognized
          exact both.2
        · cases recognized
    · cases recognized
  · cases recognized

section Operators

variable [Host] [Printer] {outer : Row}

theorem holds_of_ok {condition : Expr} {row : Row} {kept : Bool}
    (ran : evalCondForRow condition (row ++ outer) = .ok kept) : holds outer condition row = kept := by
  rw [holds, ran]

theorem filterRows_ok {condition : Expr} {rows kept : List Row} (ran : filterRows outer condition rows = .ok kept) :
    kept = rows.filter (holds outer condition) := by
  induction rows generalizing kept with
  | nil =>
      cases ran
      rfl
  | cons row rows ih =>
      obtain ⟨flag, decided, later⟩ := bind_eq_ok.mp ran
      obtain ⟨others, ran, same⟩ := bind_eq_ok.mp later
      rw [List.filter_cons, holds_of_ok decided, ← ih ran]
      cases same
      rfl

theorem computeRow_ok {items : List (String × Expr)} {row computed : Row}
    (ran : computeRow outer items row = .ok computed) : computed = computedRow outer items row := by
  have each := mapM_eq_ok.mp ran
  clear ran
  induction each with
  | nil => rfl
  | cons first _ ih =>
      obtain ⟨value, evaluated, same⟩ := bind_eq_ok.mp first
      cases same
      rw [ih, computedRow, computedRow, List.map_cons, valueOf, evaluated]

theorem computeRows_ok {items : List (String × Expr)} {rows computed : List Row}
    (ran : rows.mapM (computeRow outer items) = .ok computed) : computed = rows.map (computedRow outer items) := by
  have each := mapM_eq_ok.mp ran
  clear ran
  induction each with
  | nil => rfl
  | cons first _ ih => rw [List.map_cons, ← computeRow_ok first, ih]

/-- A row that an index key matches by its hash meets the condition of the index. -/
theorem holds_lookupCondition {label : Option String} {column : String} {key : Value} {row : Row}
    (scalar : (∃ n, key = .int n) ∨ ∃ text, key = .str text) (member : qualify label column ∈ row.map (·.1))
    (filled : isNull (keyValue (qualify label column) row) = false)
    (equal : valuesEqual key (keyValue (qualify label column) row) = true) :
    holds outer (lookupCondition label column key) row = true := by
  obtain ⟨found, first⟩ := lookup_of_mem member outer
  have left : evalExpr (.col (qualify label column)) (row ++ outer) = .ok (keyValue (qualify label column) row) := by
    rw [evalExpr, first, found]
  have right : evalExpr (valueLiteral key) (row ++ outer) = .ok key := by
    rcases scalar with ⟨n, rfl⟩ | ⟨text, rfl⟩ <;> rfl
  have same := (compareValue_eq_iff key _).mpr (.inl equal)
  have filledKey : isNull key = false := by rcases scalar with ⟨n, rfl⟩ | ⟨text, rfl⟩ <;> rfl
  rw [holds, lookupCondition, evalCond_equality left right]
  · have keys : equalKeys key (keyValue (qualify label column) row) = true := by
      rw [equalKeys, filledKey, filled, same]
      rfl
    exact (equalKeys_comm _ _).trans keys
  · intro _ _
    generalize keyValue (qualify label column) row = value at equal
    rcases scalar with ⟨n, rfl⟩ | ⟨text, rfl⟩
    · cases value <;> first | rfl | cases equal
    · cases value with
      | float d =>
          simp only [valuesEqual, canonicalValue] at equal
          split at equal <;> cases equal
      | _ => first | rfl | cases equal

theorem hashMatched_keeps {label : Option String} {column : String} {keys : EquiKeys} {l r : Row}
    (scalar : (∃ n, keyValue keys.left l = .int n) ∨ ∃ text, keyValue keys.left l = .str text)
    (name : qualify label column = keys.right) (member : keys.right ∈ r.map (·.1))
    (matched : hashMatched keys l r = true) :
    holds outer (lookupCondition label column (keyValue keys.left l)) r = true := by
  rw [hashMatched_eq, Bool.and_eq_true, Bool.and_eq_true, Bool.not_eq_true', Bool.not_eq_true', ← name] at matched
  exact holds_lookupCondition scalar (name ▸ member) matched.1.2 matched.2

end Operators

/-! ### Joins -/

theorem indexSafe_scalar {db : Database} {table column : String} {key : Value}
    (safe : indexSafe db table column key = true) : (∃ n, key = .int n) ∨ ∃ text, key = .str text := by
  unfold indexSafe at safe
  split at safe
  · cases safe
  · split at safe
    · cases safe
    · cases key with
      | int n => exact .inl ⟨n, rfl⟩
      | str text => exact .inr ⟨text, rfl⟩
      | _ => cases safe

theorem joinedRows_narrow {kind : JoinKind} {rcols : List String} {matched : Row → Row → Bool} {keep : Row → Bool}
    {rrows : List Row} {l : Row} (kept : ∀ r ∈ rrows, matched l r = true → keep r = true) :
    joinedRows kind rcols matched (rrows.filter keep) l = joinedRows kind rcols matched rrows l := by
  have narrowed : (rrows.filter keep).filter (matched l) = rrows.filter (matched l) := by
    rw [List.filter_filter]
    refine List.filter_congr fun r inside => ?_
    cases hit : matched l r with
    | false => rfl
    | true => rw [kept r inside hit, Bool.true_and]
  rw [joinedRows, joinedRows, narrowed]


section Joins

variable [Host] [Printer] {outer : Row} [BindingPrinter] {on : Expr}

/-- A loop that succeeds has decided the condition for every pair. -/
theorem keepPairs_ok {l : Row} {rrows acc rows : List Row} {cache next : List (String × Expr)}
    (plain : hasSubquery on = false) (cached : ∀ entry ∈ cache, entry.2 = on)
    (ran : keepPairs refuseSubquery outer on l rrows acc cache = (.ok (rows, next) : Except String _)) :
    (∀ entry ∈ next, entry.2 = on) ∧
      ∀ r ∈ rrows, evalCondForRow on (l ++ r ++ outer) = .ok (holds outer on (l ++ r)) := by
  induction rrows generalizing acc cache with
  | nil =>
      cases ran
      exact ⟨cached, fun r member => by cases member⟩
  | cons r rrows ih =>
      have key : bindingKey (subquerySlotsIn on) (l ++ r ++ outer) = .ok (BindingPrinter.showBindings []) := by
        rw [subquerySlotsIn_plain on plain]
        rfl
      have settled : keepPairs (m := Id) refuseSubquery outer on l (r :: rrows) acc cache =
          (evalCondForRow on (l ++ r ++ outer)).bind fun matched =>
            keepPairs (m := Id) refuseSubquery outer on l rrows (if matched then (l ++ r) :: acc else acc)
              ((BindingPrinter.showBindings [], on) :: cache) := by
        rw [keepPairs, key]
        cases found : lookup (BindingPrinter.showBindings []) cache with
        | none =>
            simp only [found, substSubqueries_plain refuseSubquery on (l ++ r ++ outer) plain, pure_bind]
            cases evalCondForRow on (l ++ r ++ outer) <;> rfl
        | some expression =>
            have same : expression = on := cached _ (mem_of_lookup found)
            simp only [found, same, pure_bind]
            cases evalCondForRow on (l ++ r ++ outer) <;> rfl
      rw [settled] at ran
      cases decided : evalCondForRow on (l ++ r ++ outer) with
      | error message =>
          rw [decided] at ran
          cases ran
      | ok matched =>
          rw [decided] at ran
          obtain ⟨kept, others⟩ := ih (List.forall_mem_cons.mpr ⟨rfl, cached⟩) ran
          refine ⟨kept, List.forall_mem_cons.mpr ⟨?_, others⟩⟩
          rw [holds_of_ok decided, decided]

theorem pairRows_ok {kind : JoinKind} {ncols : List String} {lrows rrows acc rows : List Row}
    {cache : List (String × Expr)} (plain : hasSubquery on = false) (cached : ∀ entry ∈ cache, entry.2 = on)
    (ran : pairRows refuseSubquery outer kind ncols on rrows lrows acc cache = (.ok rows : Except String _)) :
    ∀ l ∈ lrows, ∀ r ∈ rrows, evalCondForRow on (l ++ r ++ outer) = .ok (holds outer on (l ++ r)) := by
  induction lrows generalizing acc cache with
  | nil => exact fun l member => by cases member
  | cons l lrows ih =>
      rw [pairRows] at ran
      cases tried : keepPairs refuseSubquery outer on l rrows [] cache with
      | error message =>
          simp only [tried] at ran
          cases ran
      | ok found =>
          obtain ⟨hits, next⟩ := found
          obtain ⟨kept, here⟩ := keepPairs_ok plain cached tried
          simp only [tried] at ran
          exact List.forall_mem_cons.mpr ⟨here, ih kept ran⟩

/-- A nested loop that succeeds pairs the rows for which the condition holds. -/
theorem filterPairsM_ok {kind : JoinKind} {ncols : List String} {lrows rrows rows : List Row}
    (plain : hasSubquery on = false)
    (ran : filterPairsM refuseSubquery outer kind ncols on lrows rrows = (.ok rows : Except String _)) :
    rows = nestedLoop kind ncols (fun l r => holds outer on (l ++ r)) lrows rrows := by
  have decided := pairRows_ok plain (fun entry member => by cases member) ran
  have paired : filterPairsM (m := Id) refuseSubquery outer kind ncols on lrows rrows =
      .ok (nestedLoop kind ncols (fun l r => holds outer on (l ++ r)) lrows rrows) :=
    pairRows_eq (subquerySlotsIn_plain on plain) (fun env => substSubqueries_plain refuseSubquery on env plain) decided
      [] [] fun entry member => by cases member
  rw [paired] at ran
  cases ran
  rfl

theorem joinRowsIn_ok {kind : JoinKind} {lcols rcols : List String} {lrows rrows rows : List Row}
    (plain : hasSubquery on = false) (lefts : HaveColumns lcols lrows) (rights : HaveColumns rcols rrows)
    (ran : joinRowsIn refuseSubquery outer kind rcols on lrows rrows = (.ok rows : Except String _)) :
    rows = nestedLoop kind rcols (joinMatch outer lcols rcols on) lrows rrows := by
  have ncols : (if rrows.isEmpty then rcols else rowsCols rrows) = rcols := by
    cases rrows with
    | nil => rfl
    | cons r rest => exact rights r List.mem_cons_self
  simp only [joinRowsIn, ncols] at ran
  cases lrows with
  | nil =>
      split at ran
      · cases ran
        rfl
      · exact filterPairsM_ok plain ran
  | cons l rest =>
      have names : rowsCols (l :: rest) = lcols := lefts l List.mem_cons_self
      rw [names] at ran
      cases recognized : equiKeys lcols rcols on with
      | none =>
          rw [recognized] at ran
          refine (filterPairsM_ok plain ran).trans (nestedLoop_congr fun l _ r _ => ?_)
          rw [joinMatch, recognized]
      | some keys =>
          rw [recognized] at ran
          cases ran
          refine (hashJoin_eq kind keys rcols (l :: rest) rrows).trans (nestedLoop_congr fun l _ r _ => ?_)
          rw [joinMatch, recognized]

section Indexes

variable {storage : Storage} {db : Database}

/-- Where the index answers for a left row, its block is that of the nested loop over the
whole table. -/
theorem probe_ok {kind : JoinKind} {label : Option String} {table : String} {columns : Option (List String)}
    {keys : EquiKeys} {lcols : List String} {l : Row} {found : Option (List Row)}
    (indexed : Indexed outer storage db) (plain : hasSubquery on = false)
    (recognized : equiKeys lcols (scanCols db label table columns) on = some keys) (left : l.map (·.1) = lcols)
    (ran : probeIndexJoin refuseSubquery (indexOf storage) db outer kind label table keys
      (scanCols db label table columns) on l = (.ok found : Except String _)) :
    ∀ block, found = some block → ∃ scanned, scanRows storage db label table columns = .ok scanned ∧
      block = joinedRows kind (scanCols db label table columns)
        (joinMatch outer lcols (scanCols db label table columns) on) scanned l := by
  intro block answered
  subst answered
  obtain ⟨leftMember, rightMember⟩ := equiKeys_mem recognized
  have value := (lookup_of_mem (left ▸ leftMember) []).1
  have name := qualify_scanned rightMember
  rw [probeIndexJoin, value] at ran
  by_cases safe : indexSafe db table (unqualify label keys.right) (keyValue keys.left l) = true
  · simp only [if_pos safe] at ran
    cases tried : storage.lookupByColumn table (unqualify label keys.right) (keyValue keys.left l) with
    | error message =>
        simp only [indexOf, tried] at ran
        cases ran
    | ok answer =>
        have answered : indexOf storage table (unqualify label keys.right) (keyValue keys.left l) = pure (.ok answer) :=
          tried
        simp only [answered, pure_bind] at ran
        cases answer with
        | noIndex => cases ran
        | indexRows rows =>
            obtain ⟨scanned, read, ordered⟩ := indexed.lookups label table columns (unqualify label keys.right)
              (keyValue keys.left l) rows (by rw [name]; exact rightMember) tried
            simp only [ordered] at ran
            cases joined : joinRowsIn (m := Id) refuseSubquery outer kind (scanCols db label table columns) on [l]
                (scanned.filter (holds outer (lookupCondition label (unqualify label keys.right) (keyValue keys.left l)))) with
            | error message =>
                simp only [joined] at ran
                cases ran
            | ok block =>
                have settled : joinRowsIn (m := Id) refuseSubquery outer kind (scanCols db label table columns) on [l]
                    (scanned.filter (holds outer (lookupCondition label (unqualify label keys.right)
                      (keyValue keys.left l)))) = pure (.ok block) := joined
                simp only [settled, pure_bind] at ran
                cases ran
                refine ⟨scanned, read, ?_⟩
                have lefts : HaveColumns lcols [l] := fun row member => List.mem_singleton.mp member ▸ left
                have rights := scanRows_columns read
                rw [joinRowsIn_ok plain lefts (rights.filter _) joined, nestedLoop, List.flatMap_singleton]
                refine joinedRows_narrow fun r inside hit => ?_
                rw [joinMatch, recognized] at hit
                exact hashMatched_keeps (indexSafe_scalar safe) name (rights r inside ▸ rightMember) hit
  · simp only [if_neg safe] at ran
    cases ran

omit [Host] [Printer] [BindingPrinter] in
/-- Blocks that are all there, put together. -/
theorem blocks_flatten {probe : Row → Except String (Option (List Row))} {block : Row → List Row} {lrows : List Row}
    {found : List (Option (List Row))} {blocks : List (List Row)}
    (each : List.Forall₂ (fun l answer => probe l = .ok answer) lrows found) (all : found.mapM id = some blocks)
    (same : ∀ l ∈ lrows, ∀ rows, probe l = .ok (some rows) → rows = block l) :
    blocks.flatten = lrows.flatMap block := by
  induction each generalizing blocks with
  | nil =>
      cases all
      rfl
  | cons first _ ih =>
      rw [List.mapM_cons] at all
      obtain ⟨rows, here, all⟩ := Option.bind_eq_some_iff.mp all
      obtain ⟨later, there, all⟩ := Option.bind_eq_some_iff.mp all
      cases all
      obtain ⟨equal, others⟩ := List.forall_mem_cons.mp same
      have here : _ = some rows := here
      rw [List.flatten_cons, ih there others, List.flatMap_cons, equal rows (here ▸ first)]

theorem nested_ok {kind : JoinKind} {label : Option String} {table : String} {columns : Option (List String)}
    {lcols : List String} {lrows rows : List Row} (plain : hasSubquery on = false) (lefts : HaveColumns lcols lrows)
    (ran : (do
      let scanned ← scanRows storage db label table columns
      match scanned with
      | .error message => pure (.error message)
      | .ok rrows => joinRowsIn refuseSubquery outer kind (scanCols db label table columns) on lrows rrows :
        Id (Except String (List Row))) = (.ok rows : Except String _)) :
    rows = nestedLoop kind (scanCols db label table columns)
      (joinMatch outer lcols (scanCols db label table columns) on) lrows
      (rowsOf (scanRows storage db label table columns)) := by
  cases read : scanRows storage db label table columns with
  | error message =>
      rw [read] at ran
      cases ran
  | ok rrows =>
      rw [read] at ran
      exact joinRowsIn_ok plain lefts (scanRows_columns read) ran

theorem joinScan_ok {kind : JoinKind} {label : Option String} {table : String} {columns : Option (List String)}
    {lcols : List String} {lrows rows : List Row} (indexed : Indexed outer storage db) (plain : hasSubquery on = false)
    (lefts : HaveColumns lcols lrows)
    (ran : joinScan refuseSubquery (indexOf storage) db outer kind label table lcols (scanCols db label table columns)
      on lrows (scanRows storage db label table columns) = (.ok rows : Except String _)) :
    rows = nestedLoop kind (scanCols db label table columns)
      (joinMatch outer lcols (scanCols db label table columns) on) lrows
      (rowsOf (scanRows storage db label table columns)) := by
  rw [joinScan] at ran
  cases recognized : equiKeys lcols (scanCols db label table columns) on with
  | none =>
      simp only [recognized] at ran
      exact nested_ok plain lefts ran
  | some keys =>
      have tried : lrows.mapM (probeIndexJoin refuseSubquery (indexOf storage) db outer kind label table keys
          (scanCols db label table columns) on) = (pure (lrows.map (probeIndexJoin refuseSubquery (indexOf storage) db
          outer kind label table keys (scanCols db label table columns) on)) : Id _) := List.idRun_mapM
      simp only [recognized, tried, pure_bind] at ran
      cases probes : (lrows.map (probeIndexJoin (m := Id) refuseSubquery (indexOf storage) db outer kind label table keys
          (scanCols db label table columns) on)).mapM (id : Except String _ → _) with
      | error message =>
          simp only [probes] at ran
          cases ran
      | ok found =>
          simp only [probes] at ran
          have each := List.forall₂_map_left_iff.mp (mapM_eq_ok.mp probes)
          cases all : found.mapM id with
          | none =>
              simp only [all] at ran
              exact nested_ok plain lefts ran
          | some blocks =>
              simp only [all] at ran
              cases ran
              refine blocks_flatten each all fun l inside block answered => ?_
              obtain ⟨scanned, read, same⟩ := probe_ok indexed plain recognized (lefts l inside) answered block rfl
              rw [read]
              exact same

end Indexes

end Joins

section Plans

variable [Host] [Printer] {outer : Row} {storage : Storage} {db : Database}

theorem semiRows_nil (kind : SemiKind) (left right : Expr) (rows : List Row) :
    rowsOf (semiRows kind left right outer [] rows) = [] := by
  rw [semiRows]
  cases rows.mapM fun row => evalExpr right (row ++ outer) with
  | error message => rfl
  | ok values => rfl

theorem scanFiltered_ok {label : Option String} {table : String} {condition : Expr} {rows : List Row}
    (ran : scanFiltered storage db outer label table condition = .ok rows) :
    rows = (rowsOf (scanRows storage db label table none)).filter (holds outer condition) := by
  obtain ⟨scanned, read, later⟩ := bind_eq_ok.mp ran
  rw [filterRows_ok later, read]
  rfl

/-- What a LIMIT is fused with gives the first rows of the operator on its own. -/
theorem limited_ok {operator : Fused} {count : Int} {inner rows : List Row}
    (ordered : ∀ spec, operator = .sort spec → SortKeys spec inner)
    (ran : operator.limited outer count inner = .ok rows) :
    ∃ result, operator.run outer inner = .ok result ∧ rows = result.take count.toNat := by
  rw [(limited_eq operator outer count inner ordered).1] at ran
  obtain ⟨result, whole, same⟩ := bind_eq_ok.mp ran
  cases same
  exact ⟨result, whole, rfl⟩

variable [BindingPrinter]

/-- A run that succeeds gives the rows the plan stands for. -/
theorem evalRelOpIn_answer (indexed : Indexed outer storage db) : ∀ (op : RelOp), Shaped outer storage db op →
    ∀ {rows : List Row}, evalRelOpIn storage db outer op = .ok rows → rows = answer outer storage db op
  | .unit, _, _, ran => by
      cases ran
      rfl
  | .compute items source, shaped, _, ran => by
      obtain ⟨inner, before, later⟩ := bind_eq_ok.mp ran
      rw [computeRows_ok later, evalRelOpIn_answer indexed source shaped before]
      rfl
  | .aggregate keys aggregates source, shaped, _, ran => by
      obtain ⟨inner, before, later⟩ := bind_eq_ok.mp ran
      rw [answer, ← evalRelOpIn_answer indexed source shaped before, later]
      rfl
  | .boundAggregate keys aggregates source, shaped, _, ran => by
      obtain ⟨inner, before, later⟩ := bind_eq_ok.mp ran
      rw [answer, ← evalRelOpIn_answer indexed source shaped before, later]
      rfl
  | .scan label table columns, _, _, ran => by
      rw [evalRelOpIn] at ran
      rw [answer, ran]
      rfl
  | .lookup label table column key, shaped, _, ran => by
      obtain ⟨found, read, later⟩ := bind_eq_ok.mp ran
      cases found with
      | noIndex => exact scanFiltered_ok later
      | indexRows found =>
          obtain ⟨scanned, scan, ordered⟩ := indexed.lookups label table none column key found shaped read
          have same := ordered.symm.trans later
          rw [answer, scan]
          cases same
          rfl
  | .range label table column low high, shaped, _, ran => by
      obtain ⟨found, read, later⟩ := bind_eq_ok.mp ran
      cases found with
      | none => exact scanFiltered_ok later
      | some found =>
          obtain ⟨scanned, scan, ordered⟩ := indexed.ranges label table column low high found shaped read
          have same := ordered.symm.trans later
          rw [answer, scan]
          cases same
          rfl
  | .filter condition source, shaped, _, ran => by
      obtain ⟨inner, before, later⟩ := bind_eq_ok.mp ran
      rw [filterRows_ok later, evalRelOpIn_answer indexed source shaped before]
      rfl
  | .project columns source, shaped, _, ran => by
      obtain ⟨inner, before, same⟩ := bind_eq_ok.mp ran
      cases same
      rw [answer, evalRelOpIn_answer indexed source shaped.1 before]
  | .distinct source, shaped, _, ran => by
      obtain ⟨inner, before, same⟩ := bind_eq_ok.mp ran
      cases same
      rw [answer, evalRelOpIn_answer indexed source shaped before]
  | .sort spec source, shaped, _, ran => by
      obtain ⟨inner, before, same⟩ := bind_eq_ok.mp ran
      cases same
      rw [answer, evalRelOpIn_answer indexed source shaped.1 before]
  | .boundSort spec source, shaped, _, ran => by
      obtain ⟨inner, before, later⟩ := bind_eq_ok.mp ran
      rw [answer, ← evalRelOpIn_answer indexed source shaped before, later]
      rfl
  | .derived label source, shaped, _, ran => by
      obtain ⟨inner, before, same⟩ := bind_eq_ok.mp ran
      cases same
      rw [answer, evalRelOpIn_answer indexed source shaped before]
  | .semiJoin kind leftKey rightKey left right query, shaped, _, ran => by
      obtain ⟨leftRows, before, later⟩ := bind_eq_ok.mp ran
      have lefts := evalRelOpIn_answer indexed left shaped.1 before
      split at later
      · rename_i empty
        cases later
        rw [List.isEmpty_iff] at empty
        rw [answer, ← lefts, empty, semiRows_nil]
      · obtain ⟨rightRows, also, later⟩ := bind_eq_ok.mp later
        rw [answer, ← lefts, ← evalRelOpIn_answer indexed right shaped.2 also, later]
        rfl
  | .limit count source, shaped, _, ran => by
      cases source
      case compute items source =>
        obtain ⟨inner, before, later⟩ := bind_eq_ok.mp ran
        obtain ⟨result, whole, rfl⟩ := limited_ok (fun spec other => by cases other) later
        rw [computeRows_ok whole, evalRelOpIn_answer indexed source shaped before]
        rfl
      case filter condition source =>
        obtain ⟨inner, before, later⟩ := bind_eq_ok.mp ran
        obtain ⟨result, whole, rfl⟩ := limited_ok (fun spec other => by cases other) later
        rw [filterRows_ok whole, evalRelOpIn_answer indexed source shaped before]
        rfl
      case sort spec source =>
        obtain ⟨inner, before, later⟩ := bind_eq_ok.mp ran
        have same := evalRelOpIn_answer indexed source shaped.1 before
        obtain ⟨result, whole, rfl⟩ := limited_ok (fun other equal => by cases equal; exact same ▸ shaped.2) later
        cases whole
        rw [same]
        rfl
      all_goals
        obtain ⟨inner, before, same⟩ := bind_eq_ok.mp ran
        have whole := fun fits => evalRelOpIn_answer indexed _ fits before
        cases same
        rw [answer, whole shaped]
  | .join kind left right on, shaped, _, ran => by
      cases right
      case scan label table columns =>
        obtain ⟨leftRows, before, later⟩ := bind_eq_ok.mp ran
        have lefts := evalRelOpIn_answer indexed left shaped.1 before
        rw [joinScan_ok indexed shaped.2.2 (lefts ▸ answer_columns shaped.1) later, lefts]
        rfl
      all_goals
        obtain ⟨leftRows, before, later⟩ := bind_eq_ok.mp ran
        obtain ⟨rightRows, also, later⟩ := bind_eq_ok.mp later
        have lefts := evalRelOpIn_answer indexed left shaped.1 before
        have rights := evalRelOpIn_answer indexed _ shaped.2.1 also
        rw [joinRowsIn_ok shaped.2.2 (lefts ▸ answer_columns shaped.1) (rights ▸ answer_columns shaped.2.1) later, lefts,
          rights]
        rfl

end Plans

end ChuSQL.Engine
