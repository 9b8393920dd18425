import ChuSQL.Engine.Plan.Indexing
import ChuSQL.Engine.Plan.Rewriting

/-! Passes of the optimizer: each rewrites every node of a plan, and none changes the answer. -/

set_option autoImplicit false

namespace ChuSQL.Engine

open Library Model

theorem semiJoin_plain (db : Database) (translate : Statement → Except String RelOp) {condition : Expr}
    (plain : hasSubquery condition = false) (source : RelOp) : semiJoin db translate condition source = none := by
  cases condition <;> first | rfl | cases plain

section Passes

variable [Host] [Printer] {outer : Row} {storage : Storage} {db : Database}

/-! ### One node -/

theorem filter_of_eval {condition other : Expr} (same : ∀ row, evalExpr other row = evalExpr condition row)
    (rows : List Row) : rows.filter (holds outer other) = rows.filter (holds outer condition) := by
  refine List.filter_congr fun row _ => ?_
  rw [holds, holds, evalCondForRow, evalCondForRow, same]

/-- A lookup or a range gives the rows of the filtered scan it stands for. -/
theorem rewriteScan_replaces {estimates : Estimates} {condition : Expr} {source op : RelOp}
    (formed : WellFormed outer storage db (.filter condition source))
    (rewritten : rewriteScan estimates condition source = some op) :
    Replaces outer storage db op (.filter condition source) := by
  cases source
  case scan label table columns =>
    cases columns with
    | some columns => cases rewritten
    | none =>
        have named : ∀ name ∈ colsInExpr condition, name ∈ scanCols db label table none := by
          intro name member
          have one : (scanCols db label table none).count name = 1 := formed.resolved.1.once name member
          exact List.count_pos_iff.mp (by rw [one]; exact Nat.one_pos)
        rw [rewriteScan] at rewritten
        split at rewritten
        · rename_i column key found
          split at rewritten
          · cases rewritten
            obtain ⟨cols, same⟩ := lookupOf_sound found
            have member := named column (by rw [cols]; exact List.mem_singleton_self column)
            have name := qualify_scanned member
            refine ⟨?_, rfl, ?_, trivial⟩
            · rw [answer, answer, answer, lookupCondition, name]
              exact filter_of_eval same _
            · rwa [Shaped, name]
          · cases rewritten
        · split at rewritten
          · rename_i column low high found
            split at rewritten
            · cases rewritten
              have member := named column (rangeOf_column found)
              have name := qualify_scanned member
              refine ⟨?_, rfl, ?_, trivial⟩
              · rw [answer, answer, answer]
                exact filter_of_eval (rangeOf_sound found name) _
              · rwa [Shaped, name]
            · cases rewritten
          · cases rewritten
  all_goals cases rewritten

theorem rewriteJoin_replaces {condition : Expr} {source op : RelOp}
    (formed : WellFormed outer storage db (.filter condition source))
    (rewritten : rewriteJoin db condition source = some op) :
    Replaces outer storage db op (.filter condition source) := by
  cases source
  case join kind left right on =>
    unfold rewriteJoin at rewritten
    cases divides : hasDivision condition || planHasDivision (.join kind left right on) with
    | true =>
        simp only [divides, if_true] at rewritten
        cases rewritten
    | false =>
        simp only [divides, Bool.false_eq_true, if_false] at rewritten
        cases kind with
        | inner =>
            cases rewritten
            exact pushJoin_replaces formed
        | left =>
            cases rewritten
            exact pushLeftJoin_replaces formed
  all_goals cases rewritten

theorem Reads.fold {columns : List String} {condition : Expr} (reads : Reads columns condition) :
    Reads columns (foldConstants condition) where
  once name member := reads.once name ((foldConstants_fewer condition).columns member)
  named := (foldConstants_fewer condition).named reads.named
  plain := (foldConstants_fewer condition).plain reads.plain

theorem fold_replaces {condition : Expr} {source : RelOp}
    (formed : WellFormed outer storage db (.filter condition source)) :
    Replaces outer storage db (.filter (foldConstants condition) source) (.filter condition source) where
  answer := by
    rw [answer, answer]
    exact filter_of_eval (foldConstants_eval condition) _
  columns := rfl
  formed := ⟨formed.shaped, formed.resolved.1.fold, formed.resolved.2⟩

/-- A filter by TRUE keeps every row. -/
theorem filter_true_replaces {source : RelOp} (formed : WellFormed outer storage db (.filter (.litBool true) source)) :
    Replaces outer storage db source (.filter (.litBool true) source) where
  answer := by
    rw [answer]
    refine (List.filter_eq_self.mpr fun row _ => holds_iff.mpr ?_).symm
    rw [evalExpr]
  columns := rfl
  formed := ⟨formed.shaped, formed.resolved.2⟩

variable {estimates : Estimates} {translate : Statement → Except String RelOp}

theorem rewriteFilter_replaces {condition : Expr} {source : RelOp}
    (formed : WellFormed outer storage db (.filter condition source)) :
    Replaces outer storage db (rewriteFilter db estimates translate condition source) (.filter condition source) := by
  have folded := fold_replaces formed
  unfold rewriteFilter
  simp only [semiJoin_plain db translate formed.resolved.1.plain]
  cases index : rewriteScan estimates condition source with
  | some op => exact rewriteScan_replaces formed index
  | none =>
      cases join : rewriteJoin db condition source with
      | some op => exact rewriteJoin_replaces formed join
      | none =>
          dsimp only
          split
          · rename_i always
            rw [always] at folded
            exact (filter_true_replaces folded.formed).trans folded
          · exact (pushOne_replaces folded.formed).trans folded

theorem rewriteCompute_replaces {items : List (String × Expr)} {source : RelOp}
    (formed : WellFormed outer storage db (.compute items source)) :
    Replaces outer storage db (.compute (items.map fun item => (item.1, foldConstants item.2)) source)
      (.compute items source) where
  answer := by
    rw [answer, answer]
    refine List.map_congr_left fun row _ => ?_
    rw [computedRow, computedRow, List.map_map]
    refine List.map_congr_left fun item _ => ?_
    rw [Function.comp_apply, valueOf, valueOf, foldConstants_eval]
  columns := by
    rw [relOpCols, relOpCols, List.map_map]
    rfl
  formed := by
    refine ⟨formed.shaped, formed.resolved.1, fun item member => ?_⟩
    obtain ⟨source, inside, rfl⟩ := List.mem_map.mp member
    exact fun name here => formed.resolved.2 source inside ((foldConstants_fewer source.2).columns here)

/-- Rewriting a node keeps the answer. -/
theorem rewriteNode_replaces {op : RelOp} (formed : WellFormed outer storage db op) :
    Replaces outer storage db (rewriteNode db estimates translate op) op := by
  unfold rewriteNode
  split
  · exact rewriteFilter_replaces formed
  · exact absurd rfl formed.shaped.2.2
  · exact rewriteCompute_replaces formed
  · exact Replaces.refl formed

/-! ### Whole plans -/

namespace Replaces

variable {before source : RelOp}

theorem filter {condition : Expr} (same : Replaces outer storage db before source)
    (formed : WellFormed outer storage db (.filter condition source)) :
    Replaces outer storage db (.filter condition before) (.filter condition source) where
  answer := by rw [Engine.answer, Engine.answer, same.answer]
  columns := same.columns
  formed := ⟨same.formed.shaped, same.columns ▸ formed.resolved.1, same.formed.resolved⟩

theorem project {columns : List String} (same : Replaces outer storage db before source)
    (formed : WellFormed outer storage db (.project columns source)) :
    Replaces outer storage db (.project columns before) (.project columns source) where
  answer := by rw [Engine.answer, Engine.answer, same.answer]
  columns := rfl
  formed := ⟨⟨same.formed.shaped, same.columns ▸ formed.shaped.2.1, formed.shaped.2.2⟩, same.formed.resolved⟩

theorem sort {spec : SortSpec} (same : Replaces outer storage db before source)
    (formed : WellFormed outer storage db (.sort spec source)) :
    Replaces outer storage db (.sort spec before) (.sort spec source) where
  answer := by rw [Engine.answer, Engine.answer, same.answer]
  columns := same.columns
  formed := ⟨⟨same.formed.shaped, same.answer ▸ formed.shaped.2⟩, same.formed.resolved,
    same.columns ▸ formed.resolved.2⟩

theorem join {kind : JoinKind} {left others right : RelOp} {on : Expr} (lefts : Replaces outer storage db before left)
    (rights : Replaces outer storage db others right)
    (formed : WellFormed outer storage db (.join kind left right on)) :
    Replaces outer storage db (.join kind before others on) (.join kind left right on) where
  answer := by rw [Engine.answer, Engine.answer, lefts.answer, rights.answer, lefts.columns, rights.columns]
  columns := by rw [relOpCols, relOpCols, lefts.columns, rights.columns]
  formed := ⟨⟨lefts.formed.shaped, rights.formed.shaped, formed.shaped.2.2⟩, lefts.columns ▸ formed.resolved.1,
    rights.columns ▸ formed.resolved.2.1, lefts.formed.resolved, rights.formed.resolved, by
      rw [lefts.columns, rights.columns]
      exact formed.resolved.2.2.2.2⟩

end Replaces

/-- A pass over a well-formed plan keeps its answer. -/
theorem optimizeRelOp_replaces {op : RelOp} (formed : WellFormed outer storage db op) :
    Replaces outer storage db (optimizeRelOp db estimates translate op) op := by
  induction op with
  | filter condition source ih =>
      have inner := (ih ⟨formed.shaped, formed.resolved.2⟩).filter formed
      exact (rewriteNode_replaces inner.formed).trans inner
  | project columns source ih =>
      have inner := (ih ⟨formed.shaped.1, formed.resolved⟩).project formed
      exact (rewriteNode_replaces inner.formed).trans inner
  | compute items source ih =>
      have same := ih ⟨formed.shaped, formed.resolved.1⟩
      have inner : Replaces outer storage db (.compute items (optimizeRelOp db estimates translate source))
          (.compute items source) :=
        ⟨by rw [answer, answer, same.answer], rfl, same.formed.shaped, same.formed.resolved,
          same.columns ▸ formed.resolved.2⟩
      exact (rewriteNode_replaces inner.formed).trans inner
  | sort spec source ih => exact (ih ⟨formed.shaped.1, formed.resolved.1⟩).sort formed
  | join kind left right on ihLeft ihRight =>
      exact (ihLeft ⟨formed.shaped.1, formed.resolved.2.2.1⟩).join
        (ihRight ⟨formed.shaped.2.1, formed.resolved.2.2.2.1⟩) formed
  | semiJoin kind leftKey rightKey left right query ihLeft ihRight =>
      have lefts := ihLeft ⟨formed.shaped.1, formed.resolved.1⟩
      have rights := ihRight ⟨formed.shaped.2, formed.resolved.2.1⟩
      refine ⟨?_, lefts.columns, ⟨lefts.formed.shaped, rights.formed.shaped⟩, lefts.formed.resolved,
        rights.formed.resolved, lefts.columns ▸ formed.resolved.2.2.1, rights.columns ▸ formed.resolved.2.2.2⟩
      rw [optimizeRelOp, answer, answer, lefts.answer, rights.answer]
  | aggregate keys aggregates source ih =>
      have same := ih ⟨formed.shaped, formed.resolved.1⟩
      exact ⟨by rw [optimizeRelOp, answer, answer, same.answer], rfl, same.formed.shaped, same.formed.resolved,
        same.columns ▸ formed.resolved.2⟩
  | distinct source ih =>
      have same := ih ⟨formed.shaped, formed.resolved⟩
      exact ⟨by rw [optimizeRelOp, answer, answer, same.answer], same.columns, same.formed.shaped, same.formed.resolved⟩
  | limit count source ih =>
      have same := ih ⟨formed.shaped, formed.resolved⟩
      exact ⟨by rw [optimizeRelOp, answer, answer, same.answer], same.columns, same.formed.shaped, same.formed.resolved⟩
  | derived label source ih =>
      have same := ih ⟨formed.shaped, formed.resolved.1⟩
      exact ⟨by rw [optimizeRelOp, answer, answer, same.answer], congrArg (List.map (qualify label)) same.columns,
        same.formed.shaped, same.formed.resolved, same.columns ▸ formed.resolved.2⟩
  | _ => exact Replaces.refl formed

/-- Any number of passes keeps the answer of a plan. -/
theorem passes_replaces {op : RelOp} (formed : WellFormed outer storage db op) (passes : Nat) :
    Replaces outer storage db ((optimizeRelOp db estimates translate)^[passes] op) op := by
  induction passes with
  | zero => exact Replaces.refl formed
  | succ passes ih =>
      rw [Function.iterate_succ_apply']
      exact (optimizeRelOp_replaces ih.formed).trans ih

end Passes

end ChuSQL.Engine
