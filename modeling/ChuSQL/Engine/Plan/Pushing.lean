import ChuSQL.Engine.Plan.Optimize
import ChuSQL.Engine.Plan.Runs

/-! Conditions taken apart, put together, and moved into the sides of a join. -/

set_option autoImplicit false

namespace ChuSQL.Engine

open Library Model

theorem andValues_true {x y : Value} : andValues x y = .ok (.bool true) ↔ x = .bool true ∧ y = .bool true := by
  constructor
  · intro both
    unfold andValues at both
    split at both <;> cases both
    exact ⟨rfl, rfl⟩
  · rintro ⟨rfl, rfl⟩
    rfl

theorem orValues_true {x y value : Value} (found : orValues x y = .ok value) :
    value = .bool true ↔ x = .bool true ∨ y = .bool true := by
  unfold orValues at found
  split at found <;> cases found <;> simp_all

theorem lookup_left {name : String} {l : Row} (member : name ∈ l.map (·.1)) (rest outer : Row) :
    lookup name (l ++ rest ++ outer) = lookup name (l ++ outer) := by
  rw [List.append_assoc, (lookup_of_mem member (rest ++ outer)).2, (lookup_of_mem member outer).2]

theorem lookup_right {name : String} {l r : Row} (absent : name ∉ l.map (·.1)) (outer : Row) :
    lookup name (l ++ r ++ outer) = lookup name (r ++ outer) := by
  rw [List.append_assoc, lookup_of_not_mem absent]

section Conditions

variable [Host] [Printer] {outer : Row}

theorem evalCond_true {condition : Expr} {env : Row} :
    evalCondForRow condition env = .ok true ↔ evalExpr condition env = .ok (.bool true) := by
  constructor
  · intro decided
    obtain ⟨value, evaluated, same⟩ := bind_eq_ok.mp decided
    cases value <;> cases same
    exact evaluated
  · intro evaluated
    rw [evalCondForRow, evaluated]
    rfl

theorem holds_iff {condition : Expr} {row : Row} :
    holds outer condition row = true ↔ evalExpr condition (row ++ outer) = .ok (.bool true) := by
  rw [← evalCond_true, holds]
  cases evalCondForRow condition (row ++ outer) with
  | error message => exact Iff.intro (fun failed => by cases failed) fun failed => by cases failed
  | ok kept => exact Iff.intro (fun same => congrArg Except.ok same) fun same => by cases same; rfl

theorem holds_and (left right : Expr) (row : Row) :
    holds outer (.binary .and left right) row = (holds outer left row && holds outer right row) := by
  rw [Bool.eq_iff_iff, Bool.and_eq_true, holds_iff, holds_iff, holds_iff, evalExpr]
  constructor
  · intro both
    obtain ⟨x, first, later⟩ := bind_eq_ok.mp both
    obtain ⟨y, second, computed⟩ := bind_eq_ok.mp later
    obtain ⟨rfl, rfl⟩ := andValues_true.mp computed
    exact ⟨first, second⟩
  · rintro ⟨first, second⟩
    rw [first, second]
    rfl

/-- Every part of a chain of AND holds where the chain does. -/
theorem splitConj_holds (condition : Expr) (row : Row) :
    (splitConj condition).all (holds outer · row) = holds outer condition row := by
  fun_induction splitConj condition with
  | case1 left right ihLeft ihRight => rw [List.all_append, ihLeft, ihRight, holds_and]
  | case2 condition => rw [List.all_cons, List.all_nil, Bool.and_true]

theorem foldl_and_holds (conditions : List Expr) (condition : Expr) (row : Row) :
    holds outer (conditions.foldl (.binary .and) condition) row =
      (holds outer condition row && conditions.all (holds outer · row)) := by
  induction conditions generalizing condition with
  | nil => rw [List.all_nil, Bool.and_true, List.foldl_nil]
  | cons next rest ih => rw [List.foldl_cons, ih, holds_and, List.all_cons, Bool.and_assoc]

/-- A condition that only reads columns of a part of the row has the value of that part. -/
theorem holds_congr {condition : Expr} {row other : Row} (named : hasBoundColumns condition = false)
    (same : ∀ name ∈ colsInExpr condition, lookup name (row ++ outer) = lookup name (other ++ outer)) :
    holds outer condition row = holds outer condition other := by
  rw [holds, holds, evalCondForRow, evalCondForRow, evalExpr_congr condition (.inl named) same]

end Conditions

/-! ### Joins -/

section Loops

variable {matched : Row → Row → Bool} {ncols : List String} {lrows rrows : List Row} {keepLeft keepRight : Row → Bool}

theorem nestedLoop_cons {kind : JoinKind} (l : Row) : nestedLoop kind ncols matched (l :: lrows) rrows =
    joinedRows kind ncols matched rrows l ++ nestedLoop kind ncols matched lrows rrows := List.flatMap_cons

theorem joinedRows_inner (l : Row) :
    joinedRows .inner ncols matched rrows l = (rrows.filter (matched l)).map (l ++ ·) := by
  rw [joinedRows]
  split
  · rename_i none
    rw [List.isEmpty_iff.mp none]
    rfl
  · rfl

/-- Filtering an inner join is joining the filtered sides, for a condition of the sides. -/
theorem filter_inner (whole : Row → Bool)
    (parts : ∀ l ∈ lrows, ∀ r ∈ rrows, whole (l ++ r) = (keepLeft l && keepRight r)) :
    (nestedLoop .inner ncols matched lrows rrows).filter whole =
      nestedLoop .inner ncols matched (lrows.filter keepLeft) (rrows.filter keepRight) := by
  induction lrows with
  | nil => rfl
  | cons l lrows ih =>
      obtain ⟨here, later⟩ := List.forall_mem_cons.mp parts
      have rest := ih later
      rw [nestedLoop_cons, List.filter_append, rest, joinedRows_inner, List.filter_map]
      cases kept : keepLeft l with
      | false =>
          have none : (rrows.filter (matched l)).filter (whole ∘ (l ++ ·)) = [] := by
            refine List.filter_eq_nil_iff.mpr fun r member => ?_
            rw [Function.comp_apply, here r (List.mem_of_mem_filter member), kept]
            exact Bool.false_ne_true
          rw [none, List.filter_cons_of_neg (by rw [kept]; exact Bool.false_ne_true)]
          rfl
      | true =>
          have same : (rrows.filter (matched l)).filter (whole ∘ (l ++ ·)) = (rrows.filter keepRight).filter (matched l) := by
            rw [List.filter_filter, List.filter_filter]
            refine List.filter_congr fun r member => ?_
            rw [Function.comp_apply, here r member, kept, Bool.true_and, Bool.and_comm]
          rw [same, List.filter_cons_of_pos kept, nestedLoop_cons, joinedRows_inner]

/-- Filtering a join by a condition of its left side is joining the filtered side. -/
theorem filter_left {kind : JoinKind} (whole : Row → Bool) (parts : ∀ l ∈ lrows, ∀ r, whole (l ++ r) = keepLeft l) :
    (nestedLoop kind ncols matched lrows rrows).filter whole =
      nestedLoop kind ncols matched (lrows.filter keepLeft) rrows := by
  induction lrows with
  | nil => rfl
  | cons l lrows ih =>
      obtain ⟨here, later⟩ := List.forall_mem_cons.mp parts
      have rest := ih later
      have block : ∀ row ∈ joinedRows kind ncols matched rrows l, whole row = keepLeft l := by
        intro row member
        rw [joinedRows] at member
        split at member
        · cases kind with
          | inner => cases member
          | left =>
              cases List.mem_singleton.mp member
              exact here _
        · obtain ⟨r, _, rfl⟩ := List.mem_map.mp member
          exact here r
      rw [nestedLoop_cons, List.filter_append, rest, List.filter_congr block]
      cases kept : keepLeft l with
      | false =>
          rw [List.filter_false, List.filter_cons_of_neg (by rw [kept]; exact Bool.false_ne_true)]
          rfl
      | true =>
          rw [List.filter_true, List.filter_cons_of_pos kept, nestedLoop_cons]

end Loops

end ChuSQL.Engine
