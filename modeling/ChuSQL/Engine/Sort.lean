import ChuSQL.Engine.Expr
import ChuSQL.Library.StableSort

/-! Sorting rows by several columns, and keeping only the first of them. -/

set_option autoImplicit false

namespace ChuSQL.Engine

open Library Model

/-! ### Sort keys -/

abbrev SortSpec := List (String × SortDir)

/-- The keys of a row, in the order of the specification. -/
def sortKey (spec : SortSpec) (row : Row) : List (Option Value) := spec.map fun entry => lookup entry.1 row

/-- Compare two keys; a missing value decides nothing. -/
def compareKeys : List SortDir → List (Option Value) → List (Option Value) → Ordering
  | dir :: rest, some v1 :: as, some v2 :: bs =>
      match compareValue v1 v2 with
      | .eq => compareKeys rest as bs
      | order => if dir = .desc then order.swap else order
  | _ :: rest, _ :: as, _ :: bs => compareKeys rest as bs
  | _, _, _ => .eq

abbrev Decorated := List (Option Value) × Row

/-- A row with its keys. -/
def decorate (spec : SortSpec) (row : Row) : Decorated := (sortKey spec row, row)

def compareRows (spec : SortSpec) (left right : Decorated) : Ordering := compareKeys (spec.map (·.2)) left.1 right.1

def sortRows (spec : SortSpec) (rows : List Row) : List Row :=
  if spec = [] then rows else (sortBy (compareRows spec) (rows.map (decorate spec))).map (·.2)

/-! ### The first rows -/

/-- Cut into blocks of a positive size. -/
def chunksOf {α : Type} (size : Nat) : List α → List (List α)
  | [] => []
  | item :: items => (item :: items.take (size - 1)) :: chunksOf size (items.drop (size - 1))
termination_by items => items.length
decreasing_by
  rw [List.length_drop, List.length_cons]
  omega

/-- Merge two blocks and keep the first rows only. -/
def mergeTwo (spec : SortSpec) : Nat → List Decorated → List Decorated → List Decorated
  | 0, _, _ => []
  | n + 1, [], ys => ys.take (n + 1)
  | n + 1, xs, [] => xs.take (n + 1)
  | n + 1, a :: as, b :: bs =>
      if compareRows spec a b = .gt then b :: mergeTwo spec n (a :: as) bs
      else a :: mergeTwo spec n as (b :: bs)

/-- Merge neighbouring blocks. -/
def pairwise (spec : SortSpec) (k : Nat) : List (List Decorated) → List (List Decorated)
  | a :: b :: rest => mergeTwo spec k a b :: pairwise spec k rest
  | rest => rest

theorem length_pairwise (spec : SortSpec) (k : Nat) (layer : List (List Decorated)) :
    (pairwise spec k layer).length = (layer.length + 1) / 2 := by
  fun_induction pairwise spec k layer with
  | case1 a b rest ih =>
      simp only [List.length_cons, ih]
      omega
  | case2 rest single =>
      cases rest with
      | nil => rfl
      | cons a rest =>
          cases rest with
          | nil => simp only [List.length_singleton, Nat.reduceAdd, Nat.reduceDiv]
          | cons b rest => exact absurd rfl (single a b rest)

/-- Merge layer by layer until one block is left. -/
def reduce (spec : SortSpec) (k : Nat) : List (List Decorated) → List Decorated
  | [] => []
  | [only] => only
  | a :: b :: rest => reduce spec k (pairwise spec k (a :: b :: rest))
termination_by layer => layer.length
decreasing_by
  rw [length_pairwise]
  simp only [List.length_cons]
  omega

def sortRowsTopK (spec : SortSpec) (k : Int) (rows : List Row) : List Row :=
  if k ≤ 0 then []
  else if spec = [] then rows.take k.toNat
  else
    (reduce spec k.toNat ((chunksOf k.toNat rows).map fun chunk =>
      sortBy (compareRows spec) (chunk.map (decorate spec)))).map (·.2)

/-! ### LIMIT over a projection or a filter -/

/-- One step: the row is kept while there is room, and computed in any case. -/
def limitStep (transform : Row → Except String (Option Row)) (state : Int × List Row) (row : Row) :
    Except String (Int × List Row) := do
  let result ← transform row
  match result with
  | some computed =>
      if state.1 > 0 then pure (state.1 - 1, computed :: state.2) else pure state
  | none => pure state

def rowsLimited (limit : Int) (transform : Row → Except String (Option Row)) (rows : List Row) :
    Except String (List Row) := do
  let state ← rows.foldlM (limitStep transform) (max 0 limit, [])
  pure state.2.reverse

section Limit

variable [Host] [Printer]

/-- One row of a projection without subqueries. -/
def computeRow (outer : Row) (items : List (String × Expr)) (row : Row) : Except String Row :=
  items.mapM fun item => do
    let value ← evalExpr item.2 (row ++ outer)
    pure (item.1, value)

/-- The rows for which a condition holds, each checked in turn. -/
def filterRows (outer : Row) (condition : Expr) : List Row → Except String (List Row)
  | [] => pure []
  | row :: rows => do
      let kept ← evalCondForRow condition (row ++ outer)
      let others ← filterRows outer condition rows
      pure (if kept then row :: others else others)

/-- The operators that a LIMIT is fused with. -/
inductive Fused where
  | compute (items : List (String × Expr))
  | filter (condition : Expr)
  | sort (spec : SortSpec)

/-- The operator on its own. -/
def Fused.run (outer : Row) (rows : List Row) : Fused → Except String (List Row)
  | compute items => rows.mapM (computeRow outer items)
  | filter condition => filterRows outer condition rows
  | sort spec => pure (sortRows spec rows)

/-- The operator under a LIMIT. -/
def Fused.limited (outer : Row) (n : Int) (rows : List Row) : Fused → Except String (List Row)
  | compute items => rowsLimited n (fun row => some <$> computeRow outer items row) rows
  | filter condition =>
      rowsLimited n (fun row => do
        let kept ← evalCondForRow condition (row ++ outer)
        pure (if kept then some row else none)) rows
  | sort spec => pure (sortRowsTopK spec n rows)

end Limit

end ChuSQL.Engine
