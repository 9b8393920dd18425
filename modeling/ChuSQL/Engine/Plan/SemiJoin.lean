import ChuSQL.Library.Related
import ChuSQL.Engine.Plan.Runs
import ChuSQL.Engine.Folding

/-! Semi-joins: what the set of the right keys decides is what the membership test of the
expression decides. -/

set_option autoImplicit false

namespace ChuSQL.Engine

open Library Model

/-- Whether a left row stays, by what the membership test gives: IN and EXISTS want TRUE,
NOT IN wants its negation TRUE, and NOT EXISTS wants anything but TRUE. -/
def semiHolds (kind : SemiKind) (result : Value) : Bool :=
  match kind with
  | .matching => result.same (.bool true)
  | .nonMatching => !result.same (.bool true)
  | .notIn => (threeValuedNot result).same (.bool true)

theorem threeValuedNot_true (result : Value) :
    (threeValuedNot result).same (.bool true) = result.same (.bool false) := by
  cases result with
  | bool flag => cases flag <;> rfl
  | _ => rfl

theorem abs_finite {d : Double} (finite : d.isFinite) : d.abs.isFinite ∧ d.abs.value = |d.value| := by
  cases d with
  | finite value held => exact ⟨rfl, rfl⟩
  | negativeZero => exact ⟨rfl, abs_zero.symm⟩
  | infinity negative => cases finite
  | nan => cases finite

/-- A double that is safe is at most 2^53. -/
theorem safe_double {d : Double} (finite : d.isFinite) (safe : safeNumber (.float d) = true) :
    |d.value| ≤ 9007199254740992 := by
  obtain ⟨back, rounded⟩ := fromIntegral_value 9007199254740992
  obtain ⟨kept, absolute⟩ := abs_finite finite
  have limit : (fromIntegral 9007199254740992).value = 9007199254740992 := by
    have whole : nearest ((9007199254740992 : ℤ) : ℚ) = ((9007199254740992 : ℤ) : ℚ) :=
      (representable_int (by norm_num)).nearest
    rw [rounded]
    exact whole
  rw [safeNumber, Double.geq, Double.less_value kept back, Double.same_value back kept, limit, absolute,
    Bool.or_eq_true, decide_eq_true_iff, decide_eq_true_iff] at safe
  exact safe.elim le_of_lt fun same => same.symm.le

/-- Numbers that are safe do not collide, nor do labels of their types. -/
theorem safe_apart {left right : Value} (consistent : Consistent left) (safe : safeNumber right = true) :
    ¬Value.Collides left right := by
  intro collides
  cases left <;> cases right
  case int.float n d =>
    have small := safe_double (Value.collides_finite collides) safe
    exact absurd collides.1 (not_lt.mpr small)
  case enum.enum name labels label other others second =>
    exact collides.2.2.1 consistent
  all_goals exact collides

/-- Equality in three-valued logic, of a value that is not NULL. -/
def equalityOf (value other : Value) : Value := if isNull other then .null else .bool (valuesEqual value other)

theorem equalityOf_true (value other : Value) :
    (equalityOf value other).same (.bool true) = (!isNull other && valuesEqual value other) := by
  rw [equalityOf]
  cases isNull other with
  | true => rfl
  | false => cases valuesEqual value other <;> rfl

theorem equalityOf_null (value other : Value) : isNull (equalityOf value other) = isNull other := by
  rw [equalityOf]
  cases isNull other <;> rfl

/-- One comparison of a membership test. -/
theorem equal_result {value other result : Value} (named : isNull value = false) (consistent : Consistent value)
    (also : Consistent other) (safe : safeNumber value = true) (safely : safeNumber other = true)
    (compared : executeOperator .eq [value, other] = .ok result) :
    equalityOf value other = result := by
  have decided : compareValues .eq (· == .eq) value other = .ok result := compared
  have same : (compareValue value other == .eq) = valuesEqual value other := by
    rw [Bool.eq_iff_iff, beq_iff_eq]
    exact compareValue_eq (safe_apart consistent safely) (safe_apart also safe)
  rw [compareValues, named, Bool.false_or] at decided
  rw [equalityOf]
  split
  · rename_i none
    rw [if_pos none] at decided
    cases decided
    rfl
  · rename_i some
    rw [if_neg some] at decided
    split at decided
    · cases decided
      rw [same]
    · cases decided

/-- The membership test among safe values, by their equality. -/
theorem inValues_safe {value result : Value} {values : List Value} (named : isNull value = false)
    (consistent : Consistent value) (each : ∀ other ∈ values, Consistent other) (safe : safeNumber value = true)
    (safely : values.all safeNumber = true) (member : inValues value values = .ok result) :
    result = if values.any fun other => !isNull other && valuesEqual value other then .bool true
      else if values.any isNull then .null else .bool false := by
  rw [inValues, named] at member
  split at member
  · rename_i empty
    rw [List.isEmpty_iff.mp empty]
    cases member
    rfl
  · obtain ⟨results, compared, same⟩ := bind_eq_ok.mp member
    have found : values.map (equalityOf value) = results := by
      rw [← List.forall₂_eq_eq_eq, List.forall₂_map_left_iff]
      refine (forall₂_mem (mapM_eq_ok.mp compared)).imp fun other result found => ?_
      exact equal_result named consistent (each other found.1) safe (List.all_eq_true.mp safely other found.1) found.2.2
    rw [← found, List.any_map, List.any_map] at same
    simp only [Function.comp_def, equalityOf_true, equalityOf_null] at same
    cases same
    rfl

theorem found_eq (value : Value) (values : List Value) :
    ((values.filter fun other => !isNull other).any fun other => (canonicalValue other).same (canonicalValue value)) =
      values.any fun other => !isNull other && valuesEqual value other := by
  rw [List.any_filter]
  congr 1
  funext other
  congr 1
  rw [Bool.eq_iff_iff]
  exact ⟨valuesEqual_symm, valuesEqual_symm⟩

theorem filterM_same {Item : Type} {keep other : Item → Except String Bool} :
    ∀ {items kept : List Item}, (∀ item ∈ items, ∀ flag, keep item = .ok flag → other item = .ok flag) →
      filterM keep items = .ok kept → filterM other items = .ok kept
  | [], _, _, ran => ran
  | item :: items, kept, same, ran => by
      obtain ⟨flag, decided, later⟩ := bind_eq_ok.mp ran
      obtain ⟨others, rest, result⟩ := bind_eq_ok.mp later
      have each := fun entry inside => same entry (List.mem_cons_of_mem _ inside)
      exact bind_eq_ok.mpr ⟨flag, same item List.mem_cons_self flag decided,
        bind_eq_ok.mpr ⟨others, filterM_same each rest, result⟩⟩

section Rows

variable [Host] [Printer] {outer : Row} {leftKey rightKey : Expr} {values : List Value}

/-- A semi-join keeps a left row as its membership test says. -/
theorem semiKeeps_exact (kind : SemiKind) {row : Row} {value result : Value}
    (evaluated : evalExpr leftKey (row ++ outer) = .ok value) (consistent : Consistent value)
    (each : ∀ other ∈ values, Consistent other) (member : inValues value values = .ok result) :
    semiKeeps kind leftKey outer values row = .ok (semiHolds kind result) := by
  rw [semiKeeps, evaluated]
  show (if isNull value then _ else _) = _
  cases named : isNull value with
  | true =>
      rw [inValues, named] at member
      cases empty : values.isEmpty <;> rw [empty] at member <;> cases member <;> cases kind <;>
        simp [semiHolds] <;> rfl
  | false =>
      rw [if_neg (by decide)]
      split
      · rename_i safe
        rw [Bool.and_eq_true] at safe
        have decided := inValues_safe named consistent each safe.2 safe.1 member
        rw [decided, found_eq]
        cases values.any fun other => !isNull other && valuesEqual value other with
        | true => cases kind <;> rfl
        | false => cases kind <;> cases values.any isNull <;> rfl
      · rw [member]
        cases kind with
        | matching => rfl
        | nonMatching => rfl
        | notIn => exact congrArg Except.ok (threeValuedNot_true result).symm

/-- The left rows that the membership test keeps, each tested against every right key. -/
def testedRows (kind : SemiKind) (leftKey rightKey : Expr) (outer : Row) (leftRows rightRows : List Row) :
    Except String (List Row) := do
  let values ← rightRows.mapM fun row => evalExpr rightKey (row ++ outer)
  filterM (fun row => do
    let value ← evalExpr leftKey (row ++ outer)
    let result ← inValues value values
    pure (semiHolds kind result)) leftRows

/-- Where the membership test answers for every left row, a semi-join keeps the rows that
it keeps. The set of the right keys may also answer where the test fails on a type. -/
theorem semiRows_exact (kind : SemiKind) (leftKey rightKey : Expr) (outer : Row) (leftRows rightRows : List Row)
    (enclosing : ∀ entry ∈ outer, Consistent entry.2)
    (lefts : ∀ row ∈ leftRows, ∀ entry ∈ row, Consistent entry.2)
    (rights : ∀ row ∈ rightRows, ∀ entry ∈ row, Consistent entry.2) (kept : List Row)
    (tested : testedRows kind leftKey rightKey outer leftRows rightRows = .ok kept) :
    semiRows kind leftKey rightKey outer leftRows rightRows = .ok kept := by
  have joined (row : Row) (held : ∀ entry ∈ row, Consistent entry.2) : ∀ entry ∈ row ++ outer, Consistent entry.2 :=
    fun entry inside => (List.mem_append.mp inside).elim (held entry) (enclosing entry)
  obtain ⟨values, keys, filtered⟩ := bind_eq_ok.mp tested
  have each : ∀ other ∈ values, Consistent other := by
    intro other inside
    obtain ⟨row, member, evaluated⟩ := exists_of_mem_right (mapM_eq_ok.mp keys) inside
    exact evalExpr_consistent (joined row (rights row member)) evaluated
  refine bind_eq_ok.mpr ⟨values, keys, filterM_same (fun row inside flag decided => ?_) filtered⟩
  obtain ⟨value, evaluated, later⟩ := bind_eq_ok.mp decided
  obtain ⟨result, member, same⟩ := bind_eq_ok.mp later
  cases same
  exact semiKeeps_exact kind evaluated (evalExpr_consistent (joined row (lefts row inside)) evaluated) each member

end Rows

/-! NOT IN of two numbers and NULL, without a NULL among the keys and with one. -/

def leftNumbers : List Row := [[("a", .int 1)], [("a", .int 2)], [("a", .null)]]

def numbersNotIn (keys : List Row) : Except String (List Row) :=
  @semiRows silentHost silentPrinter .notIn (.col "a") (.col "b") [] leftNumbers keys

theorem semiRows_exact_numbers : numbersNotIn [[("b", .int 2)]] = .ok [[("a", .int 1)]] ∧
    numbersNotIn [[("b", .int 2)], [("b", .null)]] = .ok [] := by
  have numbers : ∀ row ∈ leftNumbers, ∀ entry ∈ row, Consistent entry.2 := by
    simp [leftNumbers, Consistent]
  constructor
  · refine @semiRows_exact silentHost silentPrinter .notIn (.col "a") (.col "b") [] leftNumbers _
      (fun _ inside => absurd inside List.not_mem_nil) numbers ?_ _ ?_
    · simp [Consistent]
    · rfl
  · refine @semiRows_exact silentHost silentPrinter .notIn (.col "a") (.col "b") [] leftNumbers _
      (fun _ inside => absurd inside List.not_mem_nil) numbers ?_ _ ?_
    · simp [Consistent]
    · rfl

end ChuSQL.Engine
