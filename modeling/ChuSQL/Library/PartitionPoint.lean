import ChuSQL.Library.ListCut

/-! Partition points of lists. A slice is partitioned by a predicate when the
elements that satisfy it come first; binary search then finds the length of
that prefix. -/

set_option autoImplicit false

namespace Library

section PartitionPoint

variable {α : Type} {holds : α → Bool}

/-- Number of leading elements that satisfy the predicate. On a partitioned
list this is what a binary search returns. -/
def partitionPoint (holds : α → Bool) (values : List α) : Nat :=
  (values.takeWhile holds).length

theorem partitionPoint_le (holds : α → Bool) (values : List α) :
    partitionPoint holds values ≤ values.length :=
  (List.takeWhile_prefix holds).length_le

/-- A weaker predicate is satisfied by a longer prefix. -/
theorem partitionPoint_mono {weaker : α → Bool} {values : List α}
    (weakens : ∀ value, holds value = true → weaker value = true) :
    partitionPoint holds values ≤ partitionPoint weaker values := by
  simp only [partitionPoint]
  induction values with
  | nil => simp
  | cons head rest ih =>
      cases decided : holds head with
      | true => simpa [List.takeWhile_cons, decided, weakens head decided] using ih
      | false => simp [List.takeWhile_cons, decided]

/-- A cut whose left part satisfies the predicate and whose right part
does not is the partition point. -/
theorem partitionPoint_append {left right : List α}
    (below : ∀ value ∈ left, holds value = true)
    (above : ∀ value ∈ right, holds value = false) :
    partitionPoint holds (left ++ right) = left.length := by
  have stops : right.takeWhile holds = [] := by
    cases right with
    | nil => rfl
    | cons head rest => simp [above head List.mem_cons_self]
  rw [partitionPoint, List.takeWhile_append_of_pos below, stops, List.append_nil]

/-- On a partitioned list the partition point is such a cut. -/
theorem partitionPoint_cut {values : List α}
    (down : values.Pairwise fun first second => holds second = true → holds first = true) :
    ∃ left right, values = left ++ right ∧
      partitionPoint holds values = left.length ∧
      (∀ value ∈ left, holds value = true) ∧
      ∀ value ∈ right, holds value = false := by
  refine ⟨values.takeWhile holds, values.dropWhile holds,
    (List.takeWhile_append_dropWhile).symm, rfl, ?_, ?_⟩
  · intro value member
    exact List.mem_takeWhile_imp member
  · induction values with
    | nil => simp
    | cons head rest ih =>
        obtain ⟨earlier, later⟩ := List.pairwise_cons.mp down
        cases decided : holds head with
        | true => simpa [List.dropWhile_cons, decided] using ih later
        | false =>
            intro value member
            simp only [List.dropWhile_cons, decided, Bool.false_eq_true, ↓reduceIte,
              List.mem_cons] at member
            rcases member with rfl | member
            · exact decided
            · cases reached : holds value with
              | false => rfl
              | true => simp [earlier value member reached] at decided

end PartitionPoint

section Sorted

variable {κ : Type} [LinearOrder κ]

/-- Partition point of the keys strictly below a bound. -/
theorem partitionPoint_lt_cut {keys : List κ} (sorted : keys.Pairwise (· ≤ ·)) (bound : κ)
    (holds : κ → Bool) (meaning : ∀ key, holds key = true ↔ key < bound) :
    ∃ left right, keys = left ++ right ∧ partitionPoint holds keys = left.length ∧
      (∀ key ∈ left, key < bound) ∧ ∀ key ∈ right, bound ≤ key := by
  obtain ⟨left, right, split, count, below, above⟩ :=
    partitionPoint_cut
      (sorted.imp fun {first second} ordered reached =>
        (meaning first).mpr (lt_of_le_of_lt ordered ((meaning second).mp reached)))
  refine ⟨left, right, split, count, fun key member => (meaning key).mp (below key member), ?_⟩
  intro key member
  have outside := above key member
  exact le_of_not_gt fun less => by simp [(meaning key).mpr less] at outside

/-- Partition point of the keys at or below a bound. -/
theorem partitionPoint_le_cut {keys : List κ} (sorted : keys.Pairwise (· ≤ ·)) (bound : κ)
    (holds : κ → Bool) (meaning : ∀ key, holds key = true ↔ key ≤ bound) :
    ∃ left right, keys = left ++ right ∧ partitionPoint holds keys = left.length ∧
      (∀ key ∈ left, key ≤ bound) ∧ ∀ key ∈ right, bound < key := by
  obtain ⟨left, right, split, count, below, above⟩ :=
    partitionPoint_cut
      (sorted.imp fun {first second} ordered reached =>
        (meaning first).mpr (le_trans ordered ((meaning second).mp reached)))
  refine ⟨left, right, split, count, fun key member => (meaning key).mp (below key member), ?_⟩
  intro key member
  have outside := above key member
  exact lt_of_not_ge fun less => by simp [(meaning key).mpr less] at outside

end Sorted

end Library
