import Mathlib

/-! Positional list edits at a cut. A list is written as its part before the
position and its part from the position on. -/

set_option autoImplicit false

namespace Library

variable {α β : Type}

theorem insertIdx_cut (left right : List α) (value : α) :
    (left ++ right).insertIdx left.length value = left ++ value :: right := by
  induction left with
  | nil => simp
  | cons head left ih => simpa using ih

theorem eraseIdx_cut (left right : List α) (value : α) :
    (left ++ value :: right).eraseIdx left.length = left ++ right := by
  induction left with
  | nil => simp
  | cons head left ih => simpa using ih

theorem set_cut (left right : List α) (value changed : α) :
    (left ++ value :: right).set left.length changed = left ++ changed :: right := by
  simp

/-- Cut a list at a position inside it. -/
theorem exists_cut (values : List α) (position : Nat) (inside : position < values.length) :
    ∃ left value right, values = left ++ value :: right ∧ left.length = position := by
  refine ⟨values.take position, values[position], values.drop (position + 1), ?_, ?_⟩
  · simp
  · simp [Nat.le_of_lt inside]

/-- Cut a list at the last value of a kind. -/
theorem exists_last {holds : α → Prop} {values : List α} (found : ∃ value ∈ values, holds value) :
    ∃ before value after, values = before ++ value :: after ∧ holds value ∧
      ∀ later ∈ after, ¬holds later := by
  induction values with
  | nil =>
      obtain ⟨value, member, _⟩ := found
      cases member
  | cons head values ih =>
      by_cases later : ∃ value ∈ values, holds value
      · obtain ⟨before, value, after, split, here, none⟩ := ih later
        exact ⟨head :: before, value, after, congrArg (head :: ·) split, here, none⟩
      · obtain ⟨value, member, here⟩ := found
        cases member with
        | head => exact ⟨[], head, values, rfl, here, fun other inside holds =>
            later ⟨other, inside, holds⟩⟩
        | tail _ inside => exact absurd ⟨value, inside, here⟩ later

theorem getElem?_cut (left right : List α) (value : α) :
    (left ++ value :: right)[left.length]? = some value := by
  simp

/-- Around the same middle, permuted surroundings stay permuted. -/
theorem perm_around {left right left' right' : List α} (perm : (left ++ right).Perm (left' ++ right'))
    (middle : List α) : (left ++ middle ++ right).Perm (left' ++ middle ++ right') := by
  have gather : ∀ before after : List α,
      (before ++ middle ++ after).Perm (middle ++ (before ++ after)) := by
    intro before after
    rw [← List.append_assoc]
    exact List.perm_append_comm.append_right after
  exact (gather left right).trans ((perm.append_left middle).trans (gather left' right').symm)

theorem zip_cut {left right : List α} {left' right' : List β}
    (same : left.length = left'.length) :
    (left ++ right).zip (left' ++ right') = left.zip left' ++ right.zip right' :=
  List.zip_append same

/-- Inserting at one position of two zipped lists inserts the pair. -/
theorem zip_insertIdx {first : List α} {second : List β} (position : Nat) (value : α) (value' : β)
    (same : first.length = second.length) :
    (first.insertIdx position value).zip (second.insertIdx position value') =
      (first.zip second).insertIdx position (value, value') := by
  induction position generalizing first second with
  | zero => simp
  | succ position ih =>
      cases first with
      | nil =>
          obtain rfl : second = [] := List.eq_nil_of_length_eq_zero same.symm
          simp
      | cons head first =>
          cases second with
          | nil => simp at same
          | cons head' second => simpa using ih (Nat.succ.inj same)

end Library
