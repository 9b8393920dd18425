import Mathlib.Data.List.Basic

/-! Lists made of blocks, one for each item of a list. -/

set_option autoImplicit false

namespace Library.Blocks

variable {Item Output : Type}

/-- Equal lists of blocks, each no longer than the other's, have equal blocks. -/
theorem eq_of_flatMap_eq {items : List Item} {first second : Item → List Output}
    (shorter : ∀ item ∈ items, (first item).length ≤ (second item).length)
    (equal : items.flatMap first = items.flatMap second) : ∀ item ∈ items, first item = second item := by
  induction items with
  | nil => simp
  | cons item items ih =>
      have later : ∀ other ∈ items, (first other).length ≤ (second other).length := fun other inside =>
        shorter other (List.mem_cons_of_mem _ inside)
      have rest : (items.flatMap first).length ≤ (items.flatMap second).length := by
        clear equal ih shorter
        induction items with
        | nil => exact Nat.le_refl _
        | cons other items ih =>
            rw [List.flatMap_cons, List.flatMap_cons, List.length_append, List.length_append]
            exact Nat.add_le_add (later other List.mem_cons_self)
              (ih fun next inside => later next (List.mem_cons_of_mem _ inside))
      rw [List.flatMap_cons, List.flatMap_cons] at equal
      have lengths := congrArg List.length equal
      rw [List.length_append, List.length_append] at lengths
      have here := shorter item List.mem_cons_self
      obtain ⟨same, others⟩ := List.append_inj equal (by omega)
      exact List.forall_mem_cons.mpr ⟨same, ih later others⟩

end Library.Blocks
