import ChuSQL.Library.StableSort

/-! Lists whose items are related one by one, and what operations make of them. -/

set_option autoImplicit false

namespace Library

universe u v

variable {Item : Type u} {Other : Type v} {related : Item → Other → Prop} {order : Item → Item → Ordering}
  {otherOrder : Other → Other → Ordering}

theorem forall₂_insertBy
    (same : ∀ a b x y, related a x → related b y → order a b = otherOrder x y) {item : Item} {other : Other}
    {items : List Item} {others : List Other} (here : related item other) (each : List.Forall₂ related items others) :
    List.Forall₂ related (insertBy order item items) (insertBy otherOrder other others) := by
  induction each with
  | nil => exact .cons here .nil
  | cons first rest ih =>
      rw [insertBy_cons, insertBy_cons, same _ _ _ _ here first]
      split
      · exact .cons first ih
      · exact .cons here (.cons first rest)

/-- Sorting keeps what relates items, where related items are ordered alike. -/
theorem forall₂_sortBy (same : ∀ a b x y, related a x → related b y → order a b = otherOrder x y) {items : List Item}
    {others : List Other} (each : List.Forall₂ related items others) :
    List.Forall₂ related (sortBy order items) (sortBy otherOrder others) := by
  induction each with
  | nil => exact .nil
  | cons first _ ih =>
      rw [sortBy_cons, sortBy_cons]
      exact forall₂_insertBy same first ih

theorem map_eq_of_forall₂ {Image : Type*} {image : Item → Image} {otherImage : Other → Image}
    (same : ∀ a x, related a x → image a = otherImage x) {items : List Item} {others : List Other}
    (each : List.Forall₂ related items others) : items.map image = others.map otherImage := by
  rw [← List.forall₂_eq_eq_eq, List.forall₂_map_left_iff, List.forall₂_map_right_iff]
  exact each.imp same

theorem mapM_eq_of_forall₂ {Image : Type} {image : Item → Except String Image}
    {otherImage : Other → Except String Image}
    (same : ∀ a x, related a x → image a = otherImage x) {items : List Item} {others : List Other}
    (each : List.Forall₂ related items others) : items.mapM image = others.mapM otherImage := by
  induction each with
  | nil => rfl
  | cons first _ ih => rw [List.mapM_cons, List.mapM_cons, same _ _ first, ih]

/-- Related items are items of the two lists. -/
theorem forall₂_mem {items : List Item} {others : List Other} (each : List.Forall₂ related items others) :
    List.Forall₂ (fun a x => a ∈ items ∧ x ∈ others ∧ related a x) items others := by
  induction each with
  | nil => exact .nil
  | cons first _ ih =>
      refine .cons ⟨List.mem_cons_self, List.mem_cons_self, first⟩ (ih.imp fun a x found => ?_)
      exact ⟨List.mem_cons_of_mem _ found.1, List.mem_cons_of_mem _ found.2.1, found.2.2⟩

end Library
