import ChuSQL.Library.Search

/-! What success of a composed fallible computation says of its parts. -/

set_option autoImplicit false

namespace Library

variable {Error Item Result : Type}

theorem bind_eq_ok {first : Except Error Item} {rest : Item → Except Error Result} {result : Result} :
    (first >>= rest) = .ok result ↔ ∃ item, first = .ok item ∧ rest item = .ok result := by
  cases first <;> simp [bind, Except.bind]

theorem pure_eq_ok {item result : Item} :
    (pure item : Except Error Item) = .ok result ↔ item = result := by
  simp [pure, Except.pure]

theorem mapM_eq_ok {each : Item → Except Error Result} {items : List Item} {results : List Result} :
    items.mapM each = .ok results ↔
      List.Forall₂ (fun item result => each item = .ok result) items results := by
  induction items generalizing results with
  | nil => cases results <;> simp [pure, Except.pure]
  | cons item rest ih =>
      simp only [List.mapM_cons, bind_eq_ok, pure_eq_ok]
      cases results with
      | nil => simp
      | cons result results =>
          simp only [List.cons.injEq, List.forall₂_cons, ← ih]
          constructor
          · rintro ⟨_, first, _, later, rfl, rfl⟩
            exact ⟨first, later⟩
          · rintro ⟨first, later⟩
            exact ⟨result, first, results, later, rfl, rfl⟩

theorem forM_eq_ok {each : Item → Except Error Unit} {items : List Item} :
    items.forM each = .ok () ↔ ∀ item ∈ items, each item = .ok () := by
  induction items with
  | nil => simp [pure, Except.pure]
  | cons item rest ih =>
      rw [List.forM_eq_forM, List.forM_cons, List.forall_mem_cons, ← ih]
      cases each item <;> simp [bind, Except.bind]

theorem foldlM_cons_ok {each : Result → Item → Except Error Result} {item : Item} {rest : List Item}
    {start result : Result} :
    (item :: rest).foldlM each start = .ok result ↔
      ∃ next, each start item = .ok next ∧ rest.foldlM each next = .ok result := by
  rw [List.foldlM_cons]
  exact bind_eq_ok

/-! ### Lists related item by item -/

theorem exists_of_mem_right {Rel : Item → Result → Prop} {items : List Item} {results : List Result}
    (related : List.Forall₂ Rel items results) {result : Result} (member : result ∈ results) :
    ∃ item ∈ items, Rel item result := by
  induction related with
  | nil => cases member
  | cons first _ ih =>
      cases List.mem_cons.mp member with
      | inl same => exact ⟨_, List.mem_cons_self, same ▸ first⟩
      | inr later =>
          obtain ⟨item, inside, related⟩ := ih later
          exact ⟨item, List.mem_cons_of_mem _ inside, related⟩

theorem exists_of_mem_left {Rel : Item → Result → Prop} {items : List Item} {results : List Result}
    (related : List.Forall₂ Rel items results) {item : Item} (member : item ∈ items) :
    ∃ result ∈ results, Rel item result :=
  exists_of_mem_right related.flip member

end Library
