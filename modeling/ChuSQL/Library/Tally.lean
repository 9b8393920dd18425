import Mathlib.Data.Finset.Card

/-! How often each item of a bag occurs, as a map without entries for absent
items, and the number of different items that such a map lets one keep. -/

set_option autoImplicit false

namespace Library

variable {Item : Type} [DecidableEq Item]

def tally (items : Multiset Item) (item : Item) : Option Nat :=
  if items.count item = 0 then none else some (items.count item)

def distinct (items : Multiset Item) : Nat := items.toFinset.card

theorem tally_zero (item : Item) : tally (0 : Multiset Item) item = none := by
  simp [tally]

theorem distinct_zero : distinct (0 : Multiset Item) = 0 := rfl

theorem distinct_eq_zero {items : Multiset Item} : distinct items = 0 ↔ items = 0 := by
  rw [distinct, Finset.card_eq_zero, Multiset.toFinset_eq_empty]

theorem tally_getD (items : Multiset Item) (item : Item) :
    (tally items item).getD 0 = items.count item := by
  unfold tally
  split
  · simp_all
  · rfl

theorem tally_cons_self (item : Item) (items : Multiset Item) :
    tally (item ::ₘ items) item = some (items.count item + 1) := by
  simp [tally]

theorem tally_cons_of_ne {item other : Item} (differs : other ≠ item) (items : Multiset Item) :
    tally (item ::ₘ items) other = tally items other := by
  rw [tally, tally, Multiset.count_cons_of_ne differs]

/-- One more occurrence adds a different item just when it is the first. -/
theorem distinct_cons (item : Item) (items : Multiset Item) :
    distinct (item ::ₘ items) =
      if items.count item = 0 then distinct items + 1 else distinct items := by
  rw [distinct, Multiset.toFinset_cons]
  split
  · next absent =>
      rw [Finset.card_insert_of_notMem]
      · rfl
      · rwa [Multiset.mem_toFinset, ← Multiset.count_eq_zero]
  · next present =>
      rw [Finset.insert_eq_of_mem]
      · rfl
      · rwa [Multiset.mem_toFinset, ← Multiset.count_ne_zero]

end Library
