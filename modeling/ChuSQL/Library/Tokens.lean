import Mathlib.Data.Fintype.Card
import Mathlib.Logic.Function.Basic
import Mathlib.Data.Finset.Max
import Mathlib.Algebra.BigOperators.Group.Finset.Basic
import Mathlib.Algebra.BigOperators.Group.Finset.Piecewise
import Mathlib.Tactic.Ring

/-! Cells that hand a token to one thread at a time, how many threads are in a phase, and
why threads that wait in a fixed order do not all wait. -/

set_option autoImplicit false

namespace Library

variable {Thread Phase : Type}

/-- A cell is empty exactly when a thread has its token, and then one thread has it. -/
structure Held (full : Bool) (holds : Phase → Bool) (phase : Thread → Phase) : Prop where
  empty_iff : full = false ↔ ∃ thread, holds (phase thread) = true
  one : ∀ first second, holds (phase first) = true → holds (phase second) = true → first = second

namespace Held

variable {full : Bool} {holds : Phase → Bool} {phase : Thread → Phase} {thread : Thread} {next : Phase}

theorem empty (held : Held full holds phase) (holder : holds (phase thread) = true) : full = false :=
  held.empty_iff.mpr ⟨thread, holder⟩

theorem nobody (held : Held true holds phase) (other : Thread) : holds (phase other) = false := by
  cases found : holds (phase other) with
  | false => rfl
  | true => exact absurd (held.empty found) (by simp)

theorem other (held : Held full holds phase) (holder : holds (phase thread) = true) {second : Thread}
    (differs : second ≠ thread) : holds (phase second) = false := by
  cases found : holds (phase second) with
  | false => rfl
  | true => exact absurd (held.one second thread found holder) differs

variable [DecidableEq Thread]

theorem take (held : Held true holds phase) (taken : holds next = true) :
    Held false holds (Function.update phase thread next) := by
  constructor
  · exact ⟨fun _ => ⟨thread, by simpa using taken⟩, fun _ => rfl⟩
  · intro first second one two
    by_cases atFirst : first = thread
    · by_cases atSecond : second = thread
      · rw [atFirst, atSecond]
      · rw [Function.update_of_ne atSecond, held.nobody] at two
        cases two
    · rw [Function.update_of_ne atFirst, held.nobody] at one
      cases one

theorem put (held : Held full holds phase) (had : holds (phase thread) = true) (given : holds next = false) :
    Held true holds (Function.update phase thread next) := by
  have nobody : ∀ other, holds (Function.update phase thread next other) = false := by
    intro second
    by_cases same : second = thread
    · rw [same, Function.update_self, given]
    · rw [Function.update_of_ne same, held.other had same]
  constructor
  · simp [nobody]
  · intro first second one
    rw [nobody] at one
    cases one

theorem keep (held : Held full holds phase) (same : holds next = holds (phase thread)) :
    Held full holds (Function.update phase thread next) := by
  have unchanged : ∀ other, holds (Function.update phase thread next other) = holds (phase other) := by
    intro second
    by_cases here : second = thread
    · rw [here, Function.update_self, same]
    · rw [Function.update_of_ne here]
  constructor
  · simpa only [unchanged] using held.empty_iff
  · simpa only [unchanged] using held.one

end Held

/-! ### Counting threads -/

section Count

variable [Fintype Thread] {counts : Phase → Bool} {phase : Thread → Phase} {thread : Thread} {next : Phase}

/-- How many threads are in a phase that counts. -/
def population (counts : Phase → Bool) (phase : Thread → Phase) : Nat :=
  (Finset.univ.filter fun thread => counts (phase thread) = true).card

theorem population_pos : 0 < population counts phase ↔ ∃ thread, counts (phase thread) = true := by
  simp [population, Finset.card_pos, Finset.filter_nonempty_iff]

theorem population_zero : population counts phase = 0 ↔ ∀ thread, counts (phase thread) = false := by
  simp [population, Finset.card_eq_zero, Finset.filter_eq_empty_iff]

variable [DecidableEq Thread]

theorem population_keep (same : counts next = counts (phase thread)) :
    population counts (Function.update phase thread next) = population counts phase := by
  unfold population
  congr 1
  ext other
  by_cases here : other = thread
  · rw [here]
    simp [same]
  · simp [here]

theorem population_add (fresh : counts (phase thread) = false) (new : counts next = true) :
    population counts (Function.update phase thread next) = population counts phase + 1 := by
  have inserted : (Finset.univ.filter fun other => counts (Function.update phase thread next other) = true) =
      insert thread (Finset.univ.filter fun other => counts (phase other) = true) := by
    ext other
    by_cases here : other = thread
    · rw [here]
      simp [new]
    · simp [here]
  rw [population, inserted, Finset.card_insert_of_notMem (by simp [fresh]), population]

theorem population_remove (had : counts (phase thread) = true) (gone : counts next = false) :
    population counts (Function.update phase thread next) + 1 = population counts phase := by
  have back : population counts (Function.update (Function.update phase thread next) thread (phase thread)) =
      population counts (Function.update phase thread next) + 1 := population_add (by simpa using gone) had
  rw [← back, Function.update_idem, Function.update_eq_self]

end Count

theorem sum_update [Fintype Thread] [DecidableEq Thread] (amount : Thread → Nat) (thread : Thread) (new : Nat) :
    ∑ other, Function.update amount thread new other + amount thread = ∑ other, amount other + new := by
  rw [Finset.sum_update_of_mem (Finset.mem_univ thread), ← Finset.sum_sdiff (Finset.singleton_subset_iff.mpr (Finset.mem_univ thread)),
    Finset.sum_singleton]
  ring

/-! ### Waiting in a fixed order -/

/-- When each thread that waits does so for one of higher rank, some thread does not wait. -/
theorem exists_ready {Rank : Type} [LinearOrder Rank] [Fintype Thread] (active ready : Thread → Prop) (rank : Thread → Rank)
    (waits : ∀ thread, active thread → ready thread ∨ ∃ other, active other ∧ rank thread < rank other)
    {thread : Thread} (begun : active thread) : ∃ other, active other ∧ ready other := by
  classical
  obtain ⟨last, member, highest⟩ := Finset.exists_max_image (Finset.univ.filter active) rank
    ⟨thread, by simpa using begun⟩
  have running : active last := by simpa using member
  cases waits last running with
  | inl free => exact ⟨last, running, free⟩
  | inr later =>
      obtain ⟨other, live, above⟩ := later
      exact absurd above (highest other (by simpa using live)).not_gt

end Library
