import ChuSQL.Library.Framing

/-! Runs of a fallible step function, conditions on their steps, and the rule
that carries a relation along a run. -/

set_option autoImplicit false

namespace Library

variable {State Action Error Abstract : Type}

/-- Take the actions one after another; the first error ends the run. -/
def run (step : State → Action → Except Error State) : State → List Action → Except Error State
  | state, [] => .ok state
  | state, action :: rest => do
      let next ← step state action
      run step next rest

/-- Every step of the run meets a condition in the state it starts from. -/
def Meets (step : State → Action → Except Error State) (condition : State → Action → Prop) :
    State → List Action → Prop
  | _, [] => True
  | state, action :: rest =>
      condition state action ∧
        match step state action with
        | .ok next => Meets step condition next rest
        | .error _ => True

instance Meets.decidable (step : State → Action → Except Error State)
    (condition : State → Action → Prop) [∀ state action, Decidable (condition state action)] :
    (state : State) → (actions : List Action) → Decidable (Meets step condition state actions)
  | _, [] => inferInstanceAs (Decidable True)
  | state, action :: rest =>
      match decided : step state action with
      | .ok next =>
          have := Meets.decidable step condition next rest
          decidable_of_iff (condition state action ∧ Meets step condition next rest)
            (by simp [Meets, decided])
      | .error _ => decidable_of_iff (condition state action) (by simp [Meets, decided])

variable {step : State → Action → Except Error State} {condition : State → Action → Prop}

theorem run_append (state : State) (first second : List Action) :
    run step state (first ++ second) = run step state first >>= fun next => run step next second := by
  induction first generalizing state with
  | nil => rfl
  | cons action first ih =>
      simp only [List.cons_append, run, bind, Except.bind]
      cases step state action with
      | error error => rfl
      | ok next => exact ih next

theorem meets_before {state : State} {first second : List Action}
    (meets : Meets step condition state (first ++ second)) : Meets step condition state first := by
  induction first generalizing state with
  | nil => exact trivial
  | cons action rest ih =>
      obtain ⟨now, later⟩ := meets
      refine ⟨now, ?_⟩
      split at later
      · exact ih later
      · exact trivial

theorem meets_after {state final : State} {first second : List Action}
    (ran : run step state first = .ok final)
    (meets : Meets step condition state (first ++ second)) : Meets step condition final second := by
  induction first generalizing state with
  | nil =>
      cases ran
      exact meets
  | cons action rest ih =>
      obtain ⟨_, later⟩ := meets
      unfold run at ran
      cases stepped : step state action with
      | error error =>
          rw [stepped] at ran
          cases ran
      | ok next =>
          rw [stepped] at ran later
          exact ih ran later

/-- If every permitted step that meets the condition succeeds and keeps the
relation, a run that meets the condition succeeds and keeps it too. -/
theorem run_refines (Rel : State → Abstract → Prop) {permitted : Action → Prop}
    (effect : Abstract → Action → Abstract)
    (each : ∀ state abstract action, Rel state abstract → permitted action →
      condition state action →
      ∃ next, step state action = .ok next ∧ Rel next (effect abstract action)) :
    ∀ (actions : List Action) (state : State) (abstract : Abstract), Rel state abstract →
      (∀ action ∈ actions, permitted action) → Meets step condition state actions →
      ∃ final, run step state actions = .ok final ∧ Rel final (actions.foldl effect abstract) := by
  intro actions
  induction actions with
  | nil => intro state abstract related _ _; exact ⟨state, rfl, related⟩
  | cons action rest ih =>
      rintro state abstract related allowed ⟨meets, later⟩
      obtain ⟨next, stepped, related⟩ :=
        each state abstract action related (allowed action List.mem_cons_self) meets
      rw [stepped] at later
      obtain ⟨final, ran, related⟩ := ih next (effect abstract action) related
        (fun other member => allowed other (List.mem_cons_of_mem _ member)) later
      refine ⟨final, ?_, related⟩
      simp only [run, stepped, bind, Except.bind, ran]

end Library
