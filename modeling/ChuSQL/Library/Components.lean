import ChuSQL.Library.Run

/-! States made of named components, and actions that change one component each:
a run succeeds exactly if it does so on every component. -/

set_option autoImplicit false

namespace Library

variable {State Action Error Name Local Change LocalError : Type} [DecidableEq Name]

/-- The changes of one component, in their order. -/
def changesOf (target : Action → Name) (change : Action → Change) (actions : List Action)
    (name : Name) : List Change :=
  (actions.filter fun action => target action = name).map change

/-- In a good state, a permitted action does to its target what its change does. -/
structure Splits (step : State → Action → Except Error State)
    (local' : Local → Change → Except LocalError Local) (view : State → Name → Local)
    (target : Action → Name) (change : Action → Change) (good : State → Prop)
    (permitted : Action → Prop) : Prop where
  done : ∀ {state action next}, good state → permitted action →
    local' (view state (target action)) (change action) = .ok next →
    ∃ state', step state action = .ok state' ∧ good state' ∧
      view state' = Function.update (view state) (target action) next
  failed : ∀ {state action error}, good state → permitted action →
    local' (view state (target action)) (change action) = .error error →
    ∃ error', step state action = .error error'

variable {step : State → Action → Except Error State}
  {local' : Local → Change → Except LocalError Local} {view : State → Name → Local}
  {target : Action → Name} {change : Action → Change} {good : State → Prop}
  {permitted : Action → Prop}

theorem changesOf_cons_self (action : Action) (rest : List Action) :
    changesOf target change (action :: rest) (target action) =
      change action :: changesOf target change rest (target action) := by
  simp [changesOf]

theorem changesOf_cons_other {action : Action} {name : Name} (rest : List Action)
    (other : target action ≠ name) :
    changesOf target change (action :: rest) name = changesOf target change rest name := by
  simp [changesOf, other]

namespace Splits

/-- A run that succeeds on every component succeeds. -/
theorem run_ok (splits : Splits step local' view target change good permitted)
    {actions : List Action} {state : State} (isGood : good state)
    (allowed : ∀ action ∈ actions, permitted action)
    (each : ∀ name, ∃ final, run local' (view state name) (changesOf target change actions name) =
      .ok final) :
    ∃ final, run step state actions = .ok final ∧ good final ∧
      ∀ name, run local' (view state name) (changesOf target change actions name) =
        .ok (view final name) := by
  induction actions generalizing state with
  | nil => exact ⟨state, rfl, isGood, fun _ => rfl⟩
  | cons action rest ih =>
      have mine := each (target action)
      rw [changesOf_cons_self] at mine
      obtain ⟨final, ran⟩ := mine
      cases changed : local' (view state (target action)) (change action) with
      | error error => simp only [run, changed, bind, Except.bind] at ran; cases ran
      | ok next =>
          simp only [run, changed, bind, Except.bind] at ran
          obtain ⟨state', stepped, isGood', view'⟩ :=
            splits.done isGood (allowed action List.mem_cons_self) changed
          have later : ∀ name, run local' (view state name)
              (changesOf target change (action :: rest) name) =
                run local' (view state' name) (changesOf target change rest name) := by
            intro name
            by_cases same : target action = name
            · subst same
              rw [changesOf_cons_self, view', Function.update_self]
              simp only [run, changed, bind, Except.bind]
            · rw [changesOf_cons_other rest same, view', Function.update_of_ne (Ne.symm same)]
          obtain ⟨final, done, isGood'', views⟩ := ih isGood'
            (fun other member => allowed other (List.mem_cons_of_mem _ member))
            fun name => by rw [← later name]; exact each name
          refine ⟨final, ?_, isGood'', fun name => (later name).trans (views name)⟩
          simp only [run, stepped, bind, Except.bind, done]

/-- A run that succeeds does so on every component. -/
theorem of_run (splits : Splits step local' view target change good permitted)
    {actions : List Action} {state final : State} (isGood : good state)
    (allowed : ∀ action ∈ actions, permitted action) (ran : run step state actions = .ok final) :
    ∀ name, run local' (view state name) (changesOf target change actions name) =
      .ok (view final name) := by
  induction actions generalizing state with
  | nil => cases ran; exact fun _ => rfl
  | cons action rest ih =>
      have here := allowed action List.mem_cons_self
      simp only [run, bind, Except.bind] at ran
      cases changed : local' (view state (target action)) (change action) with
      | error error =>
          obtain ⟨error', failed⟩ := splits.failed isGood here changed
          rw [failed] at ran
          cases ran
      | ok next =>
          obtain ⟨state', stepped, isGood', view'⟩ := splits.done isGood here changed
          rw [stepped] at ran
          have later := ih isGood' (fun other member => allowed other (List.mem_cons_of_mem _ member)) ran
          intro name
          by_cases same : target action = name
          · subst same
            rw [← later, changesOf_cons_self, view', Function.update_self]
            simp only [run, changed, bind, Except.bind]
          · rw [← later, changesOf_cons_other rest same, view', Function.update_of_ne (Ne.symm same)]

/-- What holds of every component of a successful run's result. -/
theorem run_iff (splits : Splits step local' view target change good permitted)
    {actions : List Action} {state : State} (isGood : good state)
    (allowed : ∀ action ∈ actions, permitted action) (holds : Name → Local → Prop) :
    (∃ final, run step state actions = .ok final ∧ ∀ name, holds name (view final name)) ↔
      ∀ name, ∃ final, run local' (view state name) (changesOf target change actions name) =
        .ok final ∧ holds name final := by
  constructor
  · rintro ⟨final, ran, all⟩ name
    exact ⟨view final name, splits.of_run isGood allowed ran name, all name⟩
  · intro each
    obtain ⟨final, ran, _, views⟩ := splits.run_ok isGood allowed
      fun name => (each name).imp fun _ found => found.1
    refine ⟨final, ran, fun name => ?_⟩
    obtain ⟨other, same, held⟩ := each name
    obtain rfl := Except.ok.inj ((views name).symm.trans same)
    exact held

end Splits

end Library
