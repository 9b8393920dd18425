import ChuSQL.Library.Fallible

/-! Growing a list until nothing more comes: the result is the least closed set
over what it started from. -/

set_option autoImplicit false

namespace Library.Growth

variable {α : Type}

/-- Join what is missing to what is known, until nothing is missing. -/
def grow (more : List α → List α) (join : List α → List α → List α) : Nat → List α → List α
  | 0, known => known
  | fuel + 1, known =>
      if (more known).isEmpty then known else grow more join fuel (join known (more known))

section Members

variable {more : List α → List α} {join : List α → List α → List α}

theorem subset_grow (joined : ∀ known others item, item ∈ join known others ↔ item ∈ known ∨ item ∈ others)
    (fuel : Nat) {known : List α} {item : α} (member : item ∈ known) : item ∈ grow more join fuel known := by
  induction fuel generalizing known with
  | zero => exact member
  | succ fuel ih =>
      rw [grow]
      split
      · exact member
      · exact ih ((joined _ _ _).mpr (.inl member))

/-- What holds of the start and of everything missing from a list in which it
holds, holds of the result. -/
theorem grow_induction (joined : ∀ known others item, item ∈ join known others ↔ item ∈ known ∨ item ∈ others)
    {holds : α → Prop}
    (step : ∀ known, (∀ item ∈ known, holds item) → ∀ item ∈ more known, holds item)
    (fuel : Nat) {known : List α} (start : ∀ item ∈ known, holds item) :
    ∀ item ∈ grow more join fuel known, holds item := by
  induction fuel generalizing known with
  | zero => exact start
  | succ fuel ih =>
      rw [grow]
      split
      · exact start
      · refine ih fun item member => ?_
        rcases (joined _ _ _).mp member with old | new
        · exact start item old
        · exact step known start item new

variable [DecidableEq α]

/-- With enough fuel nothing is missing from the result. -/
theorem grow_closed (joined : ∀ known others item, item ∈ join known others ↔ item ∈ known ∨ item ∈ others)
    {pool : List α} (missing : ∀ known, ∀ item ∈ more known, item ∈ pool ∧ item ∉ known)
    (fuel : Nat) (known : List α) (enough : (pool.filter (· ∉ known)).length ≤ fuel) :
    more (grow more join fuel known) = [] := by
  induction fuel generalizing known with
  | zero =>
      rw [grow]
      refine List.eq_nil_iff_forall_not_mem.mpr fun item member => ?_
      obtain ⟨inside, fresh⟩ := missing known item member
      have left : item ∈ pool.filter (· ∉ known) := List.mem_filter.mpr ⟨inside, by simpa using fresh⟩
      rw [List.length_eq_zero_iff.mp (Nat.le_zero.mp enough)] at left
      cases left
  | succ fuel ih =>
      rw [grow]
      split
      · next done => exact List.isEmpty_iff.mp done
      · next open_ =>
          refine ih _ ?_
          obtain ⟨item, member⟩ := List.exists_mem_of_ne_nil _ (List.isEmpty_eq_false_iff.mp (by simpa using open_))
          obtain ⟨inside, fresh⟩ := missing known item member
          have smaller : pool.filter (· ∉ join known (more known)) =
              (pool.filter (· ∉ known)).filter (· ∉ join known (more known)) := by
            rw [List.filter_filter]
            refine List.filter_congr fun other _ => ?_
            by_cases old : other ∈ known
            · simp [old, (joined known (more known) other).mpr (.inl old)]
            · simp [old]
          have fewer : ((pool.filter (· ∉ known)).filter (· ∉ join known (more known))).length <
              (pool.filter (· ∉ known)).length := by
            refine List.length_filter_lt_length_iff_exists.mpr
              ⟨item, List.mem_filter.mpr ⟨inside, by simpa using fresh⟩, ?_⟩
            simpa using (joined known (more known) item).mpr (.inr member)
          rw [smaller]
          omega

end Members

/-! ### Growing by candidates -/

private theorem joined (known others : List α) (item : α) :
    item ∈ known ++ others ↔ item ∈ known ∨ item ∈ others := List.mem_append

section Candidates

variable [DecidableEq α] (supported : List α → α → Bool)

/-- The candidates that are missing and supported by what is known. -/
def missing (candidates known : List α) : List α :=
  candidates.filter fun item => item ∉ known ∧ supported known item

def closure (candidates : List α) (fuel : Nat) (known : List α) : List α :=
  grow (missing supported candidates) (· ++ ·) fuel known

variable {supported} {candidates : List α}

theorem mem_missing {known : List α} {item : α} :
    item ∈ missing supported candidates known ↔
      item ∈ candidates ∧ item ∉ known ∧ supported known item = true := by
  simp [missing]

theorem subset_closure (fuel : Nat) {known : List α} {item : α} (member : item ∈ known) :
    item ∈ closure supported candidates fuel known := subset_grow joined fuel member

theorem closure_induction {holds : α → Prop}
    (step : ∀ known, (∀ item ∈ known, holds item) → ∀ item ∈ candidates, supported known item = true →
      holds item)
    (fuel : Nat) {known : List α} (start : ∀ item ∈ known, holds item) :
    ∀ item ∈ closure supported candidates fuel known, holds item :=
  grow_induction joined (fun known all item member =>
    step known all item (mem_missing.mp member).1 (mem_missing.mp member).2.2) fuel start

theorem missing_closure {fuel : Nat} (enough : candidates.length ≤ fuel) (known : List α) :
    missing supported candidates (closure supported candidates fuel known) = [] :=
  grow_closed joined (fun _ _ member => ⟨(mem_missing.mp member).1, (mem_missing.mp member).2.1⟩) fuel known
    ((List.length_filter_le _ _).trans enough)

/-- A supported candidate is in the result. -/
theorem mem_closure_of_supported {fuel : Nat} (enough : candidates.length ≤ fuel) {known : List α} {item : α}
    (candidate : item ∈ candidates)
    (support : supported (closure supported candidates fuel known) item = true) :
    item ∈ closure supported candidates fuel known := by
  by_contra fresh
  have left := mem_missing.mpr ⟨candidate, fresh, support⟩
  rw [missing_closure enough] at left
  cases left

/-- What growing adds are candidates that were not known. -/
theorem closure_eq_append (fuel : Nat) (known : List α) :
    ∃ added, closure supported candidates fuel known = known ++ added ∧
      ∀ item ∈ added, item ∈ candidates ∧ item ∉ known := by
  induction fuel generalizing known with
  | zero => exact ⟨[], (List.append_nil _).symm, List.forall_mem_nil _⟩
  | succ fuel ih =>
      rw [closure, grow]
      split
      · exact ⟨[], (List.append_nil _).symm, List.forall_mem_nil _⟩
      · obtain ⟨added, same, fresh⟩ := ih (known ++ missing supported candidates known)
        refine ⟨missing supported candidates known ++ added, ?_, fun item member => ?_⟩
        · rw [← List.append_assoc]
          exact same
        · rcases List.mem_append.mp member with here | later
          · exact ⟨(mem_missing.mp here).1, (mem_missing.mp here).2.1⟩
          · have outside := fresh item later
            exact ⟨outside.1, fun old => outside.2 (List.mem_append_left _ old)⟩

/-- Growing takes all occurrences of a candidate or none. -/
theorem count_closure (fuel : Nat) {known : List α}
    (whole : ∀ item ∈ known, known.count item = candidates.count item) :
    ∀ item ∈ closure supported candidates fuel known,
      (closure supported candidates fuel known).count item = candidates.count item := by
  induction fuel generalizing known with
  | zero => exact whole
  | succ fuel ih =>
      rw [closure, grow]
      split
      · exact whole
      · refine ih fun item member => ?_
        rw [List.count_append]
        by_cases old : item ∈ known
        · have absent : item ∉ missing supported candidates known := fun new => (mem_missing.mp new).2.1 old
          rw [whole item old, List.count_eq_zero_of_not_mem absent, Nat.add_zero]
        · have new := (List.mem_append.mp member).resolve_left old
          have support := (mem_missing.mp new).2.2
          rw [List.count_eq_zero_of_not_mem old, Nat.zero_add, missing, List.count_filter]
          simp [old, support]

theorem closure_of_complete {known : List α} (complete : missing supported candidates known = [])
    (fuel : Nat) : closure supported candidates fuel known = known := by
  cases fuel with
  | zero => rfl
  | succ fuel => rw [closure, grow, complete, List.isEmpty_nil, if_pos rfl]

theorem missing_self (known : List α) : missing supported known known = [] := by
  refine List.eq_nil_iff_forall_not_mem.mpr fun item member => ?_
  obtain ⟨inside, fresh, _⟩ := mem_missing.mp member
  exact fresh inside

/-- What is missing is the same when the result is taken as the candidates. -/
theorem missing_closure_eq (fuel : Nat) (known : List α) :
    missing supported (closure supported candidates fuel (known ++ missing supported candidates known)) known =
      missing supported candidates known := by
  obtain ⟨added, same, fresh⟩ :=
    @closure_eq_append α _ supported candidates fuel (known ++ missing supported candidates known)
  have first : missing supported known known = [] := missing_self known
  have second : missing supported (missing supported candidates known) known =
      missing supported candidates known :=
    List.filter_eq_self.mpr fun item member => by
      simpa using (mem_missing.mp member).2
  have third : missing supported added known = [] := by
    refine List.eq_nil_iff_forall_not_mem.mpr fun item member => ?_
    obtain ⟨inside, absent, support⟩ := mem_missing.mp member
    obtain ⟨candidate, outside⟩ := fresh item inside
    exact outside (List.mem_append_right _ (mem_missing.mpr ⟨candidate, absent, support⟩))
  rw [same]
  calc missing supported (known ++ missing supported candidates known ++ added) known
      = missing supported known known ++ missing supported (missing supported candidates known) known ++
          missing supported added known := by simp only [missing, List.filter_append]
    _ = missing supported candidates known := by rw [first, second, third, List.nil_append, List.append_nil]

/-- Growing again from the same start, with the result as candidates, gives the
result again. -/
theorem closure_again {fuel again : Nat} {known : List α}
    (enough : (closure supported candidates fuel known).length ≤ known.length + again) :
    closure supported (closure supported candidates fuel known) again known =
      closure supported candidates fuel known := by
  induction fuel generalizing known again with
  | zero => exact closure_of_complete (missing_self known) again
  | succ fuel ih =>
      by_cases complete : missing supported candidates known = []
      · rw [closure_of_complete complete]
        exact closure_of_complete (missing_self known) again
      · have unfolded : closure supported candidates (fuel + 1) known =
            closure supported candidates fuel (known ++ missing supported candidates known) := by
          rw [closure, grow, if_neg (by simpa using complete)]
          rfl
        rw [unfolded] at enough ⊢
        obtain ⟨added, same, _⟩ :=
          @closure_eq_append α _ supported candidates fuel (known ++ missing supported candidates known)
        have longer : known.length + (missing supported candidates known).length ≤
            (closure supported candidates fuel (known ++ missing supported candidates known)).length := by
          rw [same]
          simp
        have positive := List.length_pos_iff.mpr complete
        obtain ⟨again, rfl⟩ : ∃ less, again = less + 1 := ⟨again - 1, by omega⟩
        have next := @missing_closure_eq α _ supported candidates fuel known
        rw [closure, grow, next, if_neg (by simpa using complete)]
        refine ih ?_
        rw [List.length_append]
        omega

end Candidates

end Library.Growth
