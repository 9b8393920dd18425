import ChuSQL.Server.Security.Steps
import Mathlib.Data.Prod.Lex

/-! A writer is alone with the name it writes to, a change of rights is alone altogether, and
the table of gates is exact: in every world that requests lead to. -/

set_option autoImplicit false

namespace ChuSQL.Server.Security

open Library

/-! ### Requests keep an order -/

abbrev NameRank := ℕ ×ₗ String

/-- The order in which a request takes its gates: by name, a commit gate after them. -/
def ownRank : Request → String → NameRank
  | .commitSecurity current _, name => toLex (if name = commitName current then 1 else 0, name)
  | _, name => toLex (0, name)

theorem along_of_sorted {Rank : Type} [LinearOrder Rank] {rank : String → Rank} {names : List String}
    {rest : WithBot Rank → Prop} (sorted : names.Pairwise fun first second => rank first < rank second) {low : WithBot Rank}
    (above : ∀ name ∈ names, low < rank name) (start : rest low) (after : ∀ name ∈ names, rest (rank name)) :
    Along rank low names rest := by
  induction names generalizing low with
  | nil => exact start
  | cons name later ih =>
      rw [List.pairwise_cons] at sorted
      constructor
      · exact above name List.mem_cons_self
      · apply ih sorted.2
        · exact fun other member => WithBot.coe_lt_coe.mpr (sorted.1 other member)
        · exact after name List.mem_cons_self
        · exact fun other member => after other (List.mem_cons_of_mem _ member)

theorem empty_lt {name : String} (named : name ≠ "") : "" < name := by
  rw [String.lt_iff_toList_lt]
  cases chars : name.toList with
  | nil => exact absurd (String.toList_eq_nil_iff.mp chars) named
  | cons => exact List.nil_lt_cons _ _

theorem ne_commitName (current : String) : current ≠ commitName current := by
  intro same
  have length := congrArg String.length same
  simp [commitName] at length

/-- A request enters its gates in the order of a rank that rises with its names. -/
theorem Request.fits {Rank : Type} [LinearOrder Rank] {rank : String → Rank} (request : Request)
    (database : ∀ accesses, request = .databaseSecurity accesses →
      ∀ first second, first = "" ∨ first ∈ (names accesses).map Prod.fst → second ∈ (names accesses).map Prod.fst →
        first < second → rank first < rank second)
    (commit : ∀ current exclusive, request = .commitSecurity current exclusive →
      (current ≠ "" → rank "" < rank current) ∧ rank "" < rank (commitName current) ∧ rank current < rank (commitName current)) :
    Fits rank [] ⊥ request.task := by
  have security : Named [] "" securityGate := .inl ⟨rfl, rfl⟩
  cases request with
  | readSecurity => exact ⟨WithBot.bot_lt_coe _, security, trivial⟩
  | writeSecurity => exact ⟨WithBot.bot_lt_coe _, security, trivial⟩
  | databaseSecurity accesses =>
      have rises := database accesses rfl
      constructor
      · exact WithBot.bot_lt_coe _
      constructor
      · exact security
      apply along_of_sorted
      · have each : ∀ name ∈ (names accesses).map Prod.fst, name ∈ (names accesses).map Prod.fst := fun _ member => member
        exact (names_sorted accesses).imp_of_mem fun one two less => rises _ _ (.inr one) two less
      · intro name member
        obtain ⟨access, given, rfl⟩ := List.mem_map.mp member
        exact WithBot.coe_lt_coe.mpr (rises _ _ (.inl rfl) member (empty_lt (names_proper given).1))
      · trivial
      · exact fun _ _ => trivial
  | commitSecurity current exclusive =>
      obtain ⟨named, free, held⟩ := commit current exclusive rfl
      have commits : names [(commitName current, true)] = [(commitName current, true)] := by
        have proper : commitName current ≠ "" := by simp [commitName]
        simp [names, proper, SortedMap.insert, SortedMap.empty, SortedMap.place, SortedMap.get]
      constructor
      · exact WithBot.bot_lt_coe _
      constructor
      · exact security
      by_cases proper : current = ""
      · have none : names [(current, exclusive)] = [] := by simp [names, proper, SortedMap.empty]
        simp only [Fits, none, commits, List.map_nil, List.map_cons, Along]
        exact ⟨WithBot.coe_lt_coe.mpr free, trivial⟩
      · have one : names [(current, exclusive)] = [(current, exclusive)] := by
          simp [names, proper, SortedMap.insert, SortedMap.empty, SortedMap.place, SortedMap.get]
        simp only [Fits, one, commits, List.map_nil, List.map_cons, Along]
        exact ⟨WithBot.coe_lt_coe.mpr (named proper), WithBot.coe_lt_coe.mpr held, trivial⟩

theorem fits_ownRank (request : Request) : Fits (ownRank request) [] ⊥ request.task := by
  apply request.fits
  · rintro accesses rfl first second _ _ less
    simpa [ownRank, Prod.Lex.toLex_lt_toLex] using less
  · rintro current exclusive rfl
    have proper : "" ≠ commitName current := by simp [commitName]
    constructor
    · intro named
      simpa [ownRank, Prod.Lex.toLex_lt_toLex, proper, ne_commitName] using empty_lt named
    constructor
    · simp [ownRank, Prod.Lex.toLex_lt_toLex, proper]
    · simp [ownRank, Prod.Lex.toLex_lt_toLex, ne_commitName]

/-! ### What requests lead to -/

section Runs

variable {Thread : Type} [Fintype Thread] {request : Thread → Request}

theorem start_valid {Rank : Type} [LinearOrder Rank] {ranks : Thread → String → Rank}
    (fits : ∀ thread, Fits (ranks thread) [] ⊥ (request thread).task) : Valid ranks (start request) := by
  constructor
  · exact fun _ => Sound.full rfl fun _ => rfl
  · intro thread
    constructor
    · trivial
    · simp [start, Phase.inside]
    · simp [start, Phase.moving]
    · simp [start]
    · exact fits thread
  · constructor
    · simp [start, registered, registrations]
    · simp [start]
    · simp [start, registrations]
    · simp [start]
    · simp [start]
    · rfl
  · exact fun _ _ _ => rfl
  · exact Nat.zero_lt_one

variable [DecidableEq Thread] {world : World Thread}

theorem reachable_valid {Rank : Type} [LinearOrder Rank] {ranks : Thread → String → Rank}
    (fits : ∀ thread, Fits (ranks thread) [] ⊥ (request thread).task) (reached : Reachable request world) :
    Valid ranks world := by
  induction reached with
  | refl => exact start_valid fits
  | tail _ stepped valid => exact valid.step stepped

/-! ### The security gate is the outermost -/

/-- All that a thread holds, it holds inside the security gate. -/
def Rooted (control : Control) (frames : List Frame) : Prop :=
  (frames ≠ [] → frames.getLast? = some (.gate "" securityGate)) ∧
    (frames = [] → match control with
      | .run task => ∃ exclusive inner, task = .gated "" securityGate exclusive inner
      | .entering name gate _ => name = "" ∧ gate = securityGate
      | .leaving _ _ | .returning => True)

omit [Fintype Thread] in
theorem Rooted.home {control other : Control} {frames : List Frame} (rooted : Rooted control frames)
    (homeward : other.homeward = true) : Rooted other frames := by
  constructor
  · exact rooted.1
  · intro
    cases other <;> trivial

theorem Rooted.push {control other : Control} {frames : List Frame} {frame : Frame} (rooted : Rooted control frames)
    (first : frames = [] → frame = .gate "" securityGate) : Rooted other (frame :: frames) := by
  constructor
  · intro
    cases frames with
    | nil => rw [first rfl]; rfl
    | cons head rest =>
        rw [List.getLast?_cons_cons]
        exact rooted.1 (List.cons_ne_nil _ _)
  · exact fun empty => by cases empty

theorem Rooted.pop {control other : Control} {frames : List Frame} {frame : Frame} (rooted : Rooted control (frame :: frames))
    (homeward : other.homeward = true) : Rooted other frames := by
  constructor
  · intro some
    cases frames with
    | nil => exact absurd rfl some
    | cons head rest =>
        have last := rooted.1 (List.cons_ne_nil _ _)
        rwa [List.getLast?_cons_cons] at last
  · intro
    cases other <;> trivial

omit [Fintype Thread] [DecidableEq Thread] in
theorem rooted_start (thread : Thread) : Rooted ((start request).control thread) ((start request).frames thread) := by
  constructor
  · exact fun some => absurd rfl some
  · intro
    change ∃ exclusive inner, (request thread).task = .gated "" securityGate exclusive inner
    cases request thread <;> exact ⟨_, _, rfl⟩

omit [Fintype Thread] in
theorem rooted_entered {world : World Thread} {thread : Thread} {name : String} {gate : GateId} {inner : Task} {next : Phase}
    (entering : world.control thread = .entering name gate inner)
    (rooted : ∀ other, Rooted (world.control other) (world.frames other)) (other : Thread) :
    Rooted ((world.entered thread name gate inner next).control other)
      ((world.entered thread name gate inner next).frames other) := by
  have here := rooted thread
  have inside : Rooted (.run inner) (.gate name gate :: world.frames thread) := by
    apply here.push
    intro empty
    have first := here.2 empty
    rw [entering] at first
    rw [first.1, first.2]
  by_cases self : other = thread
  · subst self
    cases next with
    | outside => simpa [World.entered, World.setControl] using here.home rfl
    | reading | writing => simpa [World.entered, World.setControl, World.setFrames] using inside
    | _ => exact here
  · cases next with
    | outside => simpa [World.entered, World.setControl, self] using rooted other
    | reading | writing => simpa [World.entered, World.setControl, World.setFrames, self] using rooted other
    | _ => exact rooted other

omit [Fintype Thread] in
theorem rooted_left {world : World Thread} {thread : Thread} {next : Phase}
    (rooted : ∀ other, Rooted (world.control other) (world.frames other)) (other : Thread) :
    Rooted ((world.left thread next).control other) ((world.left thread next).frames other) := by
  by_cases self : other = thread
  · subst self
    cases next with
    | outside | lost => simpa [World.left, World.setControl] using (rooted other).home rfl
    | _ => exact rooted other
  · cases next with
    | outside | lost => simpa [World.left, World.setControl, self] using rooted other
    | _ => exact rooted other

omit [Fintype Thread] in
theorem rooted_advance {world next : World Thread} {thread : Thread} (moved : world.advance thread = some next)
    (rooted : ∀ other, Rooted (world.control other) (world.frames other)) (other : Thread) :
    Rooted (next.control other) (next.frames other) := by
  have here := rooted thread
  rw [World.advance] at moved
  cases doing : world.control thread with
  | run task =>
      rw [doing] at moved
      cases task with
      | body =>
          cases moved
          by_cases self : other = thread
          · simpa [World.setControl, self] using here.home rfl
          · simpa [World.setControl, self] using rooted other
      | gated name gate exclusive inner =>
          cases moved
          by_cases self : other = thread
          · have turned : Rooted (.entering name gate inner) (world.frames thread) := by
              constructor
              · exact here.1
              · intro empty
                have first := here.2 empty
                rw [doing] at first
                obtain ⟨_, _, same⟩ := first
                rw [Task.gated.injEq] at same
                exact ⟨same.1, same.2.1⟩
            simpa [World.setControl, World.setPhase, self] using turned
          · simpa [World.setControl, World.setPhase, self] using rooted other
      | keyed accesses inner =>
          cases moved
          by_cases self : other = thread
          · have turned : ∀ entries control, Rooted control (.keys entries :: world.frames thread) := by
              intro entries control
              apply here.push
              intro empty
              have first := here.2 empty
              rw [doing] at first
              obtain ⟨_, _, same⟩ := first
              cases same
            simpa [World.setControl, World.setFrames, self] using turned _ _
          · simpa [World.setControl, World.setFrames, self] using rooted other
  | entering name gate inner =>
      rw [doing] at moved
      obtain ⟨move, _, rfl⟩ := Option.map_eq_some_iff.mp moved
      apply rooted_entered
      · exact doing
      · exact rooted
  | leaving name gate =>
      rw [doing] at moved
      obtain ⟨move, _, rfl⟩ := Option.map_eq_some_iff.mp moved
      apply rooted_left
      exact rooted
  | returning =>
      rw [doing] at moved
      cases frames : world.frames thread with
      | nil =>
          rw [frames] at moved
          cases moved
      | cons frame rest =>
          rw [frames] at moved
          rw [frames] at here
          cases frame with
          | gate name gate =>
              obtain ⟨left, _, rfl⟩ := Option.map_eq_some_iff.mp moved
              by_cases self : other = thread
              · simpa [World.setControl, World.setFrames, World.setPhase, self] using here.pop rfl
              · simpa [World.setControl, World.setFrames, World.setPhase, self] using rooted other
          | keys entries =>
              cases moved
              by_cases self : other = thread
              · have turned : Rooted (world.control thread) rest := here.pop (by rw [doing]; rfl)
                simpa [World.setFrames, self] using turned
              · simpa [World.setFrames, self] using rooted other

omit [Fintype Thread] in
theorem rooted_cancel {world next : World Thread} {thread : Thread} (moved : world.cancel thread = some next)
    (rooted : ∀ other, Rooted (world.control other) (world.frames other)) (other : Thread) :
    Rooted (next.control other) (next.frames other) := by
  rw [World.cancel] at moved
  cases doing : world.control thread with
  | run task =>
      rw [doing] at moved
      cases moved
      by_cases self : other = thread
      · simpa [World.setControl, self] using (rooted thread).home rfl
      · simpa [World.setControl, self] using rooted other
  | entering name gate inner =>
      rw [doing] at moved
      obtain ⟨left, _, rfl⟩ := Option.map_eq_some_iff.mp moved
      apply rooted_entered
      · exact doing
      · exact rooted
  | leaving name gate =>
      rw [doing] at moved
      obtain ⟨left, _, rfl⟩ := Option.map_eq_some_iff.mp moved
      apply rooted_left
      exact rooted
  | returning =>
      rw [doing] at moved
      cases moved

omit [Fintype Thread] in
theorem reachable_rooted {world : World Thread} (reached : Reachable request world) (thread : Thread) :
    Rooted (world.control thread) (world.frames thread) := by
  induction reached generalizing thread with
  | refl => exact rooted_start thread
  | tail _ stepped rooted =>
      cases stepped with
      | advance _ moved => exact rooted_advance moved rooted thread
      | cancel _ moved => exact rooted_cancel moved rooted thread

/-! ### Results -/

/-- Whoever writes under a name shares it with nobody, and a change of rights goes on while no
other thread holds or awaits a database: in every world reached, however the threads take turns
and whichever of them are cancelled. -/
theorem names_exclusive {world : World Thread} (reached : Reachable request world) {writer other : Thread} (differs : other ≠ writer)
    {name : String} (writes : Inside world writer name .writing) :
    ¬Inside world other name .writing ∧ ¬Inside world other name .reading ∧ (name = "" → world.frames other = []) := by
  have valid : Valid (fun thread => ownRank (request thread)) world := reachable_valid (fun thread => fits_ownRank _) reached
  obtain ⟨gate, held, writing⟩ := writes
  have one := named_of_mem (valid.placed writer).stacked held
  have same : ∀ {number}, Frame.gate name number ∈ world.frames other → number = gate := by
    intro number member
    have two := named_of_mem (valid.placed other).stacked member
    exact (named_iff valid.registry two one).mp rfl
  obtain ⟨noWriter, noReader⟩ := (valid.sound gate).exclusion writing differs
  have away : ∀ {number}, Frame.gate name number ∉ world.frames other := by
    intro number member
    have inside := ((valid.placed other).inside number).mpr ⟨name, member⟩
    rw [same member] at inside
    cases place : world.phase other gate <;> rw [place] at inside <;>
      first | exact noWriter place | exact noReader place | cases inside
  constructor
  · intro again
    obtain ⟨number, member, _⟩ := again
    exact away member
  constructor
  · intro reads
    obtain ⟨number, member, _⟩ := reads
    exact away member
  · rintro rfl
    by_contra some
    exact away (List.mem_of_getLast? ((reachable_rooted reached other).1 some))

end Runs

/-- One of two threads that write to a database is in its gate. -/
theorem names_exclusive_writers :
    let request : Fin 2 → Request := fun _ => .databaseSecurity [("sales", true)]
    let world := followed request (List.replicate 10 (0, false))
    ¬Inside world 1 "sales" .writing ∧ ¬Inside world 1 "sales" .reading ∧ ("sales" = "" → world.frames 1 = []) :=
  names_exclusive (reachable_followed _ _) (show (1 : Fin 2) ≠ 0 by decide) ⟨1, by decide +kernel, by decide +kernel⟩

end ChuSQL.Server.Security
