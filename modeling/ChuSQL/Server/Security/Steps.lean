import ChuSQL.Server.Security.Nesting

/-! Every move of a thread keeps what holds of the gates, of the table of gates and of where the
threads are. -/

set_option autoImplicit false

namespace ChuSQL.Server.Security

open Library

variable {Rank : Type} [LinearOrder Rank] {rank : String → Rank}

/-! ### Frames -/

theorem le_top {frames : List Frame} {name : String} {gate : GateId} (stacked : Stacked rank frames)
    (member : Frame.gate name gate ∈ frames) : (rank name : WithBot Rank) ≤ top rank frames := by
  induction frames with
  | nil => cases member
  | cons frame rest ih =>
      cases frame with
      | gate other number =>
          obtain ⟨below, _, stacked⟩ := stacked
          cases member with
          | head => exact le_rfl
          | tail _ later => exact (ih stacked later).trans below.le
      | keys entries =>
          cases member with
          | tail _ later => exact ih stacked later

theorem Named.mono {frames more : List Frame} (sub : registrations frames ⊆ registrations more) {name : String}
    {gate : GateId} (named : Named frames name gate) : Named more name gate := by
  cases named with
  | inl security => exact .inl security
  | inr registered =>
      obtain ⟨entry, member, same⟩ := registered
      exact .inr ⟨entry, sub member, same⟩

theorem registrations_keys (entries : List Entry) (frames : List Frame) :
    registrations frames ⊆ registrations (.keys entries :: frames) :=
  Multiset.subset_of_le (Multiset.le_add_left _ _)

theorem named_of_mem {frames : List Frame} {name : String} {gate : GateId} (stacked : Stacked rank frames)
    (member : Frame.gate name gate ∈ frames) : Named frames name gate := by
  induction frames with
  | nil => cases member
  | cons frame rest ih =>
      cases frame with
      | gate other number =>
          obtain ⟨_, named, stacked⟩ := stacked
          cases member with
          | head => exact named
          | tail _ later => exact ih stacked later
      | keys entries =>
          cases member with
          | tail _ later => exact (ih stacked later).mono (registrations_keys entries rest)

theorem Along.imp {low : WithBot Rank} {names : List String} {rest other : WithBot Rank → Prop}
    (implies : ∀ last, rest last → other last) (along : Along rank low names rest) : Along rank low names other := by
  induction names generalizing low with
  | nil => exact implies low along
  | cons name later ih => exact ⟨along.1, ih along.2⟩

theorem Fits.mono {frames more : List Frame} (sub : registrations frames ⊆ registrations more) {task : Task} :
    ∀ {low : WithBot Rank}, Fits rank frames low task → Fits rank more low task := by
  induction task with
  | body => exact fun _ => trivial
  | gated name gate exclusive inner ih => exact fun fits => ⟨fits.1, fits.2.1.mono sub, ih fits.2.2⟩
  | keyed accesses inner ih => exact fun fits => Along.imp (fun _ => ih) fits

/-- Registered names that rise can be locked one inside the other. -/
theorem fits_lock {frames : List Frame} {entries : List Entry} {inner : Task}
    (registered : ∀ entry ∈ entries, entry ∈ registrations frames) {low : WithBot Rank}
    (along : Along rank low (entries.map Entry.name) fun last => Fits rank frames last inner) :
    Fits rank frames low (lock entries inner) := by
  induction entries generalizing low with
  | nil => exact along
  | cons entry rest ih =>
      obtain ⟨below, along⟩ := along
      constructor
      · exact below
      constructor
      · exact .inr ⟨entry, registered entry List.mem_cons_self, rfl, rfl⟩
      · exact ih (fun other member => registered other (List.mem_cons_of_mem _ member)) along

/-! ### Gates and names -/

section Table

variable {Thread : Type} [Fintype Thread] {databaseGates : String → Option (GateId × Int)} {fresh : GateId}
  {frames : Thread → List Frame} (registry : Registry databaseGates fresh fun thread => registrations (frames thread))
include registry

theorem named_lookup {thread : Thread} {name : String} {gate : GateId} (named : Named (frames thread) name gate) :
    (name = "" ∧ gate = securityGate) ∨ ∃ count, databaseGates name = some (gate, count) := by
  cases named with
  | inl security => exact .inl security
  | inr registered =>
      obtain ⟨entry, member, rfl, rfl⟩ := registered
      exact .inr (registry.agrees thread member)

/-- Over all threads a name stands for one gate and a gate for one name. -/
theorem named_iff {first second : Thread} {name other : String} {gate number : GateId}
    (one : Named (frames first) name gate) (two : Named (frames second) other number) : name = other ↔ gate = number := by
  cases named_lookup registry one with
  | inl security =>
      obtain ⟨rfl, rfl⟩ := security
      cases named_lookup registry two with
      | inl again => exact iff_of_true again.1.symm again.2.symm
      | inr kept =>
          obtain ⟨count, kept⟩ := kept
          constructor
          · intro same
            rw [← same, registry.unnamed] at kept
            cases kept
          · intro same
            exact absurd same (registry.used kept).1.ne
  | inr kept =>
      obtain ⟨count, kept⟩ := kept
      cases named_lookup registry two with
      | inl security =>
          obtain ⟨rfl, rfl⟩ := security
          constructor
          · intro same
            rw [same, registry.unnamed] at kept
            cases kept
          · intro same
            exact absurd same.symm (registry.used kept).1.ne
      | inr found =>
          obtain ⟨number, found⟩ := found
          constructor
          · rintro rfl
            rw [kept] at found
            exact congrArg Prod.fst (Option.some.inj found)
          · rintro rfl
            exact registry.apart kept found

theorem named_old (begun : securityGate < fresh) {thread : Thread} {name : String} {gate : GateId}
    (named : Named (frames thread) name gate) : gate < fresh := by
  cases named_lookup registry named with
  | inl security => exact security.2 ▸ begun
  | inr kept =>
      obtain ⟨_, kept⟩ := kept
      exact (registry.used kept).2

/-- A gate above all that a thread holds is not among them. -/
theorem not_held {thread : Thread} {name : String} {gate : GateId} {held : List Frame} (stacked : Stacked rank held)
    (sub : registrations held ⊆ registrations (frames thread)) (below : top rank held < rank name)
    (named : Named (frames thread) name gate) (other : String) : Frame.gate other gate ∉ held := by
  intro member
  have same := (named_iff registry ((named_of_mem stacked member).mono sub) named).mpr rfl
  exact ((le_top stacked member).trans_lt below).ne (by rw [same])

end Table

/-! ### Moves at one gate -/


theorem Placed.shift {phase : GateId → Phase} {control turned : Control} {frames left : List Frame}
    (placed : Placed rank phase control frames) {gate : GateId} {next : Phase}
    (focus : ∀ number, control.focus = some number → number = gate)
    (aimed : next.moving = true → turned.focus = some gate)
    (home : control.homeward = true ∨ next = .lost → turned.homeward = true)
    (stacked : Stacked rank left) (within : next.inside = true ↔ ∃ name, Frame.gate name gate ∈ left)
    (others : ∀ name number, number ≠ gate → (Frame.gate name number ∈ left ↔ Frame.gate name number ∈ frames))
    (ahead : Ahead rank (Function.update phase gate next) left turned) :
    Placed rank (Function.update phase gate next) turned left := by
  constructor
  · exact stacked
  · intro number
    by_cases here : number = gate
    · rw [here, Function.update_self]
      exact within
    · rw [Function.update_of_ne here, placed.inside]
      exact exists_congr fun name => (others name number here).symm
  · intro number moves
    by_cases here : number = gate
    · rw [here, Function.update_self] at moves
      rw [here]
      exact aimed moves
    · rw [Function.update_of_ne here] at moves
      exact absurd (focus number (placed.moving number moves)) here
  · intro number lost
    by_cases here : number = gate
    · rw [here, Function.update_self] at lost
      exact home (.inr lost)
    · rw [Function.update_of_ne here] at lost
      exact home (.inl (placed.kept number lost))
  · exact ahead

variable {Thread : Type} [Fintype Thread] [DecidableEq Thread] {ranks : Thread → String → Rank} {world next : World Thread}
  {thread : Thread}

/-- The world after a move of one thread at one gate. -/
def World.moved (world : World Thread) (thread : Thread) (gate : GateId) (cells : Gate) (phase : Phase) (frames : List Frame)
    (control : Control) : World Thread :=
  (((world.setGate gate cells).setPhase thread gate phase).setFrames thread frames).setControl thread control

namespace Valid

/-- One thread moves at one gate and stays registered for the names it had. -/
theorem move (valid : Valid ranks world) {gate : GateId} {cells : Gate} {phase : Phase} {frames : List Frame}
    {control : Control} (old : gate < world.fresh)
    (sound : Sound cells (Function.update (fun other => world.phase other gate) thread phase))
    (placed : Placed (ranks thread) (Function.update (world.phase thread) gate phase) control frames)
    (same : registrations frames = registrations (world.frames thread)) :
    Valid ranks (world.moved thread gate cells phase frames control) := by
  constructor
  · intro number
    by_cases here : number = gate
    · subst here
      have moved : (fun other => Function.update world.phase thread (Function.update (world.phase thread) number phase) other
          number) = Function.update (fun other => world.phase other number) thread phase := by
        funext other
        by_cases self : other = thread
        · rw [self, Function.update_self, Function.update_self, Function.update_self]
        · rw [Function.update_of_ne self, Function.update_of_ne self]
      simpa [World.moved, World.setControl, World.setFrames, World.setPhase, World.setGate, moved] using sound
    · have apart : (fun other => Function.update world.phase thread (Function.update (world.phase thread) gate phase) other
          number) = fun other => world.phase other number := by
        funext other
        by_cases self : other = thread
        · rw [self, Function.update_self, Function.update_of_ne here]
        · rw [Function.update_of_ne self]
      simpa [World.moved, World.setControl, World.setFrames, World.setPhase, World.setGate, apart, here] using valid.sound number
  · intro other
    by_cases self : other = thread
    · simpa [World.moved, World.setControl, World.setFrames, World.setPhase, World.setGate, self] using placed
    · simpa [World.moved, World.setControl, World.setFrames, World.setPhase, World.setGate, self] using valid.placed other
  · have unchanged : (fun other => registrations (Function.update world.frames thread frames other)) =
        fun other => registrations (world.frames other) := by
      funext other
      by_cases self : other = thread
      · rw [self, Function.update_self, same]
      · rw [Function.update_of_ne self]
    simpa [World.moved, World.setControl, World.setFrames, World.setPhase, World.setGate, unchanged] using valid.registry
  · intro other number above
    have free : world.phase other number = .outside := valid.untouched other number above
    by_cases self : other = thread
    · subst self
      have apart : number ≠ gate := (old.trans_le above).ne'
      simpa [World.moved, World.setControl, World.setFrames, World.setPhase, World.setGate, apart] using free
    · simpa [World.moved, World.setControl, World.setFrames, World.setPhase, World.setGate, self] using free
  · exact valid.begun

/-- One thread turns to something else and stays where it is. -/
theorem turn (valid : Valid ranks world) {control : Control}
    (placed : Placed (ranks thread) (world.phase thread) control (world.frames thread)) : Valid ranks (world.setControl thread control) := by
  constructor
  · exact valid.sound
  · intro other
    by_cases self : other = thread
    · simpa [World.setControl, self] using placed
    · simpa [World.setControl, self] using valid.placed other
  · exact valid.registry
  · exact valid.untouched
  · exact valid.begun

omit [DecidableEq Thread] in
/-- A thread that is about to enter a gate is not inside of it, nor has it been. -/
theorem outside (valid : Valid ranks world) {name : String} {gate : GateId} {task : Task}
    (running : world.control thread = .run task) (below : top (ranks thread) (world.frames thread) < ranks thread name)
    (named : Named (world.frames thread) name gate) : world.phase thread gate = .outside := by
  have placed := valid.placed thread
  have free := not_held valid.registry placed.stacked (fun _ member => member) below named
  cases place : world.phase thread gate with
  | outside => rfl
  | reading | writing =>
      obtain ⟨other, member⟩ := (placed.inside gate).mp (by rw [place]; rfl)
      exact absurd member (free other)
  | lost =>
      have home := placed.kept gate place
      rw [running] at home
      cases home
  | _ =>
      have focus := placed.moving gate (by rw [place]; rfl)
      rw [running] at focus
      cases focus

theorem enter (valid : Valid ranks world) {name : String} {gate : GateId} {exclusive : Bool} {inner : Task}
    (running : world.control thread = .run (.gated name gate exclusive inner)) :
    Valid ranks ((world.setPhase thread gate (.enter exclusive)).setControl thread (.entering name gate inner)) := by
  have placed := valid.placed thread
  have ahead := placed.ahead
  rw [running] at ahead
  obtain ⟨below, named, fits⟩ := ahead
  have away := valid.outside running below named
  have free := not_held valid.registry placed.stacked (fun _ member => member) below named
  have moved : Valid ranks (world.moved thread gate (world.gates gate) (.enter exclusive) (world.frames thread)
      (.entering name gate inner)) := by
    apply valid.move
    · exact named_old valid.registry valid.begun named
    · exact (valid.sound gate).enter exclusive away
    · apply placed.shift
      · intro number focus
        rw [running] at focus
        cases focus
      · exact fun _ => rfl
      · intro home
        rw [running] at home
        cases exclusive <;> rcases home with home | home <;> cases home
      · exact placed.stacked
      · rw [Phase.not_inside_of_enters (Phase.enters_enter exclusive)]
        apply iff_of_false (by simp)
        intro held
        obtain ⟨other, member⟩ := held
        exact free other member
      · exact fun _ _ _ => Iff.rfl
      · exact ⟨below, named, fits, by rw [Function.update_self]; exact Phase.enters_enter exclusive⟩
    · rfl
  simpa [World.moved, World.setGate, World.setFrames, World.setPhase, World.setControl] using moved

/-! ### On the way in -/

section Entering

variable {name : String} {gate : GateId} {inner : Task} (valid : Valid ranks world)
  (entering : world.control thread = .entering name gate inner)
include valid entering

/-- What a thread that enters a gate turns to, by the phase it is in then. -/
theorem entered {cells : Gate} {next : Phase}
    (sound : Sound cells (Function.update (fun other => world.phase other gate) thread next))
    (moves : next = .outside ∨ next.inside = true ∨ next.enters = true) :
    Valid ranks (((world.setGate gate cells).setPhase thread gate next).entered thread name gate inner next) := by
  have placed := valid.placed thread
  have ahead := placed.ahead
  rw [entering] at ahead
  obtain ⟨below, named, fits, _⟩ := ahead
  have old := named_old valid.registry valid.begun named
  have free := not_held valid.registry placed.stacked (fun _ member => member) below named
  have focus : ∀ number, (world.control thread).focus = some number → number = gate := by
    intro number focus
    rw [entering] at focus
    exact (Option.some.inj focus).symm
  have away : (world.control thread).homeward = false := by rw [entering]; rfl
  have outward : ∀ {phase : Phase}, phase.inside = false →
      (phase.inside = true ↔ ∃ name, Frame.gate name gate ∈ world.frames thread) := by
    intro phase apart
    rw [apart]
    apply iff_of_false (by simp)
    intro held
    obtain ⟨other, member⟩ := held
    exact free other member
  rcases moves with rfl | within | enters
  · have moved : Valid ranks (world.moved thread gate cells .outside (world.frames thread) .returning) := by
      apply valid.move
      · exact old
      · exact sound
      · apply placed.shift
        · exact focus
        · exact fun moving => by cases moving
        · exact fun _ => rfl
        · exact placed.stacked
        · exact outward rfl
        · exact fun _ _ _ => Iff.rfl
        · exact trivial
      · rfl
    simpa [World.entered, World.moved, World.setGate, World.setFrames, World.setPhase, World.setControl] using moved
  · have moved : Valid ranks (world.moved thread gate cells next (.gate name gate :: world.frames thread) (.run inner)) := by
      apply valid.move
      · exact old
      · exact sound
      · apply placed.shift
        · exact focus
        · intro moving
          cases next <;> first | cases moving; done | cases within
        · intro home
          rw [away] at home
          rcases home with home | rfl
          · cases home
          · cases within
        · exact ⟨below, named, placed.stacked⟩
        · exact iff_of_true within ⟨name, List.mem_cons_self⟩
        · intro other number apart
          rw [List.mem_cons, Frame.gate.injEq]
          exact or_iff_right fun same => apart same.2
        · apply Fits.mono _ fits
          exact fun _ member => member
      · rfl
    cases next <;> first | cases within; done | skip
    all_goals simpa [World.entered, World.moved, World.setGate, World.setFrames, World.setPhase, World.setControl] using moved
  · have moved : Valid ranks (world.moved thread gate cells next (world.frames thread) (world.control thread)) := by
      apply valid.move
      · exact old
      · exact sound
      · apply placed.shift
        · exact focus
        · exact fun _ => by rw [entering]; rfl
        · intro home
          rw [away] at home
          rcases home with home | rfl
          · cases home
          · cases enters
        · exact placed.stacked
        · exact outward (Phase.not_inside_of_enters enters)
        · exact fun _ _ _ => Iff.rfl
        · rw [entering]
          exact ⟨below, named, fits, by rw [Function.update_self]; exact enters⟩
      · rfl
    cases next <;> first | cases enters; done | skip
    all_goals simpa [World.entered, World.moved, World.setGate, World.setFrames, World.setPhase, World.setControl] using moved

end Entering

/-! ### On the way out -/

/-- What a thread that leaves a gate turns to, by the phase it is in then. -/
theorem left (valid : Valid ranks world) {name : String} {gate : GateId}
    (leaving : world.control thread = .leaving name gate) {cells : Gate} {next : Phase}
    (sound : Sound cells (Function.update (fun other => world.phase other gate) thread next))
    (moves : next = .outside ∨ next = .lost ∨ next.leaves = true) :
    Valid ranks (((world.setGate gate cells).setPhase thread gate next).left thread next) := by
  have placed := valid.placed thread
  have ahead := placed.ahead
  rw [leaving] at ahead
  obtain ⟨below, named, _⟩ := ahead
  have old := named_old valid.registry valid.begun named
  have free := not_held valid.registry placed.stacked (fun _ member => member) below named
  have focus : ∀ number, (world.control thread).focus = some number → number = gate := by
    intro number focus
    rw [leaving] at focus
    exact (Option.some.inj focus).symm
  have outward : ∀ {phase : Phase}, phase.inside = false →
      (phase.inside = true ↔ ∃ name, Frame.gate name gate ∈ world.frames thread) := by
    intro phase apart
    rw [apart]
    apply iff_of_false (by simp)
    intro held
    obtain ⟨other, member⟩ := held
    exact free other member
  have back : ∀ {phase : Phase}, phase.moving = false → phase.inside = false →
      Sound cells (Function.update (fun other => world.phase other gate) thread phase) →
      Valid ranks (world.moved thread gate cells phase (world.frames thread) .returning) := by
    intro phase still apart sound
    apply valid.move
    · exact old
    · exact sound
    · apply placed.shift
      · exact focus
      · exact fun moving => by rw [still] at moving; cases moving
      · exact fun _ => rfl
      · exact placed.stacked
      · exact outward apart
      · exact fun _ _ _ => Iff.rfl
      · exact trivial
    · rfl
  rcases moves with rfl | rfl | leaves
  · simpa [World.left, World.moved, World.setGate, World.setFrames, World.setPhase, World.setControl] using back rfl rfl sound
  · simpa [World.left, World.moved, World.setGate, World.setFrames, World.setPhase, World.setControl] using back rfl rfl sound
  · have moved : Valid ranks (world.moved thread gate cells next (world.frames thread) (world.control thread)) := by
      apply valid.move
      · exact old
      · exact sound
      · apply placed.shift
        · exact focus
        · exact fun _ => by rw [leaving]; rfl
        · exact fun _ => by rw [leaving]; rfl
        · exact placed.stacked
        · exact outward (Phase.not_inside_of_leaves leaves)
        · exact fun _ _ _ => Iff.rfl
        · rw [leaving]
          exact ⟨below, named, by rw [Function.update_self]; exact leaves⟩
      · rfl
    cases next <;> first | cases leaves; done | skip
    all_goals simpa [World.left, World.moved, World.setGate, World.setFrames, World.setPhase, World.setControl] using moved

/-- The body of a gate has ended. -/
theorem leave (valid : Valid ranks world) {name : String} {gate : GateId} {rest : List Frame}
    (returning : world.control thread = .returning) (frames : world.frames thread = .gate name gate :: rest) {next : Phase}
    (done : (world.phase thread gate).leave = some next) :
    Valid ranks (((world.setPhase thread gate next).setFrames thread rest).setControl thread (.leaving name gate)) := by
  have placed := valid.placed thread
  have stacked := placed.stacked
  rw [frames] at stacked
  obtain ⟨below, named, stacked⟩ := stacked
  have leaves := Phase.leave_leaves done
  have known : Named (world.frames thread) name gate := by
    rw [frames]
    exact named
  have free := not_held valid.registry stacked (by rw [frames]; exact fun _ member => member) below known
  have moved : Valid ranks (world.moved thread gate (world.gates gate) next rest (.leaving name gate)) := by
    apply valid.move
    · exact named_old valid.registry valid.begun known
    · exact (valid.sound gate).leave done
    · apply placed.shift
      · intro number focus
        rw [returning] at focus
        cases focus
      · exact fun _ => rfl
      · exact fun _ => rfl
      · exact stacked
      · rw [Phase.not_inside_of_leaves leaves]
        apply iff_of_false (by simp)
        intro held
        obtain ⟨other, member⟩ := held
        exact free other member
      · intro other number apart
        rw [frames, List.mem_cons, Frame.gate.injEq]
        exact (or_iff_right fun same => apart same.2).symm
      · exact ⟨below, named, by rw [Function.update_self]; exact leaves⟩
    · rw [frames]
      rfl
  simpa [World.moved, World.setGate, World.setFrames, World.setPhase, World.setControl] using moved

/-! ### The table of gates -/

/-- A thread registers for the names of its next accesses. -/
theorem keys (valid : Valid ranks world) {accesses : List (String × Bool)} {inner : Task} {entries : List Entry}
    {fresh : GateId} (running : world.control thread = .run (.keyed accesses inner))
    (registers : entriesOf world.databaseGates world.fresh (names accesses) = (entries, fresh)) :
    Valid ranks (({ world with
        gates := fun gate => if world.fresh ≤ gate ∧ gate < fresh then newGate else world.gates gate
        fresh := fresh
        databaseGates := register world.databaseGates entries }.setFrames thread
          (.keys entries :: world.frames thread)).setControl thread (.run (lock entries inner))) := by
  have placed := valid.placed thread
  have fits := placed.ahead
  rw [running] at fits
  obtain ⟨spec, table⟩ := valid.registry.register_all thread (names accesses)
    ((names_sorted accesses).imp fun less => less.ne) (fun _ member => (names_proper member).1) le_rfl valid.begun
  rw [registers] at spec table
  constructor
  · intro gate
    change Sound (if world.fresh ≤ gate ∧ gate < fresh then newGate else world.gates gate) fun thread => world.phase thread gate
    split
    · rename_i new
      exact Sound.full rfl fun other => valid.untouched other gate new.1
    · exact valid.sound gate
  · intro other
    by_cases self : other = thread
    · subst self
      simp only [World.setControl, World.setFrames, Function.update_self]
      constructor
      · exact placed.stacked
      · simpa using placed.inside
      · intro gate moves
        have focus := placed.moving gate moves
        rw [running] at focus
        cases focus
      · intro gate lost
        have home := placed.kept gate lost
        rw [running] at home
        cases home
      · apply fits_lock
        · intro entry member
          exact Multiset.mem_add.mpr (.inl (Multiset.mem_coe.mpr member))
        · rw [spec.named]
          apply Along.imp _ fits
          intro last inside
          exact inside.mono (registrations_keys entries _)
    · simpa [World.setControl, World.setFrames, self] using valid.placed other
  · have held : (fun other => registrations (Function.update world.frames thread (.keys entries :: world.frames thread) other)) =
        Function.update (fun other => registrations (world.frames other)) thread
          (↑entries + registrations (world.frames thread)) := by
      funext other
      by_cases self : other = thread
      · rw [self, Function.update_self, Function.update_self]
        rfl
      · rw [Function.update_of_ne self, Function.update_of_ne self]
    simpa [World.setControl, World.setFrames, held] using table
  · exact fun other gate above => valid.untouched other gate (spec.after.trans above)
  · exact valid.begun.trans_le spec.after

/-- A thread takes its registrations back. -/
theorem unkeys (valid : Valid ranks world) {entries : List Entry} {rest : List Frame}
    (returning : world.control thread = .returning) (frames : world.frames thread = .keys entries :: rest) :
    Valid ranks ({ world with databaseGates := unregister world.databaseGates entries }.setFrames thread rest) := by
  have placed := valid.placed thread
  have stacked := placed.stacked
  rw [frames] at stacked
  constructor
  · exact valid.sound
  · intro other
    by_cases self : other = thread
    · subst self
      simp only [World.setFrames, Function.update_self]
      constructor
      · exact stacked
      · intro gate
        rw [placed.inside, frames]
        simp
      · exact placed.moving
      · exact placed.kept
      · rw [returning]
        exact trivial
    · simpa [World.setFrames, self] using valid.placed other
  · have table := valid.registry.unregister_all thread entries (registrations rest) (by rw [frames]; rfl)
    have held : (fun other => registrations (Function.update world.frames thread rest other)) =
        Function.update (fun other => registrations (world.frames other)) thread (registrations rest) := by
      funext other
      by_cases self : other = thread
      · rw [self, Function.update_self, Function.update_self]
      · rw [Function.update_of_ne self, Function.update_of_ne self]
    simpa [World.setFrames, held] using table
  · exact valid.untouched
  · exact valid.begun

/-! ### Every step -/

theorem advance (valid : Valid ranks world) (moved : world.advance thread = some next) : Valid ranks next := by
  have placed := valid.placed thread
  rw [World.advance] at moved
  cases doing : world.control thread with
  | run task =>
      rw [doing] at moved
      cases task with
      | body =>
          cases moved
          apply valid.turn
          constructor
          · exact placed.stacked
          · exact placed.inside
          · intro gate moves
            have focus := placed.moving gate moves
            rw [doing] at focus
            cases focus
          · exact fun _ _ => rfl
          · exact trivial
      | gated name gate exclusive inner =>
          cases moved
          exact valid.enter doing
      | keyed accesses inner =>
          cases moved
          exact valid.keys doing rfl
  | entering name gate inner =>
      rw [doing] at moved
      obtain ⟨move, advanced, rfl⟩ := Option.map_eq_some_iff.mp moved
      have ahead := placed.ahead
      rw [doing] at ahead
      have moves := Gate.advance_moves advanced
      exact valid.entered doing ((valid.sound gate).advance advanced) (moves.enters ahead.2.2.2)
  | leaving name gate =>
      rw [doing] at moved
      obtain ⟨move, advanced, rfl⟩ := Option.map_eq_some_iff.mp moved
      have ahead := placed.ahead
      rw [doing] at ahead
      have moves := Gate.advance_moves advanced
      exact valid.left doing ((valid.sound gate).advance advanced) ((moves.leaves ahead.2.2).imp_right .inr)
  | returning =>
      rw [doing] at moved
      cases frames : world.frames thread with
      | nil =>
          rw [frames] at moved
          cases moved
      | cons frame rest =>
          rw [frames] at moved
          cases frame with
          | gate name gate =>
              obtain ⟨left, done, rfl⟩ := Option.map_eq_some_iff.mp moved
              exact valid.leave doing frames done
          | keys entries =>
              cases moved
              exact valid.unkeys doing frames

theorem cancel (valid : Valid ranks world) (moved : world.cancel thread = some next) : Valid ranks next := by
  have placed := valid.placed thread
  rw [World.cancel] at moved
  cases doing : world.control thread with
  | run task =>
      rw [doing] at moved
      cases moved
      apply valid.turn
      constructor
      · exact placed.stacked
      · exact placed.inside
      · intro gate moves
        have focus := placed.moving gate moves
        rw [doing] at focus
        cases focus
      · exact fun _ _ => rfl
      · exact trivial
  | entering name gate inner =>
      rw [doing] at moved
      obtain ⟨left, stopped, rfl⟩ := Option.map_eq_some_iff.mp moved
      have ahead := placed.ahead
      rw [doing] at ahead
      have kept := valid.entered doing ((valid.sound gate).cancel stopped)
        ((Gate.cancel_enters ahead.2.2.2 stopped).imp_right .inr)
      simpa [World.setGate] using kept
  | leaving name gate =>
      rw [doing] at moved
      obtain ⟨left, stopped, rfl⟩ := Option.map_eq_some_iff.mp moved
      have ahead := placed.ahead
      rw [doing] at ahead
      have kept := valid.left doing ((valid.sound gate).cancel stopped) (.inr (.inl (Gate.cancel_leaves ahead.2.2 stopped)))
      simpa [World.setGate] using kept
  | returning =>
      rw [doing] at moved
      cases moved

theorem step (valid : Valid ranks world) (stepped : World.Step world next) : Valid ranks next := by
  cases stepped with
  | advance thread moved => exact valid.advance moved
  | cancel thread moved => exact valid.cancel moved

end Valid

end ChuSQL.Server.Security
