import ChuSQL.Library.SortedMap
import ChuSQL.Library.Tokens

/-! The limit on failed logins: how often a password can be guessed by any number of
connections that sign in at the same time. -/

set_option autoImplicit false

namespace ChuSQL.Server.RateLimit

open Library

structure Attempt where
  count : Int
  start : Int
  deriving DecidableEq, Repr

/-- How many failures are allowed in a window of time. -/
structure RateLimitPolicy where
  most : Int
  window : Int

abbrev Attempts := SortedMap String Attempt

/-- How long the key stays locked, where it is. -/
def rateLimitBlock (policy : RateLimitPolicy) (attempts : Attempts) (now : Int) (key : String) : Option Int :=
  match attempts.get key with
  | some attempt =>
      if policy.most ≤ attempt.count then
        let left := policy.window - (now - attempt.start)
        if 0 < left then some left else none
      else none
  | none => none

def rateLimitRecord (policy : RateLimitPolicy) (attempts : Attempts) (now : Int) (key : String) : Attempts :=
  let kept := attempts.retain fun _ attempt => now - attempt.start < policy.window
  let old := (kept.get key).getD ⟨0, now⟩
  kept.insert key (if old.count = 0 then ⟨1, now⟩ else { old with count := old.count + 1 })

def rateLimitClear (attempts : Attempts) (key : String) : Attempts := attempts.erase key

/-! ### Logins -/

/-- The failures counted, and the names whose passwords are being verified. -/
structure Logins (Connection : Type) where
  attempts : Attempts
  verifying : Connection → Option String

/-- A connection asks to sign in, and learns that it may not or did. -/
inductive Event (Connection : Type) where
  | ask (connection : Connection) (key : String)
  | fail (connection : Connection) (key : String)
  | succeed (connection : Connection) (key : String)
  deriving DecidableEq

variable {Connection : Type}

def start : Logins Connection := ⟨SortedMap.empty, fun _ => none⟩

variable [DecidableEq Connection]

def step (policy : RateLimitPolicy) (logins : Logins Connection) (now : Int) : Event Connection → Option (Logins Connection)
  | .ask connection key =>
      if logins.verifying connection = none then
        if rateLimitBlock policy logins.attempts now key = none then
          some { logins with verifying := Function.update logins.verifying connection (some key) }
        else some logins
      else none
  | .fail connection key =>
      if logins.verifying connection = some key then
        some ⟨rateLimitRecord policy logins.attempts now key, Function.update logins.verifying connection none⟩
      else none
  | .succeed connection key =>
      if logins.verifying connection = some key then
        some ⟨rateLimitClear logins.attempts key, Function.update logins.verifying connection none⟩
      else none

def follow (policy : RateLimitPolicy) : Logins Connection → List (Int × Event Connection) → Option (Logins Connection)
  | logins, [] => some logins
  | logins, (now, event) :: rest => (step policy logins now event).bind fun next => follow policy next rest

def isFailure (key : String) : Event Connection → Bool
  | .fail _ other => other = key
  | _ => false

def isSuccess (key : String) : Event Connection → Bool
  | .succeed _ other => other = key
  | _ => false

/-- How many failures are on record for the key in a list of events. -/
def failures (key : String) (events : List (Int × Event Connection)) : ℕ := events.countP fun timed => isFailure key timed.2

/-! ### One step -/

theorem get_record (policy : RateLimitPolicy) (attempts : Attempts) (now : Int) (key other : String) :
    (rateLimitRecord policy attempts now key).get other =
      if other = key then
        some (match attempts.get key with
          | some attempt => if now - attempt.start < policy.window ∧ attempt.count ≠ 0 then
              { attempt with count := attempt.count + 1 } else ⟨1, now⟩
          | none => ⟨1, now⟩)
      else (attempts.get other).filter fun attempt => now - attempt.start < policy.window := by
  rw [rateLimitRecord, SortedMap.get_insert]
  by_cases same : other = key
  · rw [if_pos same, if_pos same, SortedMap.get_retain]
    cases attempts.get key with
    | none => rfl
    | some attempt =>
        by_cases fresh : now - attempt.start < policy.window
        · by_cases zero : attempt.count = 0 <;> simp [Option.filter, fresh, zero]
        · simp [Option.filter, fresh]
  · rw [if_neg same, if_neg same, SortedMap.get_retain]

section Bounds

variable [Fintype Connection] (policy : RateLimitPolicy) (key : String)

/-- How many connections wait to hear about the key. -/
def inFlight (logins : Logins Connection) : ℕ := population (fun name => decide (name = some key)) logins.verifying

/-- The most failures in a window: those allowed, and one more for every other connection. -/
def ceiling (Connection : Type) [Fintype Connection] : Int := policy.most - 1 + Fintype.card Connection

/-- The failures on record and those that may still come keep to the ceiling while the window lasts. -/
def Limited (logins : Logins Connection) (now : Int) : Prop :=
  ∀ attempt, logins.attempts.get key = some attempt →
    1 ≤ attempt.count ∧ attempt.count ≤ ceiling policy Connection ∧ attempt.start ≤ now ∧
      (now - attempt.start < policy.window → attempt.count + inFlight key logins ≤ ceiling policy Connection)

/-- The failures since a time, by the windows they fell in: all but the last of them are over. -/
def Spent (first : Int) (spent : Int) (logins : Logins Connection) (now : Int) : Prop :=
  ∃ windows : ℕ, match logins.attempts.get key with
    | some attempt => spent ≤ ceiling policy Connection * windows + attempt.count ∧
        (windows = 0 ∨ first + (windows - 1) * policy.window ≤ attempt.start)
    | none => spent ≤ ceiling policy Connection * windows ∧
        (windows = 0 ∨ first + (windows - 1) * policy.window ≤ now)

variable {policy key} {logins next : Logins Connection} {now earlier : Int}

omit [DecidableEq Connection] in
theorem Limited.later (limited : Limited policy key logins earlier) (forward : earlier ≤ now) :
    Limited policy key logins now := by
  intro attempt kept
  obtain ⟨some, small, begun, open'⟩ := limited attempt kept
  constructor
  · exact some
  constructor
  · exact small
  constructor
  · exact begun.trans forward
  · exact fun fresh => open' (by omega)

omit [DecidableEq Connection] in
theorem inFlight_le (key : String) (logins : Logins Connection) : inFlight key logins ≤ Fintype.card Connection := Finset.card_le_univ _

/-- A connection turns from one name to another, or to none. -/
theorem inFlight_other (attempts : Attempts) {connection : Connection} {name : Option String} (other : Option String)
    (before : logins.verifying connection = name) (here : name ≠ some key) (there : other ≠ some key) :
    inFlight key ⟨attempts, Function.update logins.verifying connection other⟩ = inFlight key logins :=
  population_keep (by simp [before, here, there])

theorem inFlight_begin (key : String) (attempts : Attempts) {connection : Connection} (before : logins.verifying connection = none) :
    inFlight key ⟨attempts, Function.update logins.verifying connection (some key)⟩ = inFlight key logins + 1 :=
  population_add (by simp [before]) (by simp)

theorem inFlight_end (key : String) (attempts : Attempts) {connection : Connection} (before : logins.verifying connection = some key) :
    inFlight key ⟨attempts, Function.update logins.verifying connection none⟩ + 1 = inFlight key logins :=
  population_remove (by simp [before]) (by simp)

theorem step_limited (most : 1 ≤ policy.most) (forward : earlier ≤ now) (limited : Limited policy key logins earlier)
    {event : Event Connection} (stepped : step policy logins now event = some next) : Limited policy key next now := by
  have limited := limited.later forward
  intro attempt kept
  have waiting := inFlight_le key logins
  cases event with
  | ask connection name =>
      obtain ⟨idle, stepped⟩ := Option.ite_none_right_eq_some.mp stepped
      split at stepped
      · rename_i free
        cases stepped
        obtain ⟨positive, small, begun, within⟩ := limited attempt kept
        constructor
        · exact positive
        constructor
        · exact small
        constructor
        · exact begun
        intro fresh
        by_cases same : name = key
        · subst same
          have more := inFlight_begin name logins.attempts idle
          have bound := inFlight_le name
            (⟨logins.attempts, Function.update logins.verifying connection (some name)⟩ : Logins Connection)
          have below : attempt.count < policy.most := by
            by_contra reached
            rw [rateLimitBlock, kept] at free
            simp only [not_lt.mp reached, if_true, ite_eq_right_iff, reduceCtorEq, imp_false, not_lt] at free
            omega
          rw [ceiling]
          omega
        · have unchanged : inFlight key ⟨logins.attempts, Function.update logins.verifying connection (some name)⟩ =
              inFlight key logins := inFlight_other _ _ idle (by simp) (by simpa using same)
          rw [unchanged]
          exact within fresh
      · cases stepped
        exact limited attempt kept
  | fail connection name =>
      obtain ⟨verifying, stepped⟩ := Option.ite_none_right_eq_some.mp stepped
      cases stepped
      have someone : 0 < Fintype.card Connection := Fintype.card_pos_iff.mpr ⟨connection⟩
      rw [get_record] at kept
      by_cases same : key = name
      · subst same
        have fewer := inFlight_end key (rateLimitRecord policy logins.attempts now key) verifying
        rw [if_pos rfl] at kept
        cases found : logins.attempts.get key with
        | none =>
            rw [found] at kept
            cases kept
            simp only [ceiling]
            omega
        | some old =>
            obtain ⟨positive, small, begun, within⟩ := limited old found
            rw [found] at kept
            dsimp only at kept
            split at kept
            · rename_i fresh
              cases kept
              have open' := within fresh.1
              simp only [ceiling] at *
              omega
            · cases kept
              simp only [ceiling] at *
              omega
      · rw [if_neg same, Option.filter_eq_some_iff] at kept
        obtain ⟨positive, small, begun, within⟩ := limited attempt kept.1
        have unchanged : inFlight key ⟨rateLimitRecord policy logins.attempts now name,
            Function.update logins.verifying connection none⟩ = inFlight key logins :=
          inFlight_other _ _ verifying (by simpa using Ne.symm same) (by simp)
        rw [unchanged]
        exact ⟨positive, small, begun, within⟩
  | succeed connection name =>
      obtain ⟨verifying, stepped⟩ := Option.ite_none_right_eq_some.mp stepped
      cases stepped
      rw [rateLimitClear, SortedMap.get_erase] at kept
      obtain ⟨differs, kept⟩ := Option.ite_none_left_eq_some.mp kept
      have unchanged : inFlight key ⟨rateLimitClear logins.attempts name,
          Function.update logins.verifying connection none⟩ = inFlight key logins :=
        inFlight_other _ _ verifying (by simpa using Ne.symm differs) (by simp)
      rw [unchanged]
      exact limited attempt kept

omit [DecidableEq Connection] in
/-- The window of an attempt is over. -/
theorem window_over {first spent : Int} {windows : ℕ} {attempt : Attempt}
    (small : attempt.count ≤ ceiling policy Connection) (over' : ¬now - attempt.start < policy.window) (begun : first ≤ now)
    (bound : spent ≤ ceiling policy Connection * windows + attempt.count)
    (placed : windows = 0 ∨ first + (windows - 1) * policy.window ≤ attempt.start) :
    spent ≤ ceiling policy Connection * (windows + 1 : ℕ) ∧ first + ((windows + 1 : ℕ) - 1) * policy.window ≤ now := by
  constructor
  · push_cast
    rw [mul_add, mul_one]
    omega
  · push_cast
    rw [add_sub_cancel_right]
    cases placed with
    | inl none =>
        subst none
        simpa using begun
    | inr placed =>
        rw [sub_mul, one_mul] at placed
        omega

theorem step_spent {first spent : Int} (forward : earlier ≤ now) (begun : first ≤ now)
    (limited : Limited policy key logins earlier) (before : Spent policy key first spent logins earlier)
    {event : Event Connection} (unsolved : isSuccess key event = false) (stepped : step policy logins now event = some next) :
    Spent policy key first (spent + if isFailure key event then 1 else 0) next now := by
  obtain ⟨windows, bound⟩ := before
  cases event with
  | ask connection name =>
      obtain ⟨idle, stepped⟩ := Option.ite_none_right_eq_some.mp stepped
      have same : next.attempts = logins.attempts := by
        split at stepped <;> cases stepped <;> rfl
      use windows
      rw [same]
      cases found : logins.attempts.get key with
      | none =>
          rw [found] at bound
          simp only [isFailure, Bool.false_eq_true, if_false, add_zero]
          exact ⟨bound.1, bound.2.imp_right fun before => before.trans forward⟩
      | some attempt =>
          rw [found] at bound
          simpa [isFailure] using bound
  | fail connection name =>
      obtain ⟨_, stepped⟩ := Option.ite_none_right_eq_some.mp stepped
      cases stepped
      by_cases same : key = name
      · subst same
        have get := get_record policy logins.attempts now key key
        rw [if_pos rfl] at get
        simp only [isFailure, decide_true, if_true]
        cases found : logins.attempts.get key with
        | none =>
            rw [found] at bound get
            dsimp only at get
            use windows
            rw [get]
            exact ⟨by dsimp only; omega, bound.2.imp_right fun before => before.trans forward⟩
        | some attempt =>
            obtain ⟨positive, small, _⟩ := limited attempt found
            rw [found] at bound get
            dsimp only at bound get
            by_cases fresh : now - attempt.start < policy.window
            · rw [if_pos ⟨fresh, by omega⟩] at get
              use windows
              rw [get]
              exact ⟨by dsimp only; omega, bound.2⟩
            · rw [if_neg fun both => fresh both.1] at get
              obtain ⟨spent, placed⟩ := window_over small fresh begun bound.1 bound.2
              use windows + 1
              rw [get]
              exact ⟨by dsimp only; omega, .inr placed⟩
      · have get := get_record policy logins.attempts now name key
        rw [if_neg same] at get
        simp only [isFailure, Ne.symm same, decide_false, Bool.false_eq_true, if_false, add_zero]
        cases found : logins.attempts.get key with
        | none =>
            rw [found] at bound get
            use windows
            rw [get]
            exact ⟨bound.1, bound.2.imp_right fun before => before.trans forward⟩
        | some attempt =>
            obtain ⟨positive, small, _⟩ := limited attempt found
            rw [found] at bound get
            dsimp only at bound
            by_cases fresh : now - attempt.start < policy.window
            · rw [Option.filter_some_pos (by simpa using fresh)] at get
              use windows
              rw [get]
              exact bound
            · rw [Option.filter_some_neg (by simpa using fresh)] at get
              obtain ⟨spent, placed⟩ := window_over small fresh begun bound.1 bound.2
              use windows + 1
              rw [get]
              exact ⟨spent, .inr placed⟩
  | succeed connection name =>
      obtain ⟨_, stepped⟩ := Option.ite_none_right_eq_some.mp stepped
      cases stepped
      have differs : key ≠ name := by simpa [isSuccess, eq_comm] using unsolved
      have get := SortedMap.get_erase logins.attempts name key
      rw [if_neg differs] at get
      use windows
      simp only [isFailure, Bool.false_eq_true, if_false, add_zero]
      rw [rateLimitClear, get]
      cases found : logins.attempts.get key with
      | none =>
          rw [found] at bound
          exact ⟨bound.1, bound.2.imp_right fun before => before.trans forward⟩
      | some attempt =>
          rw [found] at bound
          exact bound

/-! ### Runs -/

/-- The times of the events do not go back. -/
def Ordered (events : List (Int × Event Connection)) : Prop := events.Pairwise fun first second => first.1 ≤ second.1

/-- A run of events keeps to the ceiling, and the failures it has seen are spread over windows. -/
theorem follow_spent (most : 1 ≤ policy.most) {first : Int} {events : List (Int × Event Connection)} (ordered : Ordered events)
    (begun : ∀ timed ∈ events, first ≤ timed.1) (unsolved : ∀ timed ∈ events, isSuccess key timed.2 = false) {finish : Int}
    (ends : ∀ timed ∈ events, timed.1 ≤ finish) {earlier spent : Int} (forward : ∀ timed ∈ events, earlier ≤ timed.1)
    (before : earlier ≤ finish) (limited : Limited policy key logins earlier)
    (counted : Spent policy key first spent logins earlier) (followed : follow policy logins events = some next) :
    ∃ now, now ≤ finish ∧ Limited policy key next now ∧ Spent policy key first (spent + failures key events) next now := by
  induction events generalizing logins earlier spent with
  | nil =>
      cases followed
      exact ⟨earlier, before, limited, by simpa [failures] using counted⟩
  | cons timed rest ih =>
      obtain ⟨now, event⟩ := timed
      obtain ⟨middle, stepped, followed⟩ := Option.bind_eq_some_iff.mp followed
      obtain ⟨onward, others⟩ := List.pairwise_cons.mp ordered
      have here := forward (now, event) List.mem_cons_self
      have kept := step_limited most here limited stepped
      have more := step_spent here (begun (now, event) List.mem_cons_self) limited counted
        (unsolved (now, event) List.mem_cons_self) stepped
      obtain ⟨last, within, limited, counted⟩ := ih others (fun timed member => begun timed (List.mem_cons_of_mem _ member))
        (fun timed member => unsolved timed (List.mem_cons_of_mem _ member))
        (fun timed member => ends timed (List.mem_cons_of_mem _ member)) onward (ends (now, event) List.mem_cons_self) kept more followed
      use last
      constructor
      · exact within
      constructor
      · exact limited
      · have total : spent + (if isFailure key event then 1 else 0) + (failures key rest : Int) =
            spent + (failures key ((now, event) :: rest) : Int) := by
          rw [failures, failures, List.countP_cons]
          push_cast
          ring
        rwa [total] at counted

theorem follow_limited (most : 1 ≤ policy.most) {events : List (Int × Event Connection)} (ordered : Ordered events)
    {finish : Int} (ends : ∀ timed ∈ events, timed.1 ≤ finish) {earlier : Int} (forward : ∀ timed ∈ events, earlier ≤ timed.1)
    (before : earlier ≤ finish) (limited : Limited policy key logins earlier) (followed : follow policy logins events = some next) :
    Limited policy key next finish := by
  induction events generalizing logins earlier with
  | nil =>
      cases followed
      exact limited.later before
  | cons timed rest ih =>
      obtain ⟨now, event⟩ := timed
      obtain ⟨middle, stepped, followed⟩ := Option.bind_eq_some_iff.mp followed
      obtain ⟨onward, others⟩ := List.pairwise_cons.mp ordered
      have kept := step_limited most (forward (now, event) List.mem_cons_self) limited stepped
      exact ih others (fun timed member => ends timed (List.mem_cons_of_mem _ member)) onward
        (ends (now, event) List.mem_cons_self) kept followed

omit [Fintype Connection] in
theorem follow_append (policy : RateLimitPolicy) (logins : Logins Connection) (before during : List (Int × Event Connection)) :
    follow policy logins (before ++ during) = (follow policy logins before).bind fun next => follow policy next during := by
  induction before generalizing logins with
  | nil => rfl
  | cons timed rest ih =>
      obtain ⟨now, event⟩ := timed
      rw [List.cons_append, follow, follow, Option.bind_assoc]
      exact congrArg _ (funext fun next => ih next)

end Bounds

end ChuSQL.Server.RateLimit
