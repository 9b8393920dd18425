import ChuSQL.Model.Scalar.Times

/-! Intervals: the texts that are accepted are those of their fields, and what is stored is
read back as long as its amounts keep to eighteen digits. -/

set_option autoImplicit false

namespace ChuSQL.Model

open Library

/-! ### Numbers with units -/

/-- A number as it is written. -/
structure Digits where
  text : List Char
  digit : ∀ c ∈ text, c.isDigit = true
  full : text ≠ []
  short : text.length ≤ 18

namespace Digits

def value (digits : Digits) : Nat := numeralValue 10 digits.text

end Digits

/-- Digits in front of something else are read as a whole. -/
theorem munch_digits {digits rest : List Char} {c : Char} (digit : ∀ d ∈ digits, d.isDigit = true) (full : digits ≠ [])
    (other : c.isDigit = false) : Reader.munch1 Char.isDigit (digits ++ c :: rest) = [(digits, c :: rest)] := by
  obtain ⟨front, rear⟩ := @cut_at Char.isDigit digits rest c digit other
  rw [Reader.munch1, front, if_neg full, rear]

theorem number_long {digits rest : List Char} {c : Char} (digit : ∀ d ∈ digits, d.isDigit = true) (long : 18 < digits.length)
    (other : c.isDigit = false) : number (digits ++ c :: rest) = [] := by
  have full : digits ≠ [] := by
    intro empty
    rw [empty] at long
    cases long
  rw [number, Reader.bind_of_one (munch_digits digit full other), if_pos long]
  rfl

theorem number_digits (digits : Digits) {rest : List Char} {c : Char} (other : c.isDigit = false) :
    number (digits.text ++ c :: rest) = [(digits.value, c :: rest)] := by
  rw [number, Reader.bind_of_one (munch_digits digits.digit digits.full other), if_neg (Nat.not_lt.mpr digits.short)]
  rfl

theorem munch_plain {text : List Char} (plain : ∀ c ∈ text.head?, c.isDigit = false) :
    Reader.munch1 Char.isDigit text = [] := by
  cases text with
  | nil => rfl
  | cons c text =>
      have other := plain c rfl
      simp [Reader.munch1, other]

theorem number_plain {text : List Char} (plain : ∀ c ∈ text.head?, c.isDigit = false) : number text = [] := by
  rw [number, Reader.bind_of_nil (munch_plain plain)]

/-- No number with this unit stands in front. -/
theorem component_absent {unit : Char} {text : List Char}
    (absent : (number >>= fun n => Reader.char unit >>= fun _ => (pure (some n) : Reader (Option Nat))) text = []) :
    component unit text = [(none, text)] := by
  change _ ++ [(none, text)] = [(none, text)]
  rw [absent]
  rfl

theorem component_plain {unit : Char} {text : List Char} (plain : ∀ c ∈ text.head?, c.isDigit = false) :
    component unit text = [(none, text)] :=
  component_absent (Reader.bind_of_nil (number_plain plain))

theorem component_other {unit c : Char} {digits rest : List Char} (digit : ∀ d ∈ digits, d.isDigit = true)
    (full : digits ≠ []) (other : c.isDigit = false) (blocked : c ≠ unit ∨ 18 < digits.length) :
    component unit (digits ++ c :: rest) = [(none, digits ++ c :: rest)] := by
  apply component_absent
  by_cases long : 18 < digits.length
  · exact Reader.bind_of_nil (number_long digit long other)
  · rw [Reader.bind_of_one (number_digits ⟨digits, digit, full, Nat.le_of_not_lt long⟩ other)]
    exact Reader.bind_of_nil (Reader.char_other (blocked.resolve_right long) rest)

theorem component_written {unit : Char} (digits : Digits) (other : unit.isDigit = false) (rest : List Char) :
    component unit (digits.text ++ unit :: rest) =
      [(some digits.value, rest), (none, digits.text ++ unit :: rest)] := by
  have reads : (number >>= fun n => Reader.char unit >>= fun _ => (pure (some n) : Reader (Option Nat)))
      (digits.text ++ unit :: rest) = [(some digits.value, rest)] := by
    rw [Reader.bind_of_one (number_digits digits other), Reader.bind_of_one (Reader.char_same unit rest)]
    rfl
  change _ ++ [(none, digits.text ++ unit :: rest)] = _
  rw [reads]
  rfl

/-- A number with its unit, if there is one. -/
def unitText (unit : Char) : Option Digits → List Char
  | some digits => digits.text ++ [unit]
  | none => []

/-- A component that is written is read, and one that is not is left out. -/
theorem complete_component {Result : Type} {unit : Char} {rest : Option Nat → Reader Result} {field : Option Digits}
    {text : List Char} (other : unit.isDigit = false) (left : component unit text = [(none, text)])
    (dead : ∀ digits : Digits, Reader.complete (rest none) (digits.text ++ unit :: text) = []) :
    Reader.complete (component unit >>= rest) (unitText unit field ++ text) =
      Reader.complete (rest (field.map Digits.value)) text := by
  cases field with
  | none => exact Reader.complete_bind_one left
  | some digits =>
      rw [unitText, List.append_assoc, List.singleton_append]
      exact Reader.complete_bind_two (component_written digits other text) (dead digits)

/-- A text begins with a number that has one of these units, or with no number. -/
inductive Begins (units : List Char) (text : List Char) : Prop
  | plain (none : ∀ c ∈ text.head?, c.isDigit = false) : Begins units text
  | number (digits : Digits) (unit : Char) (rest : List Char) (known : unit ∈ units) (other : unit.isDigit = false)
      (same : text = digits.text ++ unit :: rest) : Begins units text

theorem begins_unitText {unit : Char} {units : List Char} {field : Option Digits} {text : List Char}
    (other : unit.isDigit = false) (begins : Begins units text) : Begins (unit :: units) (unitText unit field ++ text) := by
  cases field with
  | none =>
      cases begins with
      | plain none => exact .plain none
      | number digits next rest known other same =>
          exact .number digits next rest (List.mem_cons_of_mem _ known) other same
  | some digits =>
      exact .number digits unit text List.mem_cons_self other (by rw [unitText, List.append_assoc, List.singleton_append])

theorem component_begins {unit : Char} {units : List Char} {text : List Char} (begins : Begins units text)
    (apart : unit ∉ units) : component unit text = [(none, text)] := by
  cases begins with
  | plain none => exact component_plain none
  | number digits next rest known other same =>
      rw [same]
      exact component_other digits.digit digits.full other (.inl fun equal => apart (equal ▸ known))

/-! ### The time of an interval -/

structure Seconds where
  whole : Digits
  fraction : List Char
  digit : ∀ c ∈ fraction, c.isDigit = true
  places : fraction.length ≤ 6

namespace Seconds

def text (seconds : Seconds) : List Char := seconds.whole.text ++ (pointed seconds.fraction ++ ['S'])

def micros (seconds : Seconds) : Nat :=
  seconds.whole.value * 1000000 + numeralValue 10 ((seconds.fraction ++ List.replicate 6 '0').take 6)

end Seconds

/-- The reader of seconds, which may fail. -/
def secondsReader : Reader (Option Nat) := do
  let whole ← number
  let fraction ← Reader.option [] do
    let _ ← Reader.char '.'
    Reader.munch1 Char.isDigit
  if 6 < fraction.length then Reader.fail
  else do
    let _ ← Reader.char 'S'
    pure (some (whole * 1000000 + numeralValue 10 ((fraction ++ List.replicate 6 '0').take 6)))

theorem secondsPart_of {text : List Char} {found : List (Option Nat × List Char)} (reads : secondsReader text = found) :
    secondsPart text = found ++ [(none, text)] := by
  change secondsReader text ++ [(none, text)] = _
  rw [reads]

theorem secondsPart_plain {text : List Char} (plain : ∀ c ∈ text.head?, c.isDigit = false) :
    secondsPart text = [(none, text)] :=
  secondsPart_of (Reader.bind_of_nil (number_plain plain))

theorem secondsPart_other {c : Char} (digits : Digits) (rest : List Char) (other : c.isDigit = false) (point : c ≠ '.')
    (second : c ≠ 'S') : secondsPart (digits.text ++ c :: rest) = [(none, digits.text ++ c :: rest)] := by
  apply @secondsPart_of _ []
  have fraction : (Reader.option [] do
      let _ ← Reader.char '.'
      Reader.munch1 Char.isDigit : Reader (List Char)) (c :: rest) = [([], c :: rest)] := by
    change _ ++ [([], c :: rest)] = _
    rw [Reader.bind_of_nil (Reader.char_other point rest), List.nil_append]
  rw [secondsReader, Reader.bind_of_one (number_digits digits other), Reader.bind_of_one fraction]
  exact Reader.bind_of_nil (Reader.char_other second rest)

theorem secondsPart_written (seconds : Seconds) :
    secondsPart seconds.text = [(some seconds.micros, []), (none, seconds.text)] := by
  apply @secondsPart_of _ [(some seconds.micros, [])]
  by_cases empty : seconds.fraction = []
  · have fraction : (Reader.option [] do
        let _ ← Reader.char '.'
        Reader.munch1 Char.isDigit : Reader (List Char)) ['S'] = [([], ['S'])] := by
      change _ ++ [([], ['S'])] = _
      rw [Reader.bind_of_nil (Reader.char_other (by decide) _), List.nil_append]
    rw [secondsReader, Seconds.text, pointed, if_pos empty, List.nil_append,
      Reader.bind_of_one (number_digits seconds.whole rfl), Reader.bind_of_one fraction, Seconds.micros, empty]
    exact Reader.bind_of_one (Reader.char_same 'S' [])
  · have fraction : (Reader.option [] do
        let _ ← Reader.char '.'
        Reader.munch1 Char.isDigit : Reader (List Char)) ('.' :: (seconds.fraction ++ ['S'])) =
          [(seconds.fraction, ['S']), ([], '.' :: (seconds.fraction ++ ['S']))] := by
      change _ ++ [([], '.' :: (seconds.fraction ++ ['S']))] = _
      rw [Reader.bind_of_one (Reader.char_same '.' _), munch_digits seconds.digit empty rfl]
      rfl
    rw [secondsReader, Seconds.text, pointed, if_neg empty, List.cons_append,
      Reader.bind_of_one (number_digits seconds.whole rfl), Reader.bind_apply, fraction, List.flatMap_cons,
      List.flatMap_singleton, if_neg (Nat.not_lt.mpr seconds.places), if_neg (by simp),
      Reader.bind_of_one (Reader.char_same 'S' []), Reader.bind_of_nil (Reader.char_other (by decide) _)]
    rfl

/-- Hours, minutes and seconds, one of them at least. -/
structure ClockAmounts where
  hours : Option Digits
  minutes : Option Digits
  seconds : Option Seconds
  some' : hours.isSome || minutes.isSome || seconds.isSome

namespace ClockAmounts

def secondsText (amounts : ClockAmounts) : List Char := (amounts.seconds.map Seconds.text).getD []

def text (amounts : ClockAmounts) : List Char :=
  unitText 'H' amounts.hours ++ (unitText 'M' amounts.minutes ++ amounts.secondsText)

def micros (amounts : ClockAmounts) : Nat :=
  (amount (amounts.hours.map Digits.value) * 3600 + amount (amounts.minutes.map Digits.value) * 60) * 1000000 +
    amount (amounts.seconds.map Seconds.micros)

end ClockAmounts

def finishClock (hours minutes seconds : Option Nat) : Reader Nat :=
  if hours.isSome || minutes.isSome || seconds.isSome then
    pure ((amount hours * 3600 + amount minutes * 60) * 1000000 + amount seconds)
  else Reader.fail

theorem finishClock_left {hours minutes seconds : Option Nat} {text : List Char} (left : text ≠ []) :
    Reader.complete (finishClock hours minutes seconds) text = [] := by
  cases text with
  | nil => exact absurd rfl left
  | cons c text =>
      rw [finishClock]
      split_ifs <;> rfl

theorem finishClock_some {hours minutes seconds : Option Nat} (some' : hours.isSome || minutes.isSome || seconds.isSome) :
    Reader.complete (finishClock hours minutes seconds) [] =
      [(amount hours * 3600 + amount minutes * 60) * 1000000 + amount seconds] := by
  rw [finishClock, if_pos some']
  rfl

theorem begins_seconds (amounts : ClockAmounts) : Begins ['.', 'S'] amounts.secondsText := by
  rw [ClockAmounts.secondsText]
  cases amounts.seconds with
  | none => exact .plain (by simp)
  | some seconds =>
      rw [Option.map_some, Option.getD_some, Seconds.text, pointed]
      split_ifs with empty
      · exact .number seconds.whole 'S' [] (by decide) rfl rfl
      · exact .number seconds.whole '.' (seconds.fraction ++ ['S']) (by decide) rfl rfl

theorem complete_seconds {hours minutes : Option Nat} (amounts : ClockAmounts)
    (some' : hours.isSome || minutes.isSome || (amounts.seconds.map Seconds.micros).isSome) :
    Reader.complete (secondsPart >>= finishClock hours minutes) amounts.secondsText =
      [(amount hours * 3600 + amount minutes * 60) * 1000000 + amount (amounts.seconds.map Seconds.micros)] := by
  rw [ClockAmounts.secondsText]
  cases given : amounts.seconds with
  | none =>
      rw [given] at some'
      rw [Option.map_none, Option.getD_none, Reader.complete_bind_one (secondsPart_plain (by simp))]
      exact finishClock_some some'
  | some seconds =>
      have left : seconds.text ≠ [] := by simp [Seconds.text]
      rw [given] at some'
      rw [Option.map_some, Option.getD_some, Reader.complete_bind_two (secondsPart_written seconds) (finishClock_left left)]
      exact finishClock_some some'

/-- The time of an interval is read in one way. -/
theorem complete_clockParts (amounts : ClockAmounts) : Reader.complete clockParts amounts.text = [amounts.micros] := by
  have apart (digits : Digits) (c : Char) (text : List Char) : digits.text ++ c :: text ≠ [] := by simp
  have shape : clockParts = component 'H' >>= fun hours => component 'M' >>= fun minutes =>
      secondsPart >>= fun seconds => finishClock hours minutes seconds := rfl
  have begins := begins_seconds amounts
  rw [shape, ClockAmounts.text, complete_component rfl]
  · rw [complete_component rfl]
    · exact complete_seconds amounts (by simpa using amounts.some')
    · exact component_begins begins (by decide)
    · intro digits
      rw [Reader.complete_bind_one (secondsPart_other digits _ rfl (by decide) (by decide)), finishClock_left (apart _ _ _)]
  · exact component_begins (begins_unitText rfl begins) (by decide)
  · intro digits
    rw [Reader.complete_bind_one (component_other digits.digit digits.full rfl (.inl (by decide))),
      Reader.complete_bind_one (secondsPart_other digits _ rfl (by decide) (by decide)), finishClock_left (apart _ _ _)]

/-! ### The fields of an interval -/

inductive Sign where
  | none
  | plus
  | minus

def Sign.text : Sign → List Char
  | .none => []
  | .plus => ['+']
  | .minus => ['-']

/-- What an interval is written with: one field at least, and weeks alone. -/
structure IntervalFields where
  sign : Sign
  years : Option Digits
  months : Option Digits
  weeks : Option Digits
  days : Option Digits
  time : Option ClockAmounts
  some' : years.isSome || months.isSome || weeks.isSome || days.isSome || time.isSome
  alone : weeks.isSome → ¬(years.isSome || months.isSome || days.isSome || time.isSome)

namespace IntervalFields

variable (fields : IntervalFields)

def timeText : List Char := (fields.time.map fun amounts => 'T' :: amounts.text).getD []

def text : List Char :=
  fields.sign.text ++ 'P' :: (unitText 'Y' fields.years ++ (unitText 'M' fields.months ++ (unitText 'W' fields.weeks ++
    (unitText 'D' fields.days ++ fields.timeText))))

def calendar : Nat := amount (fields.years.map Digits.value) * 12 + amount (fields.months.map Digits.value)

def micros : Nat :=
  amount (fields.weeks.map Digits.value) * 7 * dayMicros + amount (fields.days.map Digits.value) * dayMicros +
    amount (fields.time.map ClockAmounts.micros)

def negative : Bool :=
  fields.sign.text == ['-'] && (decide (fields.calendar ≠ 0) || decide (fields.micros ≠ 0))

def stored : List Char := renderInterval fields.negative fields.calendar fields.micros

end IntervalFields

def finishInterval (sign : List Char) (years months weeks days time : Option Nat) : Reader (List Char) :=
  if !(years.isSome || months.isSome || weeks.isSome || days.isSome) && time.isNone then Reader.fail
  else if weeks.isSome && (years.isSome || months.isSome || days.isSome || time.isSome) then Reader.fail
  else
    let calendar := amount years * 12 + amount months
    let micros := amount weeks * 7 * dayMicros + amount days * dayMicros + amount time
    let negative := sign == ['-'] && (decide (calendar ≠ 0) || decide (micros ≠ 0))
    pure (renderInterval negative calendar micros)

def timePart : Reader (Option Nat) := Reader.option none do
  let _ ← Reader.char 'T'
  let parts ← clockParts
  pure (some parts)

def afterDays (sign : List Char) (years months weeks days : Option Nat) : Reader (List Char) :=
  timePart >>= finishInterval sign years months weeks days

def afterWeeks (sign : List Char) (years months weeks : Option Nat) : Reader (List Char) :=
  component 'D' >>= afterDays sign years months weeks

def afterMonths (sign : List Char) (years months : Option Nat) : Reader (List Char) :=
  component 'W' >>= afterWeeks sign years months

def afterYears (sign : List Char) (years : Option Nat) : Reader (List Char) :=
  component 'M' >>= afterMonths sign years

def signPart : Reader (List Char) := Reader.option [] do
  let c ← Reader.satisfy fun c => c == '+' || c == '-'
  pure [c]

def afterSign (sign : List Char) : Reader (List Char) :=
  Reader.char 'P' >>= fun _ => component 'Y' >>= afterYears sign

theorem durationText_parts : durationText = signPart >>= afterSign := rfl

/-! ### Readings that end nowhere -/

theorem finishInterval_left {sign : List Char} {years months weeks days time : Option Nat} {text : List Char}
    (left : text ≠ []) : Reader.complete (finishInterval sign years months weeks days time) text = [] := by
  cases text with
  | nil => exact absurd rfl left
  | cons c text =>
      rw [finishInterval]
      split_ifs <;> rfl

section Dead

variable {sign : List Char} {years months weeks days : Option Nat} {digits : List Char} {c : Char} {rest : List Char}
  (digit : ∀ d ∈ digits, d.isDigit = true) (full : digits ≠ []) (other : c.isDigit = false)

theorem timePart_digits (digit : ∀ d ∈ digits, d.isDigit = true) (full : digits ≠ []) (rest : List Char) :
    timePart (digits ++ rest) = [(none, digits ++ rest)] := by
  cases digits with
  | nil => exact absurd rfl full
  | cons d digits =>
      have apart : d ≠ 'T' := by
        rintro rfl
        cases digit 'T' List.mem_cons_self
      change _ ++ [(none, d :: digits ++ rest)] = _
      rw [List.cons_append, Reader.bind_of_nil (Reader.char_other apart _)]
      rfl

include digit full

theorem dead_days : Reader.complete (afterDays sign years months weeks days) (digits ++ c :: rest) = [] := by
  rw [afterDays, Reader.complete_bind_one (timePart_digits digit full _), finishInterval_left (by simp)]

include other

theorem dead_weeks (blocked : c ≠ 'D' ∨ 18 < digits.length) :
    Reader.complete (afterWeeks sign years months weeks) (digits ++ c :: rest) = [] := by
  rw [afterWeeks, Reader.complete_bind_one (component_other digit full other blocked), dead_days digit full]

theorem dead_months (week : c ≠ 'W' ∨ 18 < digits.length) (day : c ≠ 'D' ∨ 18 < digits.length) :
    Reader.complete (afterMonths sign years months) (digits ++ c :: rest) = [] := by
  rw [afterMonths, Reader.complete_bind_one (component_other digit full other week), dead_weeks digit full other day]

theorem dead_years (month : c ≠ 'M' ∨ 18 < digits.length) (week : c ≠ 'W' ∨ 18 < digits.length)
    (day : c ≠ 'D' ∨ 18 < digits.length) : Reader.complete (afterYears sign years) (digits ++ c :: rest) = [] := by
  rw [afterYears, Reader.complete_bind_one (component_other digit full other month), dead_months digit full other week day]

end Dead

/-! ### Accepted texts -/

theorem complete_time {Result : Type} {next : Option Nat → Reader Result} {amounts : ClockAmounts}
    (left : ∀ time text, text ≠ [] → Reader.complete (next time) text = []) :
    Reader.complete (timePart >>= next) ('T' :: amounts.text) = Reader.complete (next (some amounts.micros)) [] := by
  have reads : timePart ('T' :: amounts.text) =
      (clockParts amounts.text).map (fun one => (some one.1, one.2)) ++ [(none, 'T' :: amounts.text)] := by
    change _ ++ [(none, 'T' :: amounts.text)] = _
    rw [Reader.bind_of_one (Reader.char_same 'T' _)]
    congr 1
    simp [List.map_eq_flatMap]
  have dead := left none ('T' :: amounts.text) (by simp)
  have whole := @Reader.flatMap_complete _ _ (clockParts amounts.text) (fun time text => Reader.complete (next (some time)) text)
    fun time => left (some time)
  have one := complete_clockParts amounts
  rw [Reader.complete] at one
  rw [one, List.flatMap_singleton] at whole
  rw [Reader.complete_bind, reads, List.flatMap_append, List.flatMap_singleton, dead, List.append_nil, List.flatMap_map]
  exact whole

theorem complete_sign (sign : Sign) (text : List Char) :
    Reader.complete (signPart >>= afterSign) (sign.text ++ 'P' :: text) = Reader.complete (afterSign sign.text) ('P' :: text) := by
  have dead {c : Char} (apart : c ≠ 'P') (rest : List Char) : Reader.complete (afterSign []) (c :: rest) = [] := by
    rw [afterSign, Reader.complete_bind, Reader.char_other apart]
    rfl
  cases sign with
  | none =>
      have reads : signPart ('P' :: text) = [([], 'P' :: text)] := rfl
      exact Reader.complete_bind_one reads
  | plus =>
      have reads : signPart ('+' :: 'P' :: text) = [(['+'], 'P' :: text), ([], '+' :: 'P' :: text)] := rfl
      exact Reader.complete_bind_two reads (dead (by decide) _)
  | minus =>
      have reads : signPart ('-' :: 'P' :: text) = [(['-'], 'P' :: text), ([], '-' :: 'P' :: text)] := rfl
      exact Reader.complete_bind_two reads (dead (by decide) _)

namespace IntervalFields

variable (fields : IntervalFields)

theorem finish_fields : Reader.complete (finishInterval fields.sign.text (fields.years.map Digits.value)
    (fields.months.map Digits.value) (fields.weeks.map Digits.value) (fields.days.map Digits.value)
    (fields.time.map ClockAmounts.micros)) [] = [fields.stored] := by
  have some' := fields.some'
  have alone := fields.alone
  rw [finishInterval, if_neg, if_neg]
  · rfl
  · simp only [Option.isSome_map, Bool.and_eq_true, not_and]
    exact alone
  · simp only [Option.isSome_map, Bool.and_eq_true, Bool.not_eq_true', Option.isNone_map]
    intro none
    rw [none.1, Bool.false_or, Option.isSome_iff_ne_none] at some'
    exact some' (Option.isNone_iff_eq_none.mp none.2)

theorem begins_time : Begins [] fields.timeText := by
  rw [timeText]
  cases fields.time with
  | none => exact .plain (by simp)
  | some amounts => exact .plain (by simp)

theorem complete_afterDays : Reader.complete (afterDays fields.sign.text (fields.years.map Digits.value)
    (fields.months.map Digits.value) (fields.weeks.map Digits.value) (fields.days.map Digits.value)) fields.timeText =
      [fields.stored] := by
  rw [afterDays, timeText, ← finish_fields]
  cases fields.time with
  | none =>
      have reads : timePart [] = [(none, [])] := rfl
      exact Reader.complete_bind_one reads
  | some amounts => exact complete_time fun time text left => finishInterval_left left

/-- The text of the fields is accepted, and stored as their amounts. -/
theorem duration_text : duration fields.text = some fields.stored := by
  have time := fields.begins_time
  have days : Begins ['D'] (unitText 'D' fields.days ++ fields.timeText) := begins_unitText rfl time
  have weeks : Begins ['W', 'D'] (unitText 'W' fields.weeks ++ (unitText 'D' fields.days ++ fields.timeText)) :=
    begins_unitText rfl days
  have months : Begins ['M', 'W', 'D'] (unitText 'M' fields.months ++ (unitText 'W' fields.weeks ++
    (unitText 'D' fields.days ++ fields.timeText))) := begins_unitText rfl weeks
  have body : Reader.complete (afterSign fields.sign.text) ('P' :: (unitText 'Y' fields.years ++
      (unitText 'M' fields.months ++ (unitText 'W' fields.weeks ++ (unitText 'D' fields.days ++ fields.timeText))))) =
        [fields.stored] := by
    rw [afterSign, Reader.complete_bind_one (Reader.char_same 'P' _), complete_component rfl (component_begins months (by decide)) (by
        intro digits
        exact dead_years digits.digit digits.full rfl (.inl (by decide)) (.inl (by decide)) (.inl (by decide))),
      afterYears, complete_component rfl (component_begins weeks (by decide)) (by
        intro digits
        exact dead_months digits.digit digits.full rfl (.inl (by decide)) (.inl (by decide))),
      afterMonths, complete_component rfl (component_begins days (by decide)) (by
        intro digits
        exact dead_weeks digits.digit digits.full rfl (.inl (by decide))),
      afterWeeks, complete_component rfl (component_begins time (by decide)) (by
        intro digits
        exact dead_days digits.digit digits.full),
      complete_afterDays]
  have whole : Reader.complete durationText fields.text = [fields.stored] := by
    rw [durationText_parts, text]
    exact (complete_sign fields.sign _).trans body
  rw [duration, Reader.unique, whole]

end IntervalFields

/-! ### What is accepted -/

theorem mem_munch {found text left : List Char} (member : (found, left) ∈ Reader.munch1 Char.isDigit text) :
    text = found ++ left ∧ found ≠ [] ∧ ∀ c ∈ found, c.isDigit = true := by
  rw [Reader.munch1] at member
  split_ifs at member with empty
  · cases member
  · cases List.mem_singleton.mp member
    exact ⟨List.takeWhile_append_dropWhile.symm, empty, fun c inside => List.mem_takeWhile_imp inside⟩

theorem mem_number {n : Nat} {text left : List Char} (member : (n, left) ∈ number text) :
    ∃ digits : Digits, text = digits.text ++ left ∧ n = digits.value := by
  obtain ⟨found, middle, munched, result⟩ := Reader.mem_bind member
  obtain ⟨same, full, digit⟩ := mem_munch munched
  split_ifs at result with long
  · cases result
  · cases List.mem_singleton.mp result
    exact ⟨⟨found, digit, full, Nat.le_of_not_lt long⟩, same, rfl⟩

theorem mem_component {unit : Char} {n : Option Nat} {text left : List Char} (member : (n, left) ∈ component unit text) :
    ∃ field : Option Digits, text = unitText unit field ++ left ∧ n = field.map Digits.value := by
  cases Reader.mem_option member with
  | inl written =>
      obtain ⟨value, middle, numbers, marked⟩ := Reader.mem_bind written
      obtain ⟨c, rest, chars, result⟩ := Reader.mem_bind marked
      obtain ⟨digits, same, values⟩ := mem_number numbers
      cases List.mem_singleton.mp result
      rw [same, Reader.mem_char chars, values]
      exact ⟨some digits, by simp [unitText], rfl⟩
  | inr absent => exact ⟨none, absent.2.symm, absent.1⟩

theorem mem_fraction {fraction text left : List Char} (member : (fraction, left) ∈ (Reader.option [] do
      let _ ← Reader.char '.'
      Reader.munch1 Char.isDigit : Reader (List Char)) text) :
    text = pointed fraction ++ left ∧ ∀ c ∈ fraction, c.isDigit = true := by
  cases Reader.mem_option member with
  | inl written =>
      obtain ⟨c, rest, chars, munched⟩ := Reader.mem_bind written
      obtain ⟨same, full, digit⟩ := mem_munch munched
      rw [Reader.mem_char chars, same, pointed, if_neg full, List.cons_append]
      exact ⟨rfl, digit⟩
  | inr absent =>
      rw [absent.1, absent.2]
      exact ⟨rfl, by simp⟩

theorem mem_seconds {n : Option Nat} {text left : List Char} (member : (n, left) ∈ secondsPart text) :
    ∃ seconds : Option Seconds, text = (seconds.map Seconds.text).getD [] ++ left ∧ n = seconds.map Seconds.micros := by
  cases Reader.mem_option member with
  | inl written =>
      obtain ⟨whole, middle, numbers, pointing⟩ := Reader.mem_bind written
      obtain ⟨digits, same, values⟩ := mem_number numbers
      obtain ⟨fraction, last, fractions, marked⟩ := Reader.mem_bind pointing
      obtain ⟨rest, digit⟩ := mem_fraction fractions
      split_ifs at marked with long
      · cases marked
      · obtain ⟨c, after, chars, result⟩ := Reader.mem_bind marked
        cases List.mem_singleton.mp result
        rw [same, rest, Reader.mem_char chars, values]
        exact ⟨some ⟨digits, fraction, digit, Nat.le_of_not_lt long⟩, by simp [Seconds.text], rfl⟩
  | inr absent => exact ⟨none, absent.2.symm, absent.1⟩

theorem mem_clock {n : Nat} {text left : List Char} (member : (n, left) ∈ clockParts text) :
    ∃ amounts : ClockAmounts, text = amounts.text ++ left ∧ n = amounts.micros := by
  obtain ⟨h, afterHours, first, hourly⟩ := Reader.mem_bind member
  obtain ⟨m, afterMinutes, second, minutely⟩ := Reader.mem_bind hourly
  obtain ⟨s, last, third, result⟩ := Reader.mem_bind minutely
  obtain ⟨hours, one, hoursValue⟩ := mem_component first
  obtain ⟨minutes, two, minutesValue⟩ := mem_component second
  obtain ⟨seconds, three, secondsValue⟩ := mem_seconds third
  subst hoursValue minutesValue secondsValue
  split_ifs at result with some'
  · cases List.mem_singleton.mp result
    rw [one, two, three]
    exact ⟨⟨hours, minutes, seconds, by simpa using some'⟩, by simp [ClockAmounts.text, ClockAmounts.secondsText], rfl⟩
  · cases result

theorem mem_time {n : Option Nat} {text left : List Char} (member : (n, left) ∈ timePart text) :
    ∃ time : Option ClockAmounts, text = (time.map fun amounts => 'T' :: amounts.text).getD [] ++ left ∧
      n = time.map ClockAmounts.micros := by
  cases Reader.mem_option member with
  | inl written =>
      obtain ⟨c, rest, chars, inner⟩ := Reader.mem_bind written
      obtain ⟨micros, last, clocks, result⟩ := Reader.mem_bind inner
      obtain ⟨amounts, same, value⟩ := mem_clock clocks
      cases List.mem_singleton.mp result
      rw [Reader.mem_char chars, same, value]
      exact ⟨some amounts, rfl, rfl⟩
  | inr absent => exact ⟨none, absent.2.symm, absent.1⟩

theorem mem_sign {found text left : List Char} (member : (found, left) ∈ signPart text) :
    ∃ sign : Sign, text = sign.text ++ left ∧ found = sign.text := by
  cases Reader.mem_option member with
  | inl written =>
      obtain ⟨c, rest, signs, result⟩ := Reader.mem_bind written
      cases List.mem_singleton.mp result
      cases text with
      | nil => cases signs
      | cons d text =>
          rw [Reader.satisfy] at signs
          split_ifs at signs with known
          · cases List.mem_singleton.mp signs
            rw [Bool.or_eq_true, beq_iff_eq, beq_iff_eq] at known
            cases known with
            | inl plus => exact ⟨.plus, by rw [plus]; rfl, by rw [plus]; rfl⟩
            | inr minus => exact ⟨.minus, by rw [minus]; rfl, by rw [minus]; rfl⟩
          · cases signs
  | inr absent => exact ⟨.none, absent.2.symm, absent.1⟩

theorem mem_finish {sign : List Char} {years months weeks days time : Option Nat} {result text left : List Char}
    (member : (result, left) ∈ finishInterval sign years months weeks days time text) :
    left = text ∧ (years.isSome || months.isSome || weeks.isSome || days.isSome || time.isSome) ∧
      (weeks.isSome → ¬(years.isSome || months.isSome || days.isSome || time.isSome)) := by
  rw [finishInterval] at member
  have time_none : time.isNone = !time.isSome := by cases time <;> rfl
  split_ifs at member with absent mixed
  · cases member
  · cases member
  · cases List.mem_singleton.mp member
    refine ⟨rfl, ?_, fun week rest => mixed (by rw [week, rest]; rfl)⟩
    rw [time_none, Bool.and_eq_true, not_and, Bool.not_eq_true', Bool.not_eq_true', Bool.not_eq_false] at absent
    cases front : (years.isSome || months.isSome || weeks.isSome || days.isSome) with
    | true => rfl
    | false => exact absent front

/-- What is accepted is the text of fields, and stored as their amounts. -/
theorem duration_some {input text : List Char} (reads : duration input = some text) :
    ∃ fields : IntervalFields, fields.text = input ∧ text = fields.stored := by
  have member : ∃ result, (result, []) ∈ durationText input := by
    rw [duration, Reader.unique] at reads
    split at reads
    · rename_i result one
      have inside : result ∈ Reader.complete durationText input := one ▸ List.mem_singleton_self result
      rw [Reader.complete, List.mem_map] at inside
      obtain ⟨found, kept, same⟩ := inside
      rw [List.mem_filter, List.isEmpty_iff] at kept
      exact ⟨found.1, kept.2 ▸ kept.1⟩
    · cases reads
  obtain ⟨result, member⟩ := member
  obtain ⟨s, afterSign, first, body⟩ := Reader.mem_bind member
  obtain ⟨c, afterMark, chars, body⟩ := Reader.mem_bind body
  obtain ⟨y, afterYears, second, body⟩ := Reader.mem_bind body
  obtain ⟨m, afterMonths, third, body⟩ := Reader.mem_bind body
  obtain ⟨w, afterWeeks, fourth, body⟩ := Reader.mem_bind body
  obtain ⟨d, afterDays, fifth, body⟩ := Reader.mem_bind body
  obtain ⟨t, last, sixth, body⟩ := Reader.mem_bind body
  obtain ⟨sign, one, signValue⟩ := mem_sign first
  obtain ⟨years, two, yearsValue⟩ := mem_component second
  obtain ⟨months, three, monthsValue⟩ := mem_component third
  obtain ⟨weeks, four, weeksValue⟩ := mem_component fourth
  obtain ⟨days, five, daysValue⟩ := mem_component fifth
  obtain ⟨time, six, timeValue⟩ := mem_time sixth
  subst yearsValue monthsValue weeksValue daysValue timeValue
  obtain ⟨done, some', alone⟩ := mem_finish body
  simp only [Option.isSome_map] at some' alone
  let fields : IntervalFields := ⟨sign, years, months, weeks, days, time, some', alone⟩
  have same : fields.text = input := by
    rw [one, Reader.mem_char chars, two, three, four, five, six, ← done]
    simp [fields, IntervalFields.text, IntervalFields.timeText]
  rw [← same, fields.duration_text] at reads
  cases reads
  exact ⟨fields, same, rfl⟩

/-! ### What is stored -/

/-- Amounts that are written in eighteen digits. -/
def eighteenDigits (calendar micros : Nat) : Prop := calendar < 10 ^ 18 ∧ micros / dayMicros < 10 ^ 18

instance (calendar micros : Nat) : Decidable (eighteenDigits calendar micros) := inferInstanceAs (Decidable (_ ∧ _))

theorem decimal_digit (n : Nat) : ∀ c ∈ Nat.toDigits 10 n, c.isDigit = true :=
  fun _ member => Nat.isDigit_of_mem_toDigits (by decide) (by decide) member

theorem decimal_length (n : Nat) : (Nat.toDigits 10 n).length ≤ 18 ↔ n < 10 ^ 18 :=
  Nat.length_toDigits_le_iff (by decide) (by decide)

/-- A number in its shortest form. -/
def decimal (n : Nat) (small : n < 10 ^ 18) : Digits :=
  ⟨Nat.toDigits 10 n, decimal_digit n, Nat.toDigits_ne_nil, (decimal_length n).mpr small⟩

theorem decimal_value (n : Nat) (small : n < 10 ^ 18) : (decimal n small).value = n :=
  numeralValue_toDigits (by decide) (by decide) n

theorem storedWhole_small (micros : Nat) : micros % dayMicros / 1000000 < 10 ^ 18 := by
  rw [dayMicros]
  omega

theorem storedFraction_places (micros : Nat) : (numeral 10 6 (micros % dayMicros % 1000000)).length ≤ 6 :=
  (numeral_length _ _).le

/-- The seconds of a stored interval. -/
def storedSeconds (micros : Nat) : Seconds where
  whole := decimal (micros % dayMicros / 1000000) (storedWhole_small micros)
  fraction := numeral 10 6 (micros % dayMicros % 1000000)
  digit := numeral_isDigit _ _
  places := storedFraction_places micros

theorem storedSeconds_micros (micros : Nat) : (storedSeconds micros).micros = micros % dayMicros := by
  rw [Seconds.micros, storedSeconds, decimal_value]
  dsimp only
  have small : micros % dayMicros % 1000000 < 10 ^ 6 := Nat.mod_lt _ (by decide)
  rw [List.take_left' (numeral_length _ _), numeralValue_digits small, Nat.div_add_mod']

/-- The fields of a stored interval. -/
def storedFields (negative : Bool) (calendar micros : Nat) (small : eighteenDigits calendar micros) : IntervalFields where
  sign := if negative then .minus else .none
  years := none
  months := some (decimal calendar small.1)
  weeks := none
  days := some (decimal (micros / dayMicros) small.2)
  time := some ⟨none, none, some (storedSeconds micros), rfl⟩
  some' := rfl
  alone := by simp

theorem storedFields_amounts (negative : Bool) (calendar micros : Nat) (small : eighteenDigits calendar micros) :
    (storedFields negative calendar micros small).calendar = calendar ∧
      (storedFields negative calendar micros small).micros = micros := by
  constructor
  · simp [IntervalFields.calendar, storedFields, amount, decimal_value]
  · simp [IntervalFields.micros, storedFields, amount, decimal_value, ClockAmounts.micros, storedSeconds_micros,
      Nat.div_add_mod']

theorem storedFields_text (negative : Bool) (calendar micros : Nat) (small : eighteenDigits calendar micros) :
    (storedFields negative calendar micros small).text = renderInterval negative calendar micros := by
  have places : numeral 10 6 (micros % dayMicros % 1000000) ≠ [] := by
    intro empty
    have size := @numeral_length 10 6 (micros % dayMicros % 1000000)
    rw [empty] at size
    cases size
  have padded : pad 6 (Nat.toDigits 10 (micros % dayMicros % 1000000)) = numeral 10 6 (micros % dayMicros % 1000000) :=
    pad_toDigits (by decide) (by decide) (Nat.mod_lt _ (by decide))
  rw [renderInterval, padded]
  cases negative <;>
    simp [IntervalFields.text, IntervalFields.timeText, storedFields, Sign.text, unitText, decimal, ClockAmounts.text,
      ClockAmounts.secondsText, Seconds.text, storedSeconds, pointed, places]

/-- A stored interval is read back, and stays, when its amounts are written in eighteen digits. -/
theorem duration_render {negative : Bool} {calendar micros : Nat} (small : eighteenDigits calendar micros)
    (signed : negative = true → calendar ≠ 0 ∨ micros ≠ 0) :
    duration (renderInterval negative calendar micros) = some (renderInterval negative calendar micros) := by
  obtain ⟨months, time⟩ := storedFields_amounts negative calendar micros small
  have reads := (storedFields negative calendar micros small).duration_text
  rw [storedFields_text, IntervalFields.stored, IntervalFields.negative, months, time] at reads
  rw [reads]
  congr 2
  cases negative with
  | false => rfl
  | true => simpa [storedFields, Sign.text, Decidable.imp_iff_not_or] using signed rfl

/-- An interval whose amounts need more digits is not accepted again. -/
theorem duration_render_large {negative : Bool} {calendar micros : Nat} (large : ¬eighteenDigits calendar micros) :
    duration (renderInterval negative calendar micros) = none := by
  have months (n : Nat) := decimal_digit n
  have full (n : Nat) : Nat.toDigits 10 n ≠ [] := Nat.toDigits_ne_nil
  have long {n : Nat} (wide : ¬n < 10 ^ 18) : 18 < (Nat.toDigits 10 n).length :=
    Nat.lt_of_not_le fun short => wide ((decimal_length n).mp short)
  have dead (sign : List Char) (rest : List Char) : Reader.complete (afterYears sign none)
      (Nat.toDigits 10 calendar ++ 'M' :: (Nat.toDigits 10 (micros / dayMicros) ++ 'D' :: rest)) = [] := by
    by_cases small : calendar < 10 ^ 18
    · have wide : ¬micros / dayMicros < 10 ^ 18 := fun days => large ⟨small, days⟩
      have read := @complete_component _ 'M' (afterMonths sign none) (some (decimal calendar small))
        (Nat.toDigits 10 (micros / dayMicros) ++ 'D' :: rest) rfl
        (component_other (months _) (full _) rfl (.inl (by decide)))
        fun digits => dead_months digits.digit digits.full rfl (.inl (by decide)) (.inl (by decide))
      rw [unitText, List.append_assoc, List.singleton_append] at read
      exact read.trans (dead_months (months _) (full _) rfl (.inl (by decide)) (.inr (long wide)))
    · exact dead_years (months _) (full _) rfl (.inr (long small)) (.inl (by decide)) (.inl (by decide))
  have body (sign : List Char) (rest : List Char) : Reader.complete (afterSign sign)
      ('P' :: (Nat.toDigits 10 calendar ++ 'M' :: (Nat.toDigits 10 (micros / dayMicros) ++ 'D' :: rest))) = [] := by
    rw [afterSign, Reader.complete_bind_one (Reader.char_same 'P' _),
      Reader.complete_bind_one (component_other (months _) (full _) rfl (.inl (by decide))), dead]
  have whole : Reader.complete durationText (renderInterval negative calendar micros) = [] := by
    rw [durationText_parts, renderInterval]
    cases negative with
    | false => exact (complete_sign .none _).trans (body _ _)
    | true => exact (complete_sign .minus _).trans (body _ _)
  rw [duration, Reader.unique, whole]

namespace IntervalFields

variable (fields : IntervalFields)

theorem negative_amount (negative : fields.negative = true) : fields.calendar ≠ 0 ∨ fields.micros ≠ 0 := by
  rw [IntervalFields.negative, Bool.and_eq_true, Bool.or_eq_true, decide_eq_true_eq, decide_eq_true_eq] at negative
  exact negative.2

/-- What is stored is accepted again, and stays, exactly when its amounts are written in
eighteen digits. -/
theorem duration_stored : duration fields.stored = some fields.stored ↔ eighteenDigits fields.calendar fields.micros := by
  constructor
  · intro reads
    by_contra large
    rw [stored, duration_render_large large] at reads
    cases reads
  · intro small
    exact duration_render small fields.negative_amount

end IntervalFields

/-! ### What an interval denotes -/

theorem digits_unique {one other rest left : List Char} {c d : Char} (digit : ∀ e ∈ one, e.isDigit = true)
    (figures : ∀ e ∈ other, e.isDigit = true) (stop : c.isDigit = false) (last : d.isDigit = false)
    (same : one ++ c :: rest = other ++ d :: left) : one = other ∧ c = d ∧ rest = left := by
  obtain ⟨front, rear⟩ := @cut_at Char.isDigit one rest c digit stop
  obtain ⟨fronts, rears⟩ := @cut_at Char.isDigit other left d figures last
  rw [same] at front rear
  rw [front] at fronts
  rw [rear] at rears
  cases rears
  exact ⟨fronts, rfl, rfl⟩

theorem toDigits_injective {n m : Nat} (same : Nat.toDigits 10 n = Nat.toDigits 10 m) : n = m := by
  rw [← @numeralValue_toDigits 10 (by decide) (by decide) n, same, numeralValue_toDigits (by decide) (by decide)]

/-- The text of an interval determines its amounts. -/
theorem renderInterval_injective {negative minus : Bool} {calendar months micros time : Nat}
    (same : renderInterval negative calendar micros = renderInterval minus months time) :
    negative = minus ∧ calendar = months ∧ micros = time := by
  have sign : negative = minus := by
    cases negative <;> cases minus <;> simp [renderInterval] at same <;> rfl
  subst sign
  rw [renderInterval, renderInterval, List.append_cancel_left_eq, List.cons.injEq] at same
  obtain ⟨one, _, same⟩ := digits_unique (decimal_digit _) (decimal_digit _) rfl rfl same.2
  obtain ⟨two, _, same⟩ := digits_unique (decimal_digit _) (decimal_digit _) rfl rfl same
  rw [List.cons.injEq] at same
  obtain ⟨three, _, same⟩ := digits_unique (decimal_digit _) (decimal_digit _) rfl rfl same.2
  have padded (n : Nat) : pad 6 (Nat.toDigits 10 (n % dayMicros % 1000000)) = numeral 10 6 (n % dayMicros % 1000000) :=
    pad_toDigits (by decide) (by decide) (Nat.mod_lt _ (by decide))
  rw [padded, padded, List.append_cancel_right_eq] at same
  have value (n : Nat) : numeralValue 10 (numeral 10 6 (n % dayMicros % 1000000)) = n % dayMicros % 1000000 :=
    numeralValue_digits (Nat.mod_lt _ (by decide))
  have four : micros % dayMicros % 1000000 = time % dayMicros % 1000000 := by rw [← value micros, same, value]
  have days := toDigits_injective two
  have seconds := toDigits_injective three
  have rest : micros % dayMicros = time % dayMicros := by
    rw [← Nat.div_add_mod (micros % dayMicros) 1000000, seconds, four, Nat.div_add_mod]
  refine ⟨rfl, toDigits_injective one, ?_⟩
  rw [← Nat.div_add_mod micros dayMicros, days, rest, Nat.div_add_mod]

namespace IntervalFields

variable (fields other : IntervalFields)

def signum : Int := if fields.sign.text = ['-'] then -1 else 1

/-- The months and the microseconds, with the sign. -/
def signedMonths : Int := fields.signum * fields.calendar
def signedMicros : Int := fields.signum * fields.micros

theorem negative_iff : fields.negative = true ↔ fields.sign.text = ['-'] ∧ (fields.calendar ≠ 0 ∨ fields.micros ≠ 0) := by
  simp [negative]

/-- What is stored is the same exactly when the months and the microseconds are. -/
theorem stored_eq_iff : fields.stored = other.stored ↔ fields.signedMonths = other.signedMonths ∧ fields.signedMicros = other.signedMicros := by
  have one := fields.negative_iff
  have two := other.negative_iff
  rw [signedMonths, signedMonths, signedMicros, signedMicros, signum, signum]
  constructor
  · intro same
    obtain ⟨sign, calendar, micros⟩ := renderInterval_injective same
    rw [sign, two, ← calendar, ← micros] at one
    split_ifs with minus minus' minus' <;> simp_all
  · intro same
    have amounts : fields.calendar = other.calendar ∧ fields.micros = other.micros := by
      split_ifs at same <;> omega
    have sign : fields.negative = other.negative := by
      rw [Bool.eq_iff_iff, one, two, ← amounts.1, ← amounts.2]
      split_ifs at same with minus minus' minus'
      · rw [minus, minus']
      · omega
      · omega
      · simp [minus, minus']
    rw [stored, stored, sign, amounts.1, amounts.2]

end IntervalFields

end ChuSQL.Model
