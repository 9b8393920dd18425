import ChuSQL.Model.Scalar.Formats

/-! Times of day and instants: what is accepted has a canonical text, which is read back and
is ordered as the times are. -/

set_option autoImplicit false

namespace ChuSQL.Model

open Library

/-! ### Digits of a fixed width -/

theorem numeral_isDigit (width n : Nat) : ∀ c ∈ numeral 10 width n, c.isDigit = true := by
  intro c member
  obtain ⟨digit, small, rfl⟩ := numeral_digits (by decide) width n c member
  exact isDigit_digitChar small

theorem not_mem_of_all {good : Char → Bool} {text : List Char} {c : Char} (all : ∀ d ∈ text, good d = true)
    (bad : good c = false) : c ∉ text := by
  intro member
  rw [all c member] at bad
  cases bad

theorem numeral_of_digits {text : List Char} (all : ∀ c ∈ text, c.isDigit = true) :
    numeral 10 text.length (numeralValue 10 text) = text :=
  numeral_value fun c member => isDigit_value (all c member)

theorem numeralValue_digits {width n : Nat} (small : n < 10 ^ width) : numeralValue 10 (numeral 10 width n) = n :=
  numeralValue_numeral (by decide) (by decide) small

theorem digits_numeral {width n : Nat} (small : n < 10 ^ width) : digits width (numeral 10 width n) = some n := by
  rw [digits, if_pos, numeralValue_digits small]
  exact And.intro (numeral_length width n) (List.all_eq_true.mpr (numeral_isDigit width n))

theorem digits_some {width n : Nat} {text : List Char} (reads : digits width text = some n) :
    text = numeral 10 width n ∧ n < 10 ^ width := by
  rw [digits] at reads
  split_ifs at reads with shape
  cases reads
  have all := List.all_eq_true.mp shape.2
  have bound := @numeralValue_lt 10 text fun c member => (isDigit_value (all c member)).1
  rw [shape.1] at bound
  rw [← shape.1] at bound ⊢
  exact And.intro (numeral_of_digits all).symm bound

theorem bounded_iff {width maximum : Nat} {text : List Char} :
    bounded width maximum text = true ↔ ∃ n ≤ maximum, digits width text = some n := by
  rw [bounded, digits, Bool.and_eq_true, Bool.and_eq_true, beq_iff_eq, decide_eq_true_eq]
  by_cases shape : text.length = width ∧ text.all Char.isDigit = true
  · simp [shape]
  · rw [if_neg shape]
    constructor
    · intro fits
      simp_all
    · intro reads
      obtain ⟨n, _, reads⟩ := reads
      cases reads

theorem bounded_numeral {n maximum : Nat} (fits : n ≤ maximum) (small : maximum < 100) :
    bounded 2 maximum (numeral 10 2 n) = true :=
  bounded_iff.mpr ⟨n, fits, digits_numeral (by omega)⟩

theorem twoDigits_eq {n : Nat} (small : n < 100) : twoDigits n = numeral 10 2 n := pad_toDigits (by decide) (by decide) small

theorem microFields_eq (micros : Nat) : microFields micros = numeral 10 6 (micros % 1000000) := by
  have small : micros % 1000000 * 1000000 < 10 ^ 12 := by omega
  have high : micros % 1000000 * 1000000 / 10 ^ 6 = micros % 1000000 := by omega
  rw [microFields, pad_toDigits (by decide) (by decide) small, numeral_add 6 6, high,
    List.take_left' (numeral_length _ _)]

/-! ### Times of day -/

/-- The canonical text of a time of day. -/
def clockText (micros : Nat) : List Char := clockFields micros ++ '.' :: microFields micros

/-- Hours, minutes, seconds and the places after them. -/
theorem clockText_parts {h m s f : Nat} (hours : h < 24) (minutes : m < 60) (seconds : s < 60) (places : f < 1000000) :
    clockText ((h * 3600 + m * 60 + s) * 1000000 + f) =
      numeral 10 2 h ++ ':' :: (numeral 10 2 m ++ ':' :: numeral 10 2 s) ++ '.' :: numeral 10 6 f := by
  have one : ((h * 3600 + m * 60 + s) * 1000000 + f) / 3600000000 = h := by omega
  have two : ((h * 3600 + m * 60 + s) * 1000000 + f) / 60000000 % 60 = m := by omega
  have three : ((h * 3600 + m * 60 + s) * 1000000 + f) / 1000000 % 60 = s := by omega
  have four : ((h * 3600 + m * 60 + s) * 1000000 + f) % 1000000 = f := by omega
  rw [clockText, clockFields, microFields_eq, one, two, three, four, twoDigits_eq (by omega), twoDigits_eq (by omega),
    twoDigits_eq (by omega)]

theorem exists_clock {micros : Nat} (small : micros < dayMicros) :
    ∃ h < 24, ∃ m < 60, ∃ s < 60, ∃ f < 1000000, micros = (h * 3600 + m * 60 + s) * 1000000 + f := by
  rw [dayMicros] at small
  refine ⟨micros / 3600000000, by omega, micros / 60000000 % 60, by omega, micros / 1000000 % 60, by omega,
    micros % 1000000, by omega, by omega⟩

/-- Six places of a fraction of at most six. -/
theorem take_places {fraction : List Char} (short : fraction.length ≤ 6) :
    (fraction ++ List.replicate 6 '0').take 6 = fraction ++ List.replicate (6 - fraction.length) '0' := by
  rw [List.take_append, List.take_of_length_le short, List.take_replicate]
  congr 2
  omega

theorem places_digits {fraction : List Char} (digit : ∀ c ∈ fraction, c.isDigit = true) :
    ∀ c ∈ (fraction ++ List.replicate 6 '0').take 6, c.isDigit = true := by
  intro c member
  cases List.mem_append.mp (List.mem_of_mem_take member) with
  | inl inside => exact digit c inside
  | inr zero => rw [List.eq_of_mem_replicate zero]; rfl

theorem places_length (fraction : List Char) : ((fraction ++ List.replicate 6 '0').take 6).length = 6 := by
  simp

theorem colon_not_digit (width n : Nat) : ':' ∉ numeral 10 width n := not_mem_of_all (numeral_isDigit width n) rfl

theorem point_not_digit (width n : Nat) : '.' ∉ numeral 10 width n := not_mem_of_all (numeral_isDigit width n) rfl

theorem split_two {text a b : List Char} {c : Char} (parts : text.splitOn c = [a, b]) : text = a ++ c :: b := by
  have whole := @List.intercalate_splitOn _ text _ _ c
  rw [parts] at whole
  simpa [List.intercalate] using whole.symm

theorem split_three {text a b d : List Char} {c : Char} (parts : text.splitOn c = [a, b, d]) :
    text = a ++ c :: (b ++ c :: d) := by
  have whole := @List.intercalate_splitOn _ text _ _ c
  rw [parts] at whole
  simpa [List.intercalate] using whole.symm

/-- The places of a second as they are written, if there are any. -/
def pointed (fraction : List Char) : List Char := if fraction = [] then [] else '.' :: fraction

/-- A time of day as it is accepted. -/
structure ClockFields where
  hours : Nat
  minutes : Nat
  seconds : Nat
  fraction : List Char
  hours_lt : hours < 24
  minutes_lt : minutes < 60
  seconds_lt : seconds < 60
  places : fraction.length ≤ 6
  digit : ∀ c ∈ fraction, c.isDigit = true

namespace ClockFields

variable (fields : ClockFields)

def whole : List Char :=
  numeral 10 2 fields.hours ++ ':' :: (numeral 10 2 fields.minutes ++ ':' :: numeral 10 2 fields.seconds)

def text : List Char := fields.whole ++ pointed fields.fraction

def micros : Nat :=
  (fields.hours * 3600 + fields.minutes * 60 + fields.seconds) * 1000000 +
    numeralValue 10 ((fields.fraction ++ List.replicate 6 '0').take 6)

theorem places_value : numeralValue 10 ((fields.fraction ++ List.replicate 6 '0').take 6) < 1000000 := by
  have bound := @numeralValue_lt 10 ((fields.fraction ++ List.replicate 6 '0').take 6)
    fun c member => (isDigit_value (places_digits fields.digit c member)).1
  rw [places_length] at bound
  exact bound

theorem micros_lt : fields.micros < dayMicros := by
  have := fields.hours_lt
  have := fields.minutes_lt
  have := fields.seconds_lt
  have := fields.places_value
  rw [micros, dayMicros]
  omega

theorem clockText_micros :
    clockText fields.micros = fields.whole ++ '.' :: (fields.fraction ++ List.replicate 6 '0').take 6 := by
  have places := numeral_of_digits (places_digits fields.digit)
  rw [places_length] at places
  rw [micros, clockText_parts fields.hours_lt fields.minutes_lt fields.seconds_lt fields.places_value, places, whole]

theorem validate_whole (fraction : List Char) :
    clock.validate fields.whole fraction = some (fields.whole ++ '.' :: (fraction ++ List.replicate 6 '0').take 6) := by
  have parts : fields.whole.splitOn ':' = [numeral 10 2 fields.hours, numeral 10 2 fields.minutes, numeral 10 2 fields.seconds] := by
    rw [whole, List.splitOn_append_cons_self_of_not_mem (colon_not_digit _ _),
      List.splitOn_append_cons_self_of_not_mem (colon_not_digit _ _), List.splitOn_eq_singleton (colon_not_digit _ _)]
  have hours := bounded_numeral (Nat.le_of_lt_succ fields.hours_lt) (by decide)
  have minutes := bounded_numeral (Nat.le_of_lt_succ fields.minutes_lt) (by decide)
  have seconds := bounded_numeral (Nat.le_of_lt_succ fields.seconds_lt) (by decide)
  rw [clock.validate, parts]
  simp [hours, minutes, seconds]

theorem point_not_whole : '.' ∉ fields.whole := by
  simp [whole, point_not_digit]

theorem clock_text : clock fields.text = some (clockText fields.micros) := by
  have whole := fields.validate_whole fields.fraction
  rw [text, pointed, clock, clockText_micros]
  split_ifs with empty
  · rw [List.append_nil, List.splitOn_eq_singleton fields.point_not_whole]
    rw [empty] at whole ⊢
    exact whole
  · have digit := not_mem_of_all fields.digit (show '.'.isDigit = false from rfl)
    rw [List.splitOn_append_cons_self_of_not_mem fields.point_not_whole, List.splitOn_eq_singleton digit]
    have accepted : (!fields.fraction.isEmpty && decide (fields.fraction.length ≤ 6) &&
        fields.fraction.all Char.isDigit) = true := by
      simp [empty, fields.places, List.all_eq_true.mpr fields.digit]
    exact (if_pos accepted).trans whole

theorem colon_not_fraction : ':' ∉ pointed fields.fraction := by
  have digit := not_mem_of_all fields.digit (show ':'.isDigit = false from rfl)
  rw [pointed]
  split_ifs <;> simp [digit]

theorem fraction_pointed (seconds : Nat) :
    (numeral 10 2 seconds ++ pointed fields.fraction).takeWhile (· != '.') = numeral 10 2 seconds ∧
      ((numeral 10 2 seconds ++ pointed fields.fraction).dropWhile (· != '.')).drop 1 = fields.fraction := by
  have front : ∀ c ∈ numeral 10 2 seconds, (c != '.') = true := by
    intro c member
    simpa using fun same : c = '.' => point_not_digit 2 seconds (same ▸ member)
  rw [List.takeWhile_append_of_pos front, List.dropWhile_append_of_pos front, pointed]
  split_ifs with empty <;> simp [empty]

/-- The time library reads an accepted time as its microseconds. -/
theorem readClock_text : readClock fields.text = some fields.micros := by
  have parts : fields.text.splitOn ':' =
      [numeral 10 2 fields.hours, numeral 10 2 fields.minutes, numeral 10 2 fields.seconds ++ pointed fields.fraction] := by
    rw [text, whole, List.append_assoc, List.cons_append, List.append_assoc, List.cons_append,
      List.splitOn_append_cons_self_of_not_mem (colon_not_digit _ _),
      List.splitOn_append_cons_self_of_not_mem (colon_not_digit _ _), List.splitOn_eq_singleton]
    simp [colon_not_digit, fields.colon_not_fraction]
  obtain ⟨front, rest⟩ := fields.fraction_pointed fields.seconds
  have hours := fields.hours_lt
  have minutes := fields.minutes_lt
  have seconds := fields.seconds_lt
  have fits : fields.hours < 24 ∧ fields.minutes < 60 ∧ fields.seconds < 61 ∧ fields.fraction.all Char.isDigit :=
    ⟨hours, minutes, by omega, List.all_eq_true.mpr fields.digit⟩
  rw [readClock, parts]
  dsimp only
  rw [front, rest, digits_numeral (by omega), digits_numeral (by omega), digits_numeral (by omega)]
  exact if_pos fits

end ClockFields

theorem validate_some {whole fraction text : List Char} (short : fraction.length ≤ 6)
    (digit : ∀ c ∈ fraction, c.isDigit = true) (reads : clock.validate whole fraction = some text) :
    ∃ fields : ClockFields, fields.whole = whole ∧ fields.fraction = fraction := by
  rw [clock.validate] at reads
  split at reads
  · rename_i hours minutes seconds parts
    split_ifs at reads with bounds
    rw [Bool.and_eq_true, Bool.and_eq_true, bounded_iff, bounded_iff, bounded_iff] at bounds
    obtain ⟨⟨⟨h, hours_lt, hours_eq⟩, m, minutes_lt, minutes_eq⟩, s, seconds_lt, seconds_eq⟩ := bounds
    refine ⟨⟨h, m, s, fraction, Nat.lt_succ_of_le hours_lt, Nat.lt_succ_of_le minutes_lt, Nat.lt_succ_of_le seconds_lt,
      short, digit⟩, ?_, rfl⟩
    rw [split_three parts, (digits_some hours_eq).1, (digits_some minutes_eq).1, (digits_some seconds_eq).1]
    rfl
  · cases reads

/-- What is accepted as a time of day is the text of its fields. -/
theorem clock_some {input text : List Char} (reads : clock input = some text) :
    ∃ fields : ClockFields, fields.text = input ∧ text = clockText fields.micros := by
  have shape : ∃ fields : ClockFields, fields.text = input := by
    rw [clock] at reads
    split at reads
    · rename_i whole parts
      obtain ⟨fields, rfl, empty⟩ := validate_some (by simp) (by simp) reads
      have same := @List.intercalate_splitOn _ input _ _ '.'
      rw [parts] at same
      refine ⟨fields, ?_⟩
      rw [ClockFields.text, empty, pointed, if_pos rfl, List.append_nil]
      simpa [List.intercalate] using same
    · rename_i whole fraction parts
      split_ifs at reads with accepted
      simp only [Bool.and_eq_true, Bool.not_eq_true', List.isEmpty_eq_false_iff, decide_eq_true_eq,
        List.all_eq_true] at accepted
      obtain ⟨fields, rfl, rfl⟩ := validate_some accepted.1.2 accepted.2 reads
      refine ⟨fields, ?_⟩
      rw [ClockFields.text, pointed, if_neg accepted.1.1, split_two parts]
    · cases reads
  obtain ⟨fields, rfl⟩ := shape
  rw [fields.clock_text] at reads
  cases reads
  exact ⟨fields, rfl, rfl⟩

theorem exists_fields {micros : Nat} (small : micros < dayMicros) :
    ∃ fields : ClockFields, fields.text = clockText micros ∧ fields.micros = micros := by
  obtain ⟨h, hours, m, minutes, s, seconds, f, places, rfl⟩ := exists_clock small
  have full : numeral 10 6 f ≠ [] := fun empty => by
    have size := @numeral_length 10 6 f
    rw [empty] at size
    cases size
  refine ⟨⟨h, m, s, numeral 10 6 f, hours, minutes, seconds, by simp, numeral_isDigit 6 f⟩, ?_, ?_⟩
  · rw [clockText_parts hours minutes seconds places, ClockFields.text, pointed, if_neg full]
    rfl
  · rw [ClockFields.micros, List.take_left' (numeral_length 6 f), numeralValue_digits places]

/-- The canonical text is accepted and stays. -/
theorem clock_clockText {micros : Nat} (small : micros < dayMicros) : clock (clockText micros) = some (clockText micros) := by
  obtain ⟨fields, text, same⟩ := exists_fields small
  rw [← text, fields.clock_text, same, text]

theorem readClock_clockText {micros : Nat} (small : micros < dayMicros) : readClock (clockText micros) = some micros := by
  obtain ⟨fields, text, same⟩ := exists_fields small
  rw [← text, fields.readClock_text, same]

/-- The characters of a time of day. -/
theorem clockText_chars {micros : Nat} (small : micros < dayMicros) :
    ∀ c ∈ clockText micros, (c.isDigit || c == ':' || c == '.') = true := by
  obtain ⟨h, hours, m, minutes, s, seconds, f, places, rfl⟩ := exists_clock small
  rw [clockText_parts hours minutes seconds places]
  intro c member
  simp only [List.mem_append, List.mem_cons] at member
  have digit (width n : Nat) (inside : c ∈ numeral 10 width n) : (c.isDigit || c == ':' || c == '.') = true := by
    simp [numeral_isDigit width n c inside]
  obtain (inside | rfl | inside | rfl | inside) | rfl | inside := member
  · exact digit _ _ inside
  · rfl
  · exact digit _ _ inside
  · rfl
  · exact digit _ _ inside
  · rfl
  · exact digit _ _ inside

/-! ### Instants -/

theorem cut_at {keep : Char → Bool} {front rest : List Char} {c : Char} (kept : ∀ d ∈ front, keep d = true)
    (stops : keep c = false) :
    (front ++ c :: rest).takeWhile keep = front ∧ (front ++ c :: rest).dropWhile keep = c :: rest := by
  rw [List.takeWhile_append_of_pos kept, List.dropWhile_append_of_pos kept]
  simp [stops]

/-- The canonical text of a date in a year of four digits. -/
def dateText (date : Date) : List Char :=
  numeral 10 4 date.year.toNat ++ '-' :: (numeral 10 2 date.month ++ '-' :: numeral 10 2 date.day)

theorem dateText_chars (date : Date) : ∀ c ∈ dateText date, (c.isDigit || c == '-') = true := by
  intro c member
  simp only [dateText, List.mem_append, List.mem_cons] at member
  have digit (width n : Nat) (inside : c ∈ numeral 10 width n) : (c.isDigit || c == '-') = true := by
    simp [numeral_isDigit width n c inside]
  obtain inside | rfl | inside | rfl | inside := member
  · exact digit _ _ inside
  · rfl
  · exact digit _ _ inside
  · rfl
  · exact digit _ _ inside

theorem dateText_length (date : Date) : (dateText date).length = 10 := by
  simp [dateText]

theorem monthLengths_le (leap : Bool) (place : Nat) : (monthLengths leap).getD place 0 ≤ 31 := by
  rw [List.getD_eq_getElem?_getD]
  cases found : (monthLengths leap)[place]? with
  | none => simp
  | some length =>
      have member := List.mem_of_getElem? found
      cases leap <;> simp [monthLengths] at member <;> simp <;> omega

theorem readDate_dateText {date : Date} (valid : date.valid) (first : 0 ≤ date.year) (last : date.year ≤ 9999) :
    readDate (dateText date) = some date := by
  have hyphen (width n : Nat) : '-' ∉ numeral 10 width n := not_mem_of_all (numeral_isDigit width n) rfl
  have short : date.day ≤ 31 := valid.2.2.2.trans (monthLengths_le _ _)
  have months := valid.2.1
  have year : ((date.year.toNat : Nat) : Int) = date.year := Int.toNat_of_nonneg first
  rw [readDate, dateText, List.splitOn_append_cons_self_of_not_mem (hyphen _ _),
    List.splitOn_append_cons_self_of_not_mem (hyphen _ _), List.splitOn_eq_singleton (hyphen _ _)]
  dsimp only
  rw [digits_numeral (by omega), digits_numeral (by omega), digits_numeral (by omega)]
  simp [year, valid]

theorem ne_of_kind {good : Char → Bool} {c d : Char} (kind : good c = true) (bad : good d = false) : (c == d) = false := by
  rw [beq_eq_false_iff_ne]
  rintro rfl
  rw [kind] at bad
  cases bad

theorem clockText_kept {micros : Nat} (small : micros < dayMicros) :
    ∀ c ∈ clockText micros, (c == 'Z') = false ∧ (c == 'z') = false ∧ (c == '+') = false ∧ (c == '-') = false :=
  fun c member =>
    have other {d : Char} := @ne_of_kind (fun c => c.isDigit || c == ':' || c == '.') c d (clockText_chars small c member)
    ⟨other rfl, other rfl, other rfl, other rfl⟩

theorem dateText_kept (date : Date) : ∀ c ∈ dateText date, (c == 'T') = false ∧ (c == 't') = false :=
  fun c member =>
    have other {d : Char} := @ne_of_kind (fun c => c.isDigit || c == '-') c d (dateText_chars date c member)
    ⟨other rfl, other rfl⟩

theorem iso8601ParseM_canonical {date : Date} {micros : Nat} (valid : date.valid) (first : 0 ≤ date.year)
    (last : date.year ≤ 9999) (small : micros < dayMicros) :
    iso8601ParseM (dateText date ++ 'T' :: (clockText micros ++ "+00:00".toList)) = some ⟨date, micros, 0⟩ := by
  have front := @cut_at (· != 'T') (dateText date) (clockText micros ++ "+00:00".toList) 'T'
    (fun c member => by simp [bne, dateText_kept date c member]) rfl
  have rear := @cut_at (fun c => !(c == '+' || c == '-')) (clockText micros) "00:00".toList '+'
    (fun c member => by simp [clockText_kept small c member]) rfl
  have zone : readOffset ('+' :: "00:00".toList) = some 0 := by decide
  have offset : "+00:00".toList = '+' :: "00:00".toList := rfl
  rw [iso8601ParseM, front.1, front.2, List.drop_one, List.tail_cons, offset]
  dsimp only
  rw [rear.1, rear.2, readDate_dateText valid first last, readClock_clockText small, zone]
  rfl

/-- The date and the time of a day of an instant. -/
theorem utc_of_parts {date : Date} {micros : Nat} (valid : date.valid) (small : micros < dayMicros) :
    utcDate (date.dayNumber * dayMicros + micros) = date ∧ utcMicros (date.dayNumber * dayMicros + micros) = micros := by
  have whole : (dayMicros : Int) ≠ 0 := by decide
  have rest : (micros : Int) / dayMicros = 0 := Int.ediv_eq_zero_of_lt (by omega) (by exact_mod_cast small)
  constructor
  · rw [utcDate, Int.add_comm, Int.add_mul_ediv_right _ _ whole, rest, Int.zero_add, Date.toGregorian_dayNumber valid]
  · rw [utcMicros, Int.add_comm, Int.add_mul_emod_self_right, Int.emod_eq_of_lt (by omega) (by exact_mod_cast small),
      Int.toNat_natCast]

/-- An instant is its date and its time of day. -/
theorem parts_of_utc (time : UTCTime) :
    (utcDate time).valid ∧ utcMicros time < dayMicros ∧ (utcDate time).dayNumber * dayMicros + utcMicros time = time := by
  obtain ⟨number, valid⟩ := Date.dayNumber_toGregorian (time / dayMicros)
  have positive : (0 : Int) < dayMicros := by decide
  have low := Int.emod_nonneg time (by decide : (dayMicros : Int) ≠ 0)
  have high := Int.emod_lt_of_pos time positive
  have split := Int.ediv_mul_add_emod time dayMicros
  refine ⟨valid, by rw [utcMicros]; omega, ?_⟩
  rw [utcDate, number, utcMicros, Int.toNat_of_nonneg low, split]

/-- The year is written in four digits. -/
def fourDigits (year : Int) : Prop := 1000 ≤ year ∧ year ≤ 9999

instance (year : Int) : Decidable (fourDigits year) := inferInstanceAs (Decidable (_ ∧ _))

theorem toString_year {year : Int} (positive : 0 ≤ year) : (toString year).toList = Nat.toDigits 10 year.toNat := by
  obtain ⟨n, rfl⟩ := Int.eq_ofNat_of_zero_le positive
  simp [toString, Int.repr, Nat.toList_repr]

theorem year_length {year : Int} (known : -1 ≤ year) : (toString year).length = 4 ↔ fourDigits year := by
  by_cases positive : 0 ≤ year
  · rw [← String.length_toList, toString_year positive, fourDigits]
    have three := @Nat.length_toDigits_le_iff 10 year.toNat 3 (by decide) (by decide)
    have four := @Nat.length_toDigits_le_iff 10 year.toNat 4 (by decide) (by decide)
    omega
  · have last : year = -1 := by omega
    subst last
    decide

theorem toString_fourDigits {year : Int} (four : fourDigits year) : (toString year).toList = numeral 10 4 year.toNat := by
  have known : 0 ≤ year := by have := four.1; omega
  have length := (year_length (by omega)).mpr four
  rw [← String.length_toList, toString_year known] at length
  have bound : year.toNat < 10 ^ 4 := by have := four.2; omega
  rw [toString_year known, ← pad_toDigits (by decide) (by decide) bound, pad, length]
  rfl

/-- The canonical text of an instant is read back. -/
theorem zoned_canonical {date : Date} {micros : Nat} (valid : date.valid) (four : fourDigits date.year)
    (small : micros < dayMicros) :
    zoned (dateText date ++ 'T' :: (clockText micros ++ ['Z'])) = some (date.dayNumber * dayMicros + micros) := by
  have front := @cut_at (fun c => !(c == 'T' || c == 't')) (dateText date) (clockText micros ++ ['Z']) 'T'
    (fun c member => by simp [dateText_kept date c member]) rfl
  have rear := @cut_at (fun c => !(c == 'Z' || c == 'z' || c == '+' || c == '-')) (clockText micros) [] 'Z'
    (fun c member => by simp [clockText_kept small c member]) rfl
  have parsed := iso8601ParseM_canonical valid (Int.le_trans (by decide) four.1) four.2 small
  have year : (toString date.year).length = 4 := (year_length (Int.le_trans (by decide) four.1)).mpr four
  have zone : validZone ['Z'] = true := rfl
  rw [zoned]
  dsimp only
  rw [front.1, front.2]
  dsimp only [Option.bind_eq_bind, Option.bind_some]
  rw [rear.1, rear.2, clock_clockText small]
  dsimp only [Option.bind_some]
  have utc : zonedTimeToUTC ⟨date, micros, 0⟩ = date.dayNumber * dayMicros + micros := by
    rw [zonedTimeToUTC, Int.zero_mul, Int.sub_zero]
  rw [if_neg (by simp [dateText_length, zone]), if_pos (.inl rfl), parsed]
  dsimp only [Option.bind_some]
  rw [if_pos (by rw [utc, (utc_of_parts valid small).1]; exact year), utc]

theorem readOffset_bound {text : List Char} {zone : Int} (reads : readOffset text = some zone) :
    -10000 < zone ∧ zone < 10000 := by
  cases text with
  | nil => cases reads
  | cons sign text =>
      rw [readOffset] at reads
      split at reads
      · rename_i hours minutes parts
        obtain ⟨h, hours_eq, reads⟩ := Option.bind_eq_some_iff.mp reads
        obtain ⟨m, minutes_eq, reads⟩ := Option.bind_eq_some_iff.mp reads
        have first := (digits_some hours_eq).2
        have second := (digits_some minutes_eq).2
        split_ifs at reads <;> cases reads <;> omega
      · cases reads

theorem readDate_valid {text : List Char} {date : Date} (reads : readDate text = some date) : date.valid ∧ 0 ≤ date.year := by
  rw [readDate] at reads
  split at reads
  · obtain ⟨y, _, reads⟩ := Option.bind_eq_some_iff.mp reads
    obtain ⟨m, _, reads⟩ := Option.bind_eq_some_iff.mp reads
    obtain ⟨d, _, reads⟩ := Option.bind_eq_some_iff.mp reads
    dsimp only at reads
    split_ifs at reads with valid
    cases reads
    exact ⟨valid, Int.natCast_nonneg y⟩
  · cases reads

/-- No offset moves a time in a year from zero on further back than the year before. -/
theorem year_of_zoned {time : ZonedTime} (valid : time.date.valid) (first : 0 ≤ time.date.year)
    (bound : time.zone < 10000) : -1 ≤ (utcDate (zonedTimeToUTC time)).year := by
  by_contra before
  have early := @yearStart_mono ((utcDate (zonedTimeToUTC time)).year + 1) (-1) (by omega)
  have late := @yearStart_mono 0 time.date.year first
  have day := (Date.dayNumber_within valid).1
  obtain ⟨known, small, split⟩ := parts_of_utc (zonedTimeToUTC time)
  have within := (Date.dayNumber_within known).2
  have value : (time.date.dayNumber * 86400000000 + time.micros - time.zone * 60000000 : Int) = zonedTimeToUTC time := rfl
  have zero : yearStart 0 = -366 := rfl
  have minus : yearStart (-1) = -731 := rfl
  rw [dayMicros] at split small
  omega

/-- The year of an accepted instant has four digits in UTC. -/
theorem zoned_some {input : List Char} {time : UTCTime} (reads : zoned input = some time) : fourDigits (utcDate time).year := by
  rw [zoned] at reads
  dsimp only at reads
  split at reads
  case h_2 => cases reads
  dsimp only [Option.bind_eq_bind, Option.bind_some] at reads
  obtain ⟨_, _, reads⟩ := Option.bind_eq_some_iff.mp reads
  obtain ⟨_, reads⟩ := Option.ite_none_left_eq_some.mp reads
  obtain ⟨parsed, parses, reads⟩ := Option.bind_eq_some_iff.mp reads
  obtain ⟨length, reads⟩ := Option.ite_none_right_eq_some.mp reads
  cases reads
  rw [iso8601ParseM] at parses
  obtain ⟨date, dates, parses⟩ := Option.bind_eq_some_iff.mp parses
  obtain ⟨micros, _, parses⟩ := Option.bind_eq_some_iff.mp parses
  obtain ⟨zone, zones, parses⟩ := Option.bind_eq_some_iff.mp parses
  cases parses
  obtain ⟨valid, first⟩ := readDate_valid dates
  exact (year_length (year_of_zoned valid first (readOffset_bound zones).2)).mp length

theorem formatClock_eq (time : UTCTime) : formatClock time = clockText (utcMicros time) ++ ['Z'] := by
  rw [formatClock, clockText, List.append_assoc, List.cons_append]

theorem formatTimestamp_eq {time : UTCTime} (four : fourDigits (utcDate time).year) :
    formatTimestamp time = dateText (utcDate time) ++ 'T' :: (clockText (utcMicros time) ++ ['Z']) := by
  have valid := (parts_of_utc time).1
  have short : (utcDate time).day ≤ 31 := valid.2.2.2.trans (monthLengths_le _ _)
  have months := valid.2.1
  rw [formatTimestamp, toString_fourDigits four, formatClock_eq, twoDigits_eq (by omega), twoDigits_eq (by omega), dateText]
  simp

theorem zoned_formatTimestamp {time : UTCTime} (four : fourDigits (utcDate time).year) :
    zoned (formatTimestamp time) = some time := by
  obtain ⟨valid, small, same⟩ := parts_of_utc time
  rw [formatTimestamp_eq four, zoned_canonical valid four small, same]

/-! ### Order -/

theorem numeral_ten_lt {width small large : Nat} (less : small < large) (bound : large < 10 ^ width) :
    numeral 10 width small < numeral 10 width large :=
  numeral_lt (by decide) (by decide) less bound

theorem clockText_nested {micros : Nat} (small : micros < dayMicros) :
    clockText micros = numeral 10 2 (micros / 3600000000) ++ (':' ::
      (numeral 10 2 (micros % 3600000000 / 60000000) ++ (':' ::
        (numeral 10 2 (micros % 3600000000 % 60000000 / 1000000) ++ ('.' ::
          numeral 10 6 (micros % 3600000000 % 60000000 % 1000000)))))) := by
  obtain ⟨h, hours, m, minutes, s, seconds, f, places, rfl⟩ := exists_clock small
  clear small
  have hour : ((h * 3600 + m * 60 + s) * 1000000 + f) / 3600000000 = h ∧
      ((h * 3600 + m * 60 + s) * 1000000 + f) % 3600000000 = (m * 60 + s) * 1000000 + f :=
    (Nat.div_mod_unique (by omega)).mpr ⟨by ring, by omega⟩
  have minute : ((m * 60 + s) * 1000000 + f) / 60000000 = m ∧ ((m * 60 + s) * 1000000 + f) % 60000000 = s * 1000000 + f := by
    clear hour
    exact (Nat.div_mod_unique (by omega)).mpr ⟨by ring, by omega⟩
  have second : (s * 1000000 + f) / 1000000 = s ∧ (s * 1000000 + f) % 1000000 = f := by
    clear hour minute
    exact (Nat.div_mod_unique (by omega)).mpr ⟨by ring, by omega⟩
  rw [clockText_parts hours minutes seconds places, hour.1, hour.2, minute.1, minute.2, second.1, second.2]
  simp

/-- An earlier time of day has the smaller text. -/
theorem clockText_lt {small large : Nat} (less : small < large) (bound : large < dayMicros) :
    clockText small < clockText large := by
  rw [clockText_nested (less.trans bound), clockText_nested bound]
  rw [dayMicros] at bound
  apply @quotient_lt 3600000000 small large (numeral 10 2) (fun rest => ':' ::
    (numeral 10 2 (rest / 60000000) ++ (':' :: (numeral 10 2 (rest % 60000000 / 1000000) ++ ('.' ::
      numeral 10 6 (rest % 60000000 % 1000000)))))) _ _ _ less
  · simp
  · intro hours
    exact numeral_ten_lt hours (by omega)
  intro rest
  apply List.cons_lt_cons_self.mpr
  apply @quotient_lt 60000000 _ _ (numeral 10 2) (fun rest => ':' :: (numeral 10 2 (rest / 1000000) ++ ('.' ::
    numeral 10 6 (rest % 1000000)))) _ _ _ rest
  · simp
  · intro minutes
    exact numeral_ten_lt minutes (by omega)
  intro rest
  apply List.cons_lt_cons_self.mpr
  apply @quotient_lt 1000000 _ _ (numeral 10 2) (fun rest => '.' :: numeral 10 6 rest) _ _ _ rest
  · simp
  · intro seconds
    exact numeral_ten_lt seconds (by omega)
  · intro places
    exact List.cons_lt_cons_self.mpr (numeral_ten_lt places (by omega))

theorem clockText_length {micros : Nat} (small : micros < dayMicros) : (clockText micros).length = 15 := by
  rw [clockText_nested small]
  simp

/-- An earlier day has the smaller text. -/
theorem dateText_lt {one other : Date} (valid : one.valid) (known : other.valid) (four : fourDigits one.year)
    (last : fourDigits other.year) (less : one.dayNumber < other.dayNumber) : dateText one < dateText other := by
  have lexicographic : one.year < other.year ∨ (one.year = other.year ∧
      (one.month < other.month ∨ (one.month = other.month ∧ one.day < other.day))) := by
    by_contra back
    have later : one = other ∨ other.dayNumber < one.dayNumber := by
      by_cases same : one = other
      · exact .inl same
      · refine .inr (Date.dayNumber_lt known valid ?_)
        have differ : one.year ≠ other.year ∨ one.month ≠ other.month ∨ one.day ≠ other.day := by
          by_contra equal
          push Not at equal
          exact same (by cases one; cases other; simp_all)
        omega
    cases later with
    | inl same => exact absurd less (by rw [same]; exact lt_irrefl _)
    | inr after => omega
  have short : other.day ≤ 31 := known.2.2.2.trans (monthLengths_le _ _)
  have months := known.2.1
  have years := last.2
  have first := four.1
  rw [dateText, dateText]
  obtain year | ⟨year, month | ⟨month, day⟩⟩ := lexicographic
  · exact append_lt_append (numeral_ten_lt (by omega) (by omega)) (by simp) _ _
  · rw [year]
    apply List.append_left_lt
    apply List.cons_lt_cons_self.mpr
    exact append_lt_append (numeral_ten_lt month (by omega)) (by simp) _ _
  · rw [year, month]
    apply List.append_left_lt
    apply List.cons_lt_cons_self.mpr
    apply List.append_left_lt
    exact List.cons_lt_cons_self.mpr (numeral_ten_lt day (by omega))

/-- An earlier instant has the smaller text. -/
theorem formatTimestamp_lt {one other : Int} (four : fourDigits (utcDate one).year)
    (last : fourDigits (utcDate other).year) (less : one < other) : formatTimestamp one < formatTimestamp other := by
  obtain ⟨valid, small, split⟩ := parts_of_utc one
  obtain ⟨known, bound, parts⟩ := parts_of_utc other
  rw [formatTimestamp_eq four, formatTimestamp_eq last]
  have size : (clockText (utcMicros one)).length = (clockText (utcMicros other)).length := by
    rw [clockText_length small, clockText_length bound]
  by_cases day : (utcDate one).dayNumber < (utcDate other).dayNumber
  · exact append_lt_append (dateText_lt valid known four last day) (by simp [dateText_length]) _ _
  · have number : (dayMicros : Int) = 86400000000 := rfl
    have limit : dayMicros = 86400000000 := rfl
    rw [number] at split parts
    have same : (utcDate one).dayNumber = (utcDate other).dayNumber := by omega
    have date : utcDate one = utcDate other := by
      rw [← Date.toGregorian_dayNumber valid, same, Date.toGregorian_dayNumber known]
    rw [date]
    apply List.append_left_lt
    apply List.cons_lt_cons_self.mpr
    exact append_lt_append (clockText_lt (by omega) bound) size _ _

end ChuSQL.Model
