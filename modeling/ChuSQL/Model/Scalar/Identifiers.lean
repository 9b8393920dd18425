import ChuSQL.Model.Scalar.Formats

/-! UUIDs and hardware addresses: hexadecimal digits in groups, which are stored in lower case
and ordered as their numbers. -/

set_option autoImplicit false

namespace ChuSQL.Model

open Library

/-! ### Hexadecimal digits in groups -/

theorem numeral_isHexDigit (width n : Nat) : ∀ c ∈ numeral 16 width n, isHexDigit c = true ∧ c.toLower = c := by
  intro c member
  obtain ⟨digit, small, rfl⟩ := numeral_digits (by decide) width n c member
  exact isHexDigit_digitChar small

/-- Digits in lower case are the numeral of their value. -/
theorem hex_lower {text : List Char} (hex : ∀ c ∈ text, isHexDigit c = true) :
    text.map Char.toLower = numeral 16 text.length (numeralValue 16 text) := by
  have same : numeralValue 16 (text.map Char.toLower) = numeralValue 16 text := by
    rw [numeralValue, numeralValue, List.map_map]
    congr 1
    apply List.map_congr_left
    intro c member
    obtain ⟨small, lower⟩ := isHexDigit_value (hex c member)
    rw [Function.comp_apply, ← lower, digitValue_digitChar small]
  have plain := @numeral_value 16 (text.map Char.toLower) (by
    intro c member
    obtain ⟨d, inside, rfl⟩ := List.mem_map.mp member
    obtain ⟨small, lower⟩ := isHexDigit_value (hex d inside)
    rw [← lower, digitValue_digitChar small]
    exact ⟨small, rfl⟩)
  rw [List.length_map, same] at plain
  exact plain.symm

/-- A number in hexadecimal digits, in groups of given widths. -/
def grouped (separator : Char) (widths : List Nat) (n : Nat) : List Char :=
  [separator].intercalate (chunks widths (numeral 16 widths.sum n))

theorem map_intercalate {each : Char → Char} {c d : Char} (separator : each c = d) (parts : List (List Char)) :
    ([c].intercalate parts).map each = [d].intercalate (parts.map (·.map each)) := by
  induction parts with
  | nil => rfl
  | cons part parts ih =>
      cases parts with
      | nil => simp
      | cons next rest => simp [separator] at ih ⊢; exact ih

theorem filter_intercalate {good : Char → Bool} {c : Char} (bad : good c = false) {parts : List (List Char)}
    (kept : ∀ part ∈ parts, ∀ d ∈ part, good d = true) : ([c].intercalate parts).filter good = parts.flatten := by
  induction parts with
  | nil => rfl
  | cons part parts ih =>
      have first := List.filter_eq_self.mpr (kept part List.mem_cons_self)
      have rest := ih fun part member => kept part (List.mem_cons_of_mem _ member)
      cases parts with
      | nil => simpa using first
      | cons next rest => simpa [bad, first] using rest

theorem splitOn_grouped {separator : Char} (apart : isHexDigit separator = false) {width : Nat} {widths : List Nat} (n : Nat) :
    (grouped separator (width :: widths) n).splitOn separator =
      chunks (width :: widths) (numeral 16 (width :: widths).sum n) := by
  apply List.splitOn_intercalate
  · intro part member inside
    have hex := (numeral_isHexDigit _ n separator (mem_of_mem_chunks member separator inside)).1
    rw [apart] at hex
    cases hex
  · simp [chunks]

/-- Groups of digits in lower case are the groups of their number. -/
theorem lower_parts {separator other : Char} {widths : List Nat} {parts : List (List Char)}
    (stays : separator.toLower = other) (sizes : parts.map List.length = widths)
    (hex : ∀ part ∈ parts, ∀ c ∈ part, isHexDigit c = true) :
    ([separator].intercalate parts).map Char.toLower = grouped other widths (numeralValue 16 parts.flatten) := by
  have all : ∀ c ∈ parts.flatten, isHexDigit c = true := by
    intro c member
    obtain ⟨part, inside, within⟩ := List.mem_flatten.mp member
    exact hex part inside c within
  have whole := hex_lower all
  have size : parts.flatten.length = widths.sum := by rw [List.length_flatten, ← sizes]
  have groups := chunks_of_parts (parts.map (·.map Char.toLower))
  rw [← List.map_flatten, whole, size, List.map_map] at groups
  have lengths : parts.map (List.length ∘ List.map Char.toLower) = widths := by
    rw [← sizes]
    apply List.map_congr_left
    simp
  rw [lengths] at groups
  rw [map_intercalate stays, grouped, groups]

theorem grouped_lt {separator : Char} {widths : List Nat} {small large : Nat} (less : small < large)
    (bound : large < 16 ^ widths.sum) : grouped separator widths small < grouped separator widths large :=
  chunks_lt separator (by simp) (by simp) (numeral_lt (by decide) (by decide) less bound)

/-- The number of the digits in a text. -/
def hexNumber (text : List Char) : Nat := numeralValue 16 (text.filter isHexDigit)

theorem hexNumber_parts {separator : Char} {parts : List (List Char)} (apart : isHexDigit separator = false)
    (hex : ∀ part ∈ parts, ∀ c ∈ part, isHexDigit c = true) :
    hexNumber ([separator].intercalate parts) = numeralValue 16 parts.flatten := by
  rw [hexNumber, filter_intercalate apart hex]

theorem numeralValue_hex_lt {text : List Char} (hex : ∀ c ∈ text, isHexDigit c = true) :
    numeralValue 16 text < 16 ^ text.length :=
  numeralValue_lt fun c member => (isHexDigit_value (hex c member)).1

theorem numeralValue_parts_lt {widths : List Nat} {parts : List (List Char)} (sizes : parts.map List.length = widths)
    (hex : ∀ part ∈ parts, ∀ c ∈ part, isHexDigit c = true) : numeralValue 16 parts.flatten < 16 ^ widths.sum := by
  have bound := @numeralValue_hex_lt parts.flatten fun c member => by
    obtain ⟨part, inside, within⟩ := List.mem_flatten.mp member
    exact hex part inside c within
  rwa [List.length_flatten, sizes] at bound

theorem all_hex {parts : List (List Char)} : parts.all (·.all isHexDigit) = true ↔
    ∀ part ∈ parts, ∀ c ∈ part, isHexDigit c = true := by
  simp

theorem chunks_hex (widths : List Nat) (width n : Nat) :
    ∀ part ∈ chunks widths (numeral 16 width n), ∀ c ∈ part, isHexDigit c = true :=
  fun _ member c inside => (numeral_isHexDigit width n c (mem_of_mem_chunks member c inside)).1

theorem grouped_lower {separator : Char} {widths : List Nat} {n : Nat} (stays : separator.toLower = separator)
    (bound : n < 16 ^ widths.sum) : (grouped separator widths n).map Char.toLower = grouped separator widths n := by
  have size : (numeral 16 widths.sum n).length = widths.sum := numeral_length _ _
  rw [grouped, lower_parts stays (chunks_length size) (chunks_hex _ _ _), chunks_flatten size,
    numeralValue_numeral (by decide) (by decide) bound, grouped]

/-! ### UUIDs -/

def uuidWidths : List Nat := [8, 4, 4, 4, 12]

def uuidText (n : Nat) : List Char := grouped '-' uuidWidths n

theorem uuid_some {input text : List Char} (reads : uuid input = some text) :
    hexNumber input < 16 ^ 32 ∧ text = uuidText (hexNumber input) := by
  rw [uuid] at reads
  obtain ⟨shape, reads⟩ := Option.ite_none_right_eq_some.mp reads
  cases reads
  have hex := all_hex.mp shape.2
  have whole := @List.intercalate_splitOn _ input _ _ '-'
  have number := hexNumber_parts (show isHexDigit '-' = false from rfl) hex
  rw [whole] at number
  have lower := lower_parts (show '-'.toLower = '-' from rfl) shape.1 hex
  rw [whole, ← number] at lower
  rw [number]
  exact ⟨numeralValue_parts_lt shape.1 hex, number ▸ lower⟩

/-- The canonical text is accepted and stays. -/
theorem uuid_uuidText {n : Nat} (bound : n < 16 ^ 32) : uuid (uuidText n) = some (uuidText n) := by
  have parts : (uuidText n).splitOn '-' = chunks uuidWidths (numeral 16 32 n) := splitOn_grouped rfl n
  have sizes : (chunks uuidWidths (numeral 16 32 n)).map List.length = uuidWidths := chunks_length (numeral_length _ _)
  have lower : (uuidText n).map Char.toLower = uuidText n := grouped_lower rfl bound
  rw [uuid, parts, lower]
  exact if_pos ⟨sizes, all_hex.mpr (chunks_hex _ _ _)⟩

/-! ### Hardware addresses -/

def macWidths : List Nat := [2, 2, 2, 2, 2, 2]

def macText (n : Nat) : List Char := grouped ':' macWidths n

theorem mac_some {input text : List Char} (reads : mac input = some text) :
    hexNumber input < 16 ^ 12 ∧ text = macText (hexNumber input) := by
  rw [mac] at reads
  obtain ⟨shape, reads⟩ := Option.ite_none_right_eq_some.mp reads
  cases reads
  generalize chosen : (if input.contains ':' then ':' else '-') = separator at shape
  have apart : isHexDigit separator = false := by
    rw [← chosen]
    split_ifs <;> rfl
  have whole := @List.intercalate_splitOn _ input _ _ separator
  generalize input.splitOn separator = parts at shape whole ⊢
  have hex : ∀ part ∈ parts, ∀ c ∈ part, isHexDigit c = true := by
    simpa using fun part member => (by simpa using List.all_eq_true.mp shape.2 part member : _ ∧ _).2
  have sizes : parts.map List.length = macWidths := by
    apply (@List.eq_replicate_iff _ 2 6 _).mpr
    constructor
    · rw [List.length_map, shape.1]
    · intro size member
      obtain ⟨part, inside, rfl⟩ := List.mem_map.mp member
      exact (by simpa using List.all_eq_true.mp shape.2 part inside : _ ∧ _).1
  have number := hexNumber_parts apart hex
  rw [whole] at number
  rw [number]
  exact ⟨numeralValue_parts_lt sizes hex, lower_parts (show ':'.toLower = ':' from rfl) sizes hex⟩

theorem mac_macText {n : Nat} (bound : n < 16 ^ 12) : mac (macText n) = some (macText n) := by
  have parts : (macText n).splitOn ':' = chunks macWidths (numeral 16 12 n) := splitOn_grouped rfl n
  have sizes : (chunks macWidths (numeral 16 12 n)).map List.length = macWidths := chunks_length (numeral_length _ _)
  have colon : (macText n).contains ':' = true := by
    rw [List.contains_iff_mem]
    by_contra absent
    rw [List.splitOn_eq_singleton absent] at parts
    rw [← parts] at sizes
    simp [macWidths] at sizes
  have shape : (chunks macWidths (numeral 16 12 n)).length = 6 ∧
      (chunks macWidths (numeral 16 12 n)).all (fun part => part.length == 2 && part.all isHexDigit) = true := by
    constructor
    · rw [← List.length_map, sizes]
      rfl
    · rw [List.all_eq_true]
      intro part member
      have size : part.length ∈ macWidths := sizes ▸ List.mem_map_of_mem member
      have two : part.length = 2 := by simpa [macWidths] using size
      rw [two, Bool.and_eq_true, List.all_eq_true]
      exact ⟨rfl, chunks_hex _ _ _ part member⟩
  have lower : ([':'].intercalate (chunks macWidths (numeral 16 12 n))).map Char.toLower = macText n := grouped_lower rfl bound
  rw [mac, colon, if_pos rfl, parts]
  exact (if_pos shape).trans (congrArg some lower)

end ChuSQL.Model
