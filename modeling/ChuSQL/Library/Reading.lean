import Mathlib.Data.List.Basic

/-! Readers of texts that give every way of reading a front part: choices between readers,
repetition and reading to the end. -/

set_option autoImplicit false

namespace Library

/-- Every way of reading a front part of a text, with what is left of it. -/
def Reader (Result : Type) : Type := List Char → List (Result × List Char)

namespace Reader

variable {First Result : Type}

def succeed (result : Result) : Reader Result := fun text => [(result, text)]

def andThen (first : Reader First) (rest : First → Reader Result) : Reader Result := fun text =>
  (first text).flatMap fun found => rest found.1 found.2

instance : Monad Reader where
  pure := succeed
  bind := andThen

def fail : Reader Result := fun _ => []

/-- Both ways of reading. -/
def either (left right : Reader Result) : Reader Result := fun text => left text ++ right text

/-- The second way only where the first gives nothing. -/
def orElse (left right : Reader Result) : Reader Result := fun text =>
  match left text with
  | [] => right text
  | found => found

/-- Read it, or read nothing. -/
def option (default : Result) (reader : Reader Result) : Reader Result := either reader (succeed default)

def satisfy (good : Char → Bool) : Reader Char
  | [] => []
  | c :: text => if good c then [(c, text)] else []

def char (c : Char) : Reader Char := satisfy (· == c)

/-- The text ahead, which stays. -/
def look : Reader (List Char) := fun text => [(text, text)]

/-- Drop the characters in front. -/
def skip (drop : Char → Bool) : Reader Unit := fun text => [((), text.dropWhile drop)]

/-- As many characters as there are, and at least one. -/
def munch1 (good : Char → Bool) : Reader (List Char) := fun text =>
  if text.takeWhile good = [] then [] else [(text.takeWhile good, text.dropWhile good)]

def string (word : List Char) : Reader Unit := fun text =>
  if word.isPrefixOf text then [((), text.drop word.length)] else []

/-- Any number of times, up to a bound. -/
def manyWithin (reader : Reader Result) : Nat → Reader (List Result)
  | 0 => succeed []
  | bound + 1 => either (succeed []) do
      let first ← reader
      let rest ← manyWithin reader bound
      pure (first :: rest)

/-- Any number of times, for a reader that takes a character at least. -/
def many (reader : Reader Result) : Reader (List Result) := fun text => manyWithin reader text.length text

def sepBy (reader : Reader Result) (separator : Reader Unit) : Reader (List Result) :=
  option [] do
    let first ← reader
    let rest ← many do
      separator
      reader
    pure (first :: rest)

/-- The ways of reading a text to its end. -/
def complete (reader : Reader Result) (text : List Char) : List Result :=
  ((reader text).filter fun found => found.2.isEmpty).map (·.1)

/-- The one way of reading a text to its end, if there is one way. -/
def unique (reader : Reader Result) (text : List Char) : Option Result :=
  match complete reader text with
  | [result] => some result
  | _ => none

/-! ### What the readers give -/

@[simp] theorem pure_apply (result : Result) (text : List Char) :
    (pure result : Reader Result) text = [(result, text)] := rfl

@[simp] theorem bind_apply (first : Reader First) (rest : First → Reader Result) (text : List Char) :
    (first >>= rest) text = (first text).flatMap fun found => rest found.1 found.2 := rfl

theorem bind_of_one {first : Reader First} {rest : First → Reader Result} {text left : List Char} {found : First}
    (one : first text = [(found, left)]) : (first >>= rest) text = rest found left := by
  rw [bind_apply, one, List.flatMap_singleton]

theorem bind_of_nil {first : Reader First} {rest : First → Reader Result} {text : List Char}
    (none : first text = []) : (first >>= rest) text = [] := by
  rw [bind_apply, none, List.flatMap_nil]

theorem map_of_one {first : Reader First} {each : First → Result} {text left : List Char} {found : First}
    (one : first text = [(found, left)]) : (each <$> first) text = [(each found, left)] :=
  bind_of_one one

theorem map_of_nil {first : Reader First} {each : First → Result} {text : List Char} (none : first text = []) :
    (each <$> first) text = [] :=
  bind_of_nil none

theorem orElse_of_nil {left right : Reader Result} {text : List Char} (none : left text = []) :
    orElse left right text = right text := by
  rw [orElse, none]

theorem orElse_of_one {left right : Reader Result} {text : List Char} {found : Result × List Char}
    (one : left text = [found]) : orElse left right text = [found] := by
  rw [orElse, one]

theorem string_append (word text : List Char) : string word (word ++ text) = [((), text)] := by
  simp [string]

theorem string_of_head {c d : Char} (differ : d ≠ c) (word text : List Char) : string (d :: word) (c :: text) = [] := by
  simp [string, differ]

theorem unique_of_one {reader : Reader Result} {text : List Char} {result : Result}
    (one : reader text = [(result, [])]) : unique reader text = some result := by
  simp [unique, complete, one]

theorem char_same (c : Char) (text : List Char) : char c (c :: text) = [(c, text)] := by
  simp [char, satisfy]

theorem char_other {c d : Char} (apart : d ≠ c) (text : List Char) : char c (d :: text) = [] := by
  simp [char, satisfy, apart]

/-! ### Every reading -/

theorem mem_bind {first : Reader First} {rest : First → Reader Result} {text left : List Char}
    {result : Result} (member : (result, left) ∈ (first >>= rest) text) :
    ∃ found middle, (found, middle) ∈ first text ∧ (result, left) ∈ rest found middle := by
  rw [bind_apply, List.mem_flatMap] at member
  obtain ⟨one, inside, member⟩ := member
  exact ⟨one.1, one.2, inside, member⟩

theorem mem_option {default result : Result} {reader : Reader Result} {text left : List Char}
    (member : (result, left) ∈ option default reader text) :
    (result, left) ∈ reader text ∨ (result = default ∧ left = text) := by
  cases List.mem_append.mp member with
  | inl inside => exact .inl inside
  | inr last =>
      cases List.mem_singleton.mp last
      exact .inr ⟨rfl, rfl⟩

theorem mem_char {c d : Char} {text left : List Char} (member : (d, left) ∈ char c text) : text = c :: left := by
  cases text with
  | nil => cases member
  | cons first text =>
      rw [char, satisfy] at member
      split_ifs at member with same
      · cases List.mem_singleton.mp member
        rw [beq_iff_eq] at same
        rw [same]
      · cases member

/-! ### Reading to the end -/

theorem complete_bind (first : Reader First) (rest : First → Reader Result) (text : List Char) :
    complete (first >>= rest) text = (first text).flatMap fun found => complete (rest found.1) found.2 := by
  simp [complete, List.filter_flatMap, List.map_flatMap]

theorem complete_bind_one {first : Reader First} {rest : First → Reader Result} {text left : List Char} {found : First}
    (one : first text = [(found, left)]) : complete (first >>= rest) text = complete (rest found) left := by
  rw [complete_bind, one, List.flatMap_singleton]

/-- Of two ways the second ends nowhere. -/
theorem complete_bind_two {first : Reader First} {rest : First → Reader Result} {text left other : List Char}
    {found second : First} (two : first text = [(found, left), (second, other)])
    (dead : complete (rest second) other = []) :
    complete (first >>= rest) text = complete (rest found) left := by
  rw [complete_bind, two, List.flatMap_cons, List.flatMap_singleton, dead, List.append_nil]

/-- Where only a reading to the end goes on, the readings to the end are what counts. -/
theorem flatMap_complete {found : List (First × List Char)} {next : First → List Char → List Result}
    (left : ∀ first text, text ≠ [] → next first text = []) :
    (found.flatMap fun one => next one.1 one.2) =
      ((found.filter fun one => one.2.isEmpty).map (·.1)).flatMap fun first => next first [] := by
  induction found with
  | nil => rfl
  | cons one found ih =>
      rw [List.flatMap_cons, ih]
      cases rest : one.2 with
      | nil => simp [rest]
      | cons c text =>
          rw [left one.1 (c :: text) (by simp)]
          simp [rest]

end Reader

end Library
