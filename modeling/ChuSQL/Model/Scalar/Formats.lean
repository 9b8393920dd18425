import ChuSQL.Library.Calendar
import ChuSQL.Library.Numerals
import ChuSQL.Library.Reading
import ChuSQL.Model.Column
import Mathlib.Data.Rat.Defs

/-! The scalar formats: times, identifiers, JSON documents, network addresses and intervals.
Each reads its texts and writes the one that is stored. -/

set_option autoImplicit false

namespace ChuSQL.Model

open Library

/-! ### Times -/

/-- Digits of a fixed width. -/
def bounded (width maximum : Nat) (text : List Char) : Bool :=
  text.length == width && text.all Char.isDigit && decide (numeralValue 10 text ≤ maximum)

/-- A time of day with at most six places, and with six places as a result. -/
def clock (input : List Char) : Option (List Char) :=
  match input.splitOn '.' with
  | [whole] => validate whole []
  | [whole, fraction] =>
      if !fraction.isEmpty && decide (fraction.length ≤ 6) && fraction.all Char.isDigit then validate whole fraction
      else none
  | _ => none
where
  validate (whole fraction : List Char) : Option (List Char) :=
    match whole.splitOn ':' with
    | [hours, minutes, seconds] =>
        if bounded 2 23 hours && bounded 2 59 minutes && bounded 2 59 seconds then
          some (whole ++ '.' :: (fraction ++ List.replicate 6 '0').take 6)
        else none
    | _ => none

/-- The offset is known: it is not the one that stands for an unknown offset. -/
def validZone : List Char → Bool
  | ['Z'] => true
  | ['z'] => true
  | ['-', '0', '0', ':', '0', '0'] => false
  | sign :: hours =>
      if sign == '+' || sign == '-' then
        match hours.splitOn ':' with
        | [h, m] => bounded 2 23 h && bounded 2 59 m
        | _ => false
      else false
  | [] => false

/-- Microseconds since the first of January of year one. -/
abbrev UTCTime := Int

def dayMicros : Nat := 86400 * 1000000

structure ZonedTime where
  date : Date
  micros : Nat
  /-- The offset from UTC in minutes. -/
  zone : Int

def zonedTimeToUTC (time : ZonedTime) : UTCTime :=
  time.date.dayNumber * dayMicros + time.micros - time.zone * 60000000

def digits (width : Nat) (text : List Char) : Option Nat :=
  if text.length = width ∧ text.all Char.isDigit then some (numeralValue 10 text) else none

def readDate (text : List Char) : Option Date :=
  match text.splitOn '-' with
  | [year, month, day] => do
      let y ← digits 4 year
      let m ← digits 2 month
      let d ← digits 2 day
      let date : Date := ⟨y, m, d⟩
      if date.valid then some date else none
  | _ => none

/-- Microseconds of a time of day in the ISO 8601 form. -/
def readClock (text : List Char) : Option Nat :=
  match text.splitOn ':' with
  | [hours, minutes, seconds] => do
      let h ← digits 2 hours
      let m ← digits 2 minutes
      let whole ← digits 2 (seconds.takeWhile (· != '.'))
      let fraction := seconds.dropWhile (· != '.') |>.drop 1
      if h < 24 ∧ m < 60 ∧ whole < 61 ∧ fraction.all Char.isDigit then
        some ((h * 3600 + m * 60 + whole) * 1000000 + numeralValue 10 ((fraction ++ List.replicate 6 '0').take 6))
      else none
  | _ => none

def readOffset : List Char → Option Int
  | sign :: text =>
      match text.splitOn ':' with
      | [hours, minutes] => do
          let h ← digits 2 hours
          let m ← digits 2 minutes
          if sign = '+' then some (h * 60 + m) else if sign = '-' then some (-(h * 60 + m)) else none
      | _ => none
  | [] => none

/-- The ISO 8601 form of a date, a time of day of at most six places and an offset. -/
def iso8601ParseM (text : List Char) : Option ZonedTime := do
  let date ← readDate (text.takeWhile (· != 'T'))
  let rest := (text.dropWhile (· != 'T')).drop 1
  let isSign (c : Char) : Bool := c == '+' || c == '-'
  let micros ← readClock (rest.takeWhile fun c => !isSign c)
  let zone ← readOffset (rest.dropWhile fun c => !isSign c)
  some ⟨date, micros, zone⟩

/-- The date of a time, and the microseconds of the day. -/
def utcDate (time : UTCTime) : Date := toGregorian (time / dayMicros)
def utcMicros (time : UTCTime) : Nat := (time % dayMicros).toNat

/-- A time with its offset from UTC, which is known and keeps the year in four digits. -/
def zoned (input : List Char) : Option UTCTime := do
  let isMark (c : Char) : Bool := c == 'T' || c == 't'
  let date := input.takeWhile fun c => !isMark c
  let rest := input.dropWhile fun c => !isMark c
  let timestamp ← match rest with
    | _ :: body => some body
    | [] => none
  let isZone (c : Char) : Bool := c == 'Z' || c == 'z' || c == '+' || c == '-'
  let wall := timestamp.takeWhile fun c => !isZone c
  let zone := timestamp.dropWhile fun c => !isZone c
  let _ ← clock wall
  if date.length ≠ 10 ∨ validZone zone = false then none
  else do
    let offset := if zone = ['Z'] ∨ zone = ['z'] then "+00:00".toList else zone
    let parsed ← iso8601ParseM (date ++ 'T' :: (wall ++ offset))
    let utc := zonedTimeToUTC parsed
    if (toString (utcDate utc).year).length = 4 then some utc else none

def twoDigits (n : Nat) : List Char := pad 2 (Nat.toDigits 10 n)

/-- Hours, minutes and seconds. -/
def clockFields (micros : Nat) : List Char :=
  twoDigits (micros / 3600000000) ++ ':' :: (twoDigits (micros / 60000000 % 60) ++
    ':' :: twoDigits (micros / 1000000 % 60))

/-- The first six of the twelve places of a second. -/
def microFields (micros : Nat) : List Char := (pad 12 (Nat.toDigits 10 (micros % 1000000 * 1000000))).take 6

def formatClock (time : UTCTime) : List Char :=
  clockFields (utcMicros time) ++ '.' :: (microFields (utcMicros time) ++ ['Z'])

def formatTimestamp (time : UTCTime) : List Char :=
  (toString (utcDate time).year).toList ++ '-' :: (twoDigits (utcDate time).month ++
    '-' :: (twoDigits (utcDate time).day ++ 'T' :: formatClock time))

/-! ### Identifiers and hardware addresses -/

def uuid (input : List Char) : Option (List Char) :=
  let parts := input.splitOn '-'
  if parts.map List.length = [8, 4, 4, 4, 12] ∧ parts.all (·.all isHexDigit) then some (input.map Char.toLower)
  else none

/-- Six bytes, separated by colons or hyphens. -/
def mac (input : List Char) : Option (List Char) :=
  let parts := input.splitOn (if input.contains ':' then ':' else '-')
  if parts.length = 6 ∧ parts.all (fun part => part.length == 2 && part.all isHexDigit) then
    some (([':'].intercalate parts).map Char.toLower)
  else none

/-! ### Network addresses -/

/-- A byte without leading zeros. -/
def octet (part : List Char) : Option Nat :=
  if part.isEmpty || decide (3 < part.length) || !part.all Char.isDigit ||
      (decide (1 < part.length) && part.take 1 == ['0']) then none
  else if numeralValue 10 part ≤ 255 then some (numeralValue 10 part)
  else none

def ipv4 (input : List Char) : Option Nat :=
  let parts := input.splitOn '.'
  if parts.length = 4 then
    parts.foldl (fun sum part => (fun value number => value * 256 + number) <$> sum <*> octet part) (some 0)
  else none

/-- The parts between double colons. -/
def splitDouble : List Char → List (List Char)
  | [] => [[]]
  | [c] => [[c]]
  | c :: d :: rest =>
      if c = ':' ∧ d = ':' then [] :: splitDouble rest
      else match splitDouble (d :: rest) with
        | [] => [[c]]
        | part :: parts => (c :: part) :: parts

def hexGroup (part : List Char) : Option Nat :=
  if part.isEmpty || decide (4 < part.length) || !part.all isHexDigit then none
  else some (numeralValue 16 part)

/-- Groups of sixteen bits; the last part may be an IPv4 address, which makes two. -/
def expand : List (List Char) → Option (List Nat)
  | [] => some []
  | part :: rest =>
      if rest.isEmpty && part.contains '.' then do
        let value ← ipv4 part
        some [value / 65536, value % 65536]
      else do
        let value ← hexGroup part
        let values ← expand rest
        some (value :: values)

def groups (text : List Char) : Option (List Nat) := if text = [] then some [] else expand (text.splitOn ':')

/-- One double colon stands for the groups that are missing, one at least. -/
def words16 (input : List Char) : Option (List Nat) :=
  match splitDouble input with
  | [whole] => do
      let values ← groups whole
      if values.length = 8 then some values else none
  | [left, right] =>
      if left.contains '.' then none
      else do
        let leading ← groups left
        let trailing ← groups right
        if leading.length + trailing.length < 8 then
          some (leading ++ List.replicate (8 - leading.length - trailing.length) 0 ++ trailing)
        else none
  | _ => none

def ipv6 (input : List Char) : Option Nat :=
  (words16 input).map fun words => words.foldl (fun value part => value * 65536 + part) 0

/-- The number of bits of an address, and its value. -/
def address (input : List Char) : Option (Nat × Nat) :=
  if input.contains ':' then (ipv6 input).map fun value => (128, value)
  else (ipv4 input).map fun value => (32, value)

def renderAddress (bits value : Nat) : List Char :=
  if bits = 32 then
    ['.'].intercalate ([3, 2, 1, 0].map fun power => Nat.toDigits 10 (value / 256 ^ power % 256))
  else
    [':'].intercalate ([7, 6, 5, 4, 3, 2, 1, 0].map fun power => pad 4 (Nat.toDigits 16 (value / 65536 ^ power % 65536)))

/-- An address and the length of its network part, after which all bits are zero. -/
def network (input : List Char) : Option (List Char) :=
  match input.splitOn '/' with
  | [host, size] =>
      if !size.isEmpty && decide (size.length ≤ 3) && size.all Char.isDigit then do
        let found ← address host
        let shared := numeralValue 10 size
        if found.1 < shared ∨ found.2 % 2 ^ (found.1 - shared) ≠ 0 then none
        else some (renderAddress found.1 found.2 ++ '/' :: Nat.toDigits 10 shared)
      else none
  | _ => none

/-! ### Intervals -/

/-- At most eighteen digits. -/
def number : Reader Nat := do
  let found ← Reader.munch1 Char.isDigit
  if 18 < found.length then Reader.fail else pure (numeralValue 10 found)

/-- A number with its unit, which may be left out. -/
def component (unit : Char) : Reader (Option Nat) := Reader.option none do
  let n ← number
  let _ ← Reader.char unit
  pure (some n)

def secondsPart : Reader (Option Nat) := Reader.option none do
  let whole ← number
  let fraction ← Reader.option [] do
    let _ ← Reader.char '.'
    Reader.munch1 Char.isDigit
  if 6 < fraction.length then Reader.fail
  else do
    let _ ← Reader.char 'S'
    pure (some (whole * 1000000 + numeralValue 10 ((fraction ++ List.replicate 6 '0').take 6)))

def amount (field : Option Nat) : Nat := field.getD 0

/-- Hours, minutes and seconds, one of them at least, in microseconds. -/
def clockParts : Reader Nat := do
  let hours ← component 'H'
  let minutes ← component 'M'
  let seconds ← secondsPart
  if hours.isSome || minutes.isSome || seconds.isSome then
    pure ((amount hours * 3600 + amount minutes * 60) * 1000000 + amount seconds)
  else Reader.fail

/-- Months, and days with a time, as they are stored. -/
def renderInterval (negative : Bool) (calendar micros : Nat) : List Char :=
  (if negative then ['-'] else []) ++ 'P' :: (Nat.toDigits 10 calendar ++ 'M' ::
    (Nat.toDigits 10 (micros / dayMicros) ++ 'D' :: 'T' :: (Nat.toDigits 10 (micros % dayMicros / 1000000) ++
      '.' :: (pad 6 (Nat.toDigits 10 (micros % dayMicros % 1000000)) ++ ['S']))))

def durationText : Reader (List Char) := do
  let sign ← Reader.option [] do
    let c ← Reader.satisfy fun c => c == '+' || c == '-'
    pure [c]
  let _ ← Reader.char 'P'
  let years ← component 'Y'
  let months ← component 'M'
  let weeks ← component 'W'
  let days ← component 'D'
  let time ← Reader.option none do
    let _ ← Reader.char 'T'
    let parts ← clockParts
    pure (some parts)
  if !(years.isSome || months.isSome || weeks.isSome || days.isSome) && time.isNone then Reader.fail
  else if weeks.isSome && (years.isSome || months.isSome || days.isSome || time.isSome) then Reader.fail
  else
    let calendar := amount years * 12 + amount months
    let micros := amount weeks * 7 * dayMicros + amount days * dayMicros + amount time
    let negative := sign == ['-'] && (decide (calendar ≠ 0) || decide (micros ≠ 0))
    pure (renderInterval negative calendar micros)

def duration (input : List Char) : Option (List Char) := Reader.unique durationText input

/-! ### JSON documents -/

/-- A decimal number, as it was written. -/
structure Scientific where
  coefficient : Int
  exponent : Int
  deriving DecidableEq

/-- Divide by ten as long as nothing is left, so many times at most. -/
def stripZeros : Nat → Int → Int → Scientific
  | 0, coefficient, exponent => ⟨coefficient, exponent⟩
  | fuel + 1, coefficient, exponent =>
      if coefficient.tmod 10 = 0 then stripZeros fuel (coefficient.tdiv 10) (exponent + 1) else ⟨coefficient, exponent⟩

def Scientific.normalize (number : Scientific) : Scientific :=
  if number.coefficient = 0 then ⟨0, 0⟩ else stripZeros number.coefficient.natAbs number.coefficient number.exponent

inductive Document where
  | null
  | bool (flag : Bool)
  | number (value : Scientific)
  | string (text : String)
  | array (items : List Document)
  | object (fields : List (String × Document))

mutual

/-- The keys of each object are distinct. -/
def Document.distinct : Document → Bool
  | .array items => distinctItems items
  | .object fields => decide (fields.map (·.1)).Nodup && distinctFields fields
  | _ => true

def distinctItems : List Document → Bool
  | [] => true
  | item :: items => item.distinct && distinctItems items

def distinctFields : List (String × Document) → Bool
  | [] => true
  | (_, value) :: fields => value.distinct && distinctFields fields

end

/-- What the JSON library does: it reads documents, in the fields of whose objects it keeps
the last of each key, and writes texts and numbers. -/
class Aeson where
  decode : String → Option { document : Document // document.distinct = true }
  text : String → List Char
  number : Scientific → List Char

section Json

variable [Aeson]

mutual

/-- The text of a document, with its fields sorted and its numbers in their normal form. -/
def encodeJSON : Document → List Char
  | .object fields =>
      '{' :: ([','].intercalate (((encodeFields fields).mergeSort fun a b => decide (a.1 ≤ b.1)).map fun field =>
        Aeson.text field.1 ++ ':' :: field.2) ++ ['}'])
  | .array items => '[' :: ([','].intercalate (encodeItems items) ++ [']'])
  | .number value => Aeson.number value.normalize
  | .string text => Aeson.text text
  | .bool flag => if flag then "true".toList else "false".toList
  | .null => "null".toList

def encodeItems : List Document → List (List Char)
  | [] => []
  | item :: items => encodeJSON item :: encodeItems items

def encodeFields : List (String × Document) → List (String × List Char)
  | [] => []
  | (key, value) :: fields => (key, encodeJSON value) :: encodeFields fields

end

def canonicalJSON (input : String) : Option (List Char) := (Aeson.decode input).map fun found => encodeJSON found.1

/-! ### The formats together -/

def scalarText (kind : ScalarType) (input : String) : Option (List Char) :=
  match kind with
  | .time => clock input.toList
  | .timeTZ => (zoned ("2000-01-02T".toList ++ input.toList)).map formatClock
  | .timestampTZ => (zoned input.toList).map formatTimestamp
  | .uuid => uuid input.toList
  | .json => canonicalJSON input
  | .inet => (address input.toList).map fun found => renderAddress found.1 found.2
  | .cidr => network input.toList
  | .mac => mac input.toList
  | .interval => duration input.toList

/-- The text that a scalar is stored as, which decides equality and hashing. -/
def normalizeScalar (kind : ScalarType) (input : String) : Except String String :=
  match scalarText kind input with
  | some text => .ok (String.ofList text)
  | none => .error ("invalid " ++ scalarName kind ++ " value")

/-- The scalar formats of a host. -/
@[reducible]
def scalarHost (host : Host) : Host := { host with normalizeScalar := normalizeScalar }

end Json

end ChuSQL.Model
