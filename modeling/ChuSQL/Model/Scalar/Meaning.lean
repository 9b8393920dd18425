import ChuSQL.Model.Scalar.Addresses
import ChuSQL.Model.Scalar.Intervals
import ChuSQL.Model.Scalar.Json

/-! What the texts of the scalar formats denote, and that canonical texts decide equality and
order of what they denote. -/

set_option autoImplicit false

namespace ChuSQL.Model

open Library

inductive Meaning where
  /-- Microseconds of the day, in UTC where there is an offset. -/
  | time (micros : Nat)
  | instant (micros : Int)
  /-- The digits of a UUID or of a hardware address. -/
  | number (n : Nat)
  | json (value : JsonValue)
  | address (bits value : Nat)
  | network (bits value shared : Nat)
  | interval (months micros : Int)

/-- The order of times and of numbers. -/
def Meaning.Before : Meaning → Meaning → Prop
  | time one, time other => one < other
  | instant one, instant other => one < other
  | number one, number other => one < other
  | _, _ => False

/-- Canonical texts of values that are ordered as their texts. -/
theorem text_decides {Value : Type} [LinearOrder Value] {text : Value → List Char} {one other : Value}
    (up : one < other → text one < text other) (down : other < one → text other < text one) :
    (text one = text other ↔ one = other) ∧ (text one < text other ↔ one < other) := by
  obtain less | same | more := lt_trichotomy one other
  · exact ⟨iff_of_false (up less).ne less.ne, iff_of_true (up less) less⟩
  · subst same
    simp
  · exact ⟨iff_of_false (down more).ne' more.ne', iff_of_false (down more).asymm more.asymm⟩

section Means

variable [Aeson]

/-- What a text denotes. -/
def Means (kind : ScalarType) (input : String) (meaning : Meaning) : Prop :=
  match kind with
  | .time => ∃ micros, readClock input.toList = some micros ∧ meaning = .time micros
  | .timeTZ => ∃ time, zoned ("2000-01-02T".toList ++ input.toList) = some time ∧ meaning = .time (utcMicros time)
  | .timestampTZ => ∃ time, zoned input.toList = some time ∧ meaning = .instant time
  | .uuid => meaning = .number (hexNumber input.toList)
  | .json => ∃ document, Aeson.decode input = some document ∧ meaning = .json document.1.value
  | .inet => ∃ found, address input.toList = some found ∧ meaning = .address found.1 found.2
  | .cidr => ∃ host size found, input.toList.splitOn '/' = [host, size] ∧ address host = some found ∧
      meaning = .network found.1 found.2 (numeralValue 10 size)
  | .mac => meaning = .number (hexNumber input.toList)
  | .interval => ∃ fields : IntervalFields, fields.text = input.toList ∧
      meaning = .interval fields.signedMonths fields.signedMicros

theorem normalizeScalar_some {kind : ScalarType} {input output : String} (normal : normalizeScalar kind input = .ok output) :
    ∃ text, scalarText kind input = some text ∧ output = String.ofList text := by
  rw [normalizeScalar] at normal
  split at normal
  · cases normal
    exact ⟨_, ‹_›, rfl⟩
  · cases normal

/-- The canonical text of a value. -/
def CanonicalText (kind : ScalarType) (meaning : Meaning) (text : List Char) : Prop :=
  match kind with
  | .time => ∃ micros < dayMicros, meaning = .time micros ∧ text = clockText micros
  | .timeTZ => ∃ micros < dayMicros, meaning = .time micros ∧ text = clockText micros ++ ['Z']
  | .timestampTZ => ∃ time, fourDigits (utcDate time).year ∧ meaning = .instant time ∧ text = formatTimestamp time
  | .uuid => ∃ n < 16 ^ 32, meaning = .number n ∧ text = uuidText n
  | .json => ∃ input document, ReadsBack input ∧ Aeson.decode input = some document ∧
      meaning = .json document.1.value ∧ text = encodeJSON document.1
  | .inet => ∃ bits value, (bits = 32 ∨ bits = 128) ∧ value < 2 ^ bits ∧ meaning = .address bits value ∧
      text = renderAddress bits value
  | .cidr => ∃ bits value shared, (bits = 32 ∨ bits = 128) ∧ value < 2 ^ bits ∧ shared ≤ bits ∧
      value % 2 ^ (bits - shared) = 0 ∧ meaning = .network bits value shared ∧ text = renderAddress bits value ++ '/' :: Nat.toDigits 10 shared
  | .mac => ∃ n < 16 ^ 12, meaning = .number n ∧ text = macText n
  | .interval => ∃ fields : IntervalFields, meaning = .interval fields.signedMonths fields.signedMicros ∧
      text = fields.stored

/-- An accepted text denotes one value, and its canonical text is the one of the value. -/
theorem means_canonical {kind : ScalarType} {input : String} {text : List Char} (reads : kind = .json → ReadsBack input)
    (normal : scalarText kind input = some text) :
    ∃ meaning, (∀ other, Means kind input other ↔ other = meaning) ∧ CanonicalText kind meaning text := by
  cases kind with
  | time =>
      obtain ⟨fields, same, rfl⟩ := clock_some normal
      refine ⟨.time fields.micros, fun other => ?_, fields.micros, fields.micros_lt, rfl, rfl⟩
      simp [Means, ← same, fields.readClock_text]
  | timeTZ =>
      obtain ⟨time, found, rfl⟩ := Option.map_eq_some_iff.mp normal
      refine ⟨.time (utcMicros time), fun other => ?_, utcMicros time, (parts_of_utc time).2.1, rfl, formatClock_eq time⟩
      rw [Means, found]
      simp
  | timestampTZ =>
      obtain ⟨time, found, rfl⟩ := Option.map_eq_some_iff.mp normal
      refine ⟨.instant time, fun other => ?_, time, zoned_some found, rfl, rfl⟩
      simp [Means, found]
  | uuid =>
      obtain ⟨bound, same⟩ := uuid_some normal
      exact ⟨.number (hexNumber input.toList), fun other => Iff.rfl, hexNumber input.toList, bound, rfl, same⟩
  | json =>
      obtain ⟨document, found, rfl⟩ := Option.map_eq_some_iff.mp normal
      refine ⟨.json document.1.value, fun other => ?_, input, document, reads rfl, found, rfl, rfl⟩
      simp [Means, found]
  | inet =>
      obtain ⟨found, reading, rfl⟩ := Option.map_eq_some_iff.mp normal
      obtain ⟨known, bound⟩ := address_bound reading
      refine ⟨.address found.1 found.2, fun other => ?_, found.1, found.2, known, bound, rfl, rfl⟩
      simp [Means, reading]
  | cidr =>
      obtain ⟨host, size, bits, value, parts, reading, fits, zero, rfl⟩ := network_some normal
      obtain ⟨known, bound⟩ := address_bound reading
      refine ⟨.network bits value (numeralValue 10 size), fun other => ?_, bits, value, _, known, bound, fits, zero, rfl, rfl⟩
      simp [Means, parts, reading]
  | mac =>
      obtain ⟨bound, same⟩ := mac_some normal
      exact ⟨.number (hexNumber input.toList), fun other => Iff.rfl, hexNumber input.toList, bound, rfl, same⟩
  | interval =>
      obtain ⟨fields, same, rfl⟩ := duration_some normal
      refine ⟨.interval fields.signedMonths fields.signedMicros, fun other => ?_, fields, rfl, rfl⟩
      constructor
      · intro denoted
        obtain ⟨second, again, rfl⟩ := denoted
        have stored : second.stored = fields.stored := by
          have first := fields.duration_text
          rw [same, ← again, second.duration_text] at first
          exact Option.some.inj first
        rw [((IntervalFields.stored_eq_iff second fields).mp stored).1,
          ((IntervalFields.stored_eq_iff second fields).mp stored).2]
      · intro same'
        exact ⟨fields, same, same'⟩

/-- The canonical texts of two values are the same, or one is smaller, as the values are. -/
theorem canonicalText_decides {kind : ScalarType} {one other : Meaning} {text second : List Char} (first : CanonicalText kind one text)
    (next : CanonicalText kind other second) :
    (text = second ↔ one = other) ∧ (scalarOrdering kind = true → (text < second ↔ one.Before other)) := by
  cases kind with
  | time =>
      obtain ⟨m, small, rfl, rfl⟩ := first
      obtain ⟨n, bound, rfl, rfl⟩ := next
      have decides := @text_decides _ _ clockText m n (fun less => clockText_lt less bound) fun less => clockText_lt less small
      exact ⟨by simpa using decides.1, fun _ => decides.2⟩
  | timeTZ =>
      obtain ⟨m, small, rfl, rfl⟩ := first
      obtain ⟨n, bound, rfl, rfl⟩ := next
      have size {one other : Nat} (left : one < dayMicros) (right : other < dayMicros) :
          (clockText one).length = (clockText other).length := by
        rw [clockText_length left, clockText_length right]
      have decides := @text_decides _ _ (fun micros => clockText micros ++ ['Z']) m n
        (fun less => append_lt_append (clockText_lt less bound) (size small bound) _ _)
        fun less => append_lt_append (clockText_lt less small) (size bound small) _ _
      exact ⟨by simpa using decides.1, fun _ => decides.2⟩
  | timestampTZ =>
      obtain ⟨m, small, rfl, rfl⟩ := first
      obtain ⟨n, bound, rfl, rfl⟩ := next
      have decides := @text_decides Int _ formatTimestamp m n (fun less => formatTimestamp_lt small bound less)
        fun less => formatTimestamp_lt bound small less
      exact ⟨by simpa using decides.1, fun _ => decides.2⟩
  | uuid =>
      obtain ⟨m, small, one, front⟩ := first
      obtain ⟨n, bound, two, rear⟩ := next
      rw [front, rear, one, two]
      have decides := @text_decides _ _ uuidText m n (fun less => grouped_lt less bound) fun less => grouped_lt less small
      exact ⟨by simpa using decides.1, fun _ => decides.2⟩
  | json =>
      obtain ⟨input, document, reads, decoded, rfl, rfl⟩ := first
      obtain ⟨again, later, readsToo, found, rfl, rfl⟩ := next
      refine ⟨?_, fun ordered => by cases ordered⟩
      rw [encodeJSON_eq_iff reads readsToo decoded found, Meaning.json.injEq]
  | inet =>
      obtain ⟨bits, value, known, bound, rfl, rfl⟩ := first
      obtain ⟨width, number, knownToo, small, rfl, rfl⟩ := next
      refine ⟨?_, fun ordered => by cases ordered⟩
      constructor
      · intro same
        have reads := address_render known bound
        rw [same, address_render knownToo small, Option.some.injEq, Prod.mk.injEq] at reads
        rw [reads.1, reads.2]
      · intro same
        cases same
        rfl
  | cidr =>
      obtain ⟨bits, value, shared, known, bound, _, _, rfl, rfl⟩ := first
      obtain ⟨width, number, part, knownToo, small, _, _, rfl, rfl⟩ := next
      refine ⟨?_, fun ordered => by cases ordered⟩
      constructor
      · intro same
        have parts := splitOn_network known value shared
        rw [same, splitOn_network knownToo number part, List.cons.injEq, List.cons.injEq] at parts
        have reads := address_render known bound
        rw [← parts.1, address_render knownToo small, Option.some.injEq, Prod.mk.injEq] at reads
        rw [reads.1, reads.2, toDigits_injective parts.2.1]
      · intro same
        cases same
        rfl
  | mac =>
      obtain ⟨m, small, one, front⟩ := first
      obtain ⟨n, bound, two, rear⟩ := next
      rw [front, rear, one, two]
      have decides := @text_decides _ _ macText m n (fun less => grouped_lt less bound) fun less => grouped_lt less small
      exact ⟨by simpa using decides.1, fun _ => decides.2⟩
  | interval =>
      obtain ⟨fields, rfl, rfl⟩ := first
      obtain ⟨again, rfl, rfl⟩ := next
      refine ⟨?_, fun ordered => by cases ordered⟩
      rw [IntervalFields.stored_eq_iff, Meaning.interval.injEq]

/-- Canonical texts decide equality and order of what is denoted; every address that is
written is read back, and a network is accepted exactly when its host bits are zero. -/
theorem canonical_decides (kind : ScalarType) (x y s t : String) (reads : kind = .json → ReadsBack x ∧ ReadsBack y)
    (first : normalizeScalar kind x = .ok s) (next : normalizeScalar kind y = .ok t) :
    ((∃ a, Means kind x a) ∧ (∃ b, Means kind y b) ∧
      ∀ a b, Means kind x a → Means kind y b →
        (s = t ↔ a = b) ∧ (scalarOrdering kind = true → (s < t ↔ a.Before b))) ∧
    (∀ bits value, bits = 32 ∨ bits = 128 → value < 2 ^ bits →
      address (renderAddress bits value) = some (bits, value)) ∧
    ∀ host size : List Char, ∀ input : String, ∀ bits value : Nat, input.toList.splitOn '/' = [host, size] →
      size ≠ [] → size.length ≤ 3 → (∀ c ∈ size, c.isDigit = true) → address host = some (bits, value) →
        ((∃ text, normalizeScalar .cidr input = .ok text) ↔
          numeralValue 10 size ≤ bits ∧ value % 2 ^ (bits - numeralValue 10 size) = 0) := by
  refine ⟨?_, fun bits value known bound => address_render known bound, ?_⟩
  · obtain ⟨text, reading, rfl⟩ := normalizeScalar_some first
    obtain ⟨second, again, rfl⟩ := normalizeScalar_some next
    obtain ⟨a, denoted, writes⟩ := means_canonical (fun json => (reads json).1) reading
    obtain ⟨b, meant, written⟩ := means_canonical (fun json => (reads json).2) again
    refine ⟨⟨a, (denoted a).mpr rfl⟩, ⟨b, (meant b).mpr rfl⟩, fun one other left right => ?_⟩
    rw [(denoted one).mp left, (meant other).mp right, String.ofList_inj, String.lt_iff, String.toList_ofList,
      String.toList_ofList]
    exact canonicalText_decides writes written
  · intro host size input bits value parts full short digit reading
    have accepted := network_parts parts full short digit reading
    constructor
    · intro normal
      obtain ⟨output, normal⟩ := normal
      obtain ⟨text, found, _⟩ := normalizeScalar_some normal
      rw [scalarText, accepted] at found
      exact (Option.ite_none_right_eq_some.mp found).1
    · intro zero
      rw [if_pos zero] at accepted
      exact ⟨_, by rw [normalizeScalar, scalarText, accepted]⟩


end Means

/-- A JSON library that knows one document, with white space around it or without. -/
@[reducible]
def literalAeson : Aeson where
  decode text := if text = "true" ∨ text = " true " then some ⟨.bool true, rfl⟩ else none
  text text := '"' :: (text.toList ++ ['"'])
  number value := (toString value.coefficient).toList

theorem literal_readsBack {input : String} (known : input = "true" ∨ input = " true ") : @ReadsBack literalAeson input := by
  intro document decoded
  have same : document = ⟨.bool true, rfl⟩ := by
    change (if input = "true" ∨ input = " true " then some ⟨.bool true, rfl⟩ else none) = some document at decoded
    rw [if_pos known, Option.some.injEq] at decoded
    exact decoded.symm
  subst same
  exact ⟨⟨.bool true, rfl⟩, rfl, rfl⟩

/-- White space does not count. -/
theorem canonical_true :
    ("true" = "true" ↔ Meaning.json (.bool true) = .json (.bool true)) ∧ address "10.0.0.1".toList = some (32, 167772161) := by
  have whole := @canonical_decides literalAeson .json "true" " true " "true" "true"
    (fun _ => ⟨literal_readsBack (.inl rfl), literal_readsBack (.inr rfl)⟩) rfl rfl
  have pair := whole.1.2.2 (.json (.bool true)) (.json (.bool true)) ⟨⟨.bool true, rfl⟩, rfl, rfl⟩
    ⟨⟨.bool true, rfl⟩, rfl, rfl⟩
  exact ⟨pair.1, whole.2.1 32 167772161 (.inl rfl) (by decide)⟩

end ChuSQL.Model
