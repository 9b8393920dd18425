import Mathlib.Data.List.Basic
import Mathlib.Data.List.Induction
import Mathlib.Tactic.IntervalCases
import Mathlib.Tactic.Ring

/-! Positional numerals: what a row of digits stands for, the numeral of a given width, and
that numerals of one width are ordered as texts the way their numbers are. -/

set_option autoImplicit false

namespace Library

def digitValue (c : Char) : Nat :=
  if c.isDigit then c.toNat - 48
  else if 'a' ≤ c ∧ c ≤ 'f' then c.toNat - 87
  else if 'A' ≤ c ∧ c ≤ 'F' then c.toNat - 55
  else 0

def isHexDigit (c : Char) : Bool :=
  c.isDigit || (decide ('a' ≤ c) && decide (c ≤ 'f')) || (decide ('A' ≤ c) && decide (c ≤ 'F'))

/-- The number that a row of figures stands for. -/
def positional (base : Nat) (figures : List Nat) : Nat := figures.foldl (fun sum figure => sum * base + figure) 0

def numeralValue (base : Nat) (text : List Char) : Nat := positional base (text.map digitValue)

/-- The last digits of a number, of a given count. -/
def numeral (base : Nat) : Nat → Nat → List Char
  | 0, _ => []
  | width + 1, n => numeral base width (n / base) ++ [Nat.digitChar (n % base)]

/-! ### Values -/

theorem positional_append (base : Nat) (high low : List Nat) :
    positional base (high ++ low) = positional base high * base ^ low.length + positional base low := by
  induction low using List.reverseRecOn with
  | nil => simp [positional]
  | append_singleton low last ih =>
      have step (figures : List Nat) : positional base (figures ++ [last]) = positional base figures * base + last := by
        simp [positional]
      rw [← List.append_assoc, step, ih, step, List.length_append, List.length_singleton, pow_succ]
      ring

@[simp] theorem numeralValue_nil (base : Nat) : numeralValue base [] = 0 := rfl

theorem numeralValue_append (base : Nat) (high low : List Char) :
    numeralValue base (high ++ low) = numeralValue base high * base ^ low.length + numeralValue base low := by
  simp [numeralValue, positional_append]

@[simp] theorem numeralValue_singleton (base : Nat) (c : Char) : numeralValue base [c] = digitValue c := by
  simp [numeralValue, positional]

theorem positional_lt {base : Nat} {figures : List Nat} (small : ∀ figure ∈ figures, figure < base) :
    positional base figures < base ^ figures.length := by
  induction figures using List.reverseRecOn with
  | nil => simp [positional]
  | append_singleton figures last ih =>
      have high := ih fun figure member => small figure (List.mem_append_left _ member)
      have low : last < base := small last (by simp)
      have single : positional base [last] = last := by simp [positional]
      rw [positional_append, single, List.length_append, List.length_singleton, pow_one, pow_succ]
      calc positional base figures * base + last < positional base figures * base + base := by omega
        _ = (positional base figures + 1) * base := by ring
        _ ≤ base ^ figures.length * base := Nat.mul_le_mul_right base high

theorem numeralValue_lt {base : Nat} {text : List Char} (small : ∀ c ∈ text, digitValue c < base) :
    numeralValue base text < base ^ text.length := by
  have bound := @positional_lt base (text.map digitValue) (by simpa using small)
  rwa [List.length_map] at bound

theorem digitValue_digitChar {digit : Nat} (small : digit < 16) : digitValue (Nat.digitChar digit) = digit := by
  interval_cases digit <;> rfl

theorem isDigit_range {c : Char} (digit : c.isDigit = true) : 48 ≤ c.toNat ∧ c.toNat ≤ 57 := by
  rw [Char.isDigit, Bool.and_eq_true, decide_eq_true_eq, decide_eq_true_eq] at digit
  exact digit

theorem isHexDigit_range {c : Char} (digit : isHexDigit c = true) :
    (48 ≤ c.toNat ∧ c.toNat ≤ 57) ∨ (97 ≤ c.toNat ∧ c.toNat ≤ 102) ∨ (65 ≤ c.toNat ∧ c.toNat ≤ 70) := by
  simp only [isHexDigit, Bool.or_eq_true, Bool.and_eq_true, decide_eq_true_eq] at digit
  cases digit with
  | inl digit =>
      cases digit with
      | inl decimal => exact .inl (isDigit_range decimal)
      | inr lower => exact .inr (.inl lower)
  | inr upper => exact .inr (.inr upper)

/-- A character with one of finitely many codes has what all of these have. -/
theorem char_of_range {P : Char → Prop} {c : Char} {low high : Nat} (lower : low ≤ c.toNat) (upper : c.toNat ≤ high)
    (holds : ∀ code, low ≤ code → code ≤ high → P (Char.ofNat code)) : P c :=
  Char.ofNat_toNat c ▸ holds c.toNat lower upper

theorem isDigit_value {c : Char} (digit : c.isDigit = true) :
    digitValue c < 10 ∧ Nat.digitChar (digitValue c) = c := by
  obtain ⟨lower, upper⟩ := isDigit_range digit
  apply char_of_range lower upper
  intro code lower upper
  interval_cases code <;> decide

/-- A digit in lower case is the digit of its value. -/
theorem isHexDigit_value {c : Char} (digit : isHexDigit c = true) :
    digitValue c < 16 ∧ Nat.digitChar (digitValue c) = c.toLower := by
  obtain ⟨lower, upper⟩ | ⟨lower, upper⟩ | ⟨lower, upper⟩ := isHexDigit_range digit
  all_goals
    apply char_of_range lower upper
    intro code lower upper
    interval_cases code <;> decide

theorem isDigit_digitChar {digit : Nat} (small : digit < 10) : (Nat.digitChar digit).isDigit = true := by
  interval_cases digit <;> rfl

theorem isHexDigit_digitChar {digit : Nat} (small : digit < 16) :
    isHexDigit (Nat.digitChar digit) = true ∧ (Nat.digitChar digit).toLower = Nat.digitChar digit := by
  interval_cases digit <;> decide

theorem digitChar_lt {small large : Nat} (less : small < large) (hex : large < 16) :
    Nat.digitChar small < Nat.digitChar large := by
  interval_cases large <;> interval_cases small <;> decide

/-! ### Numerals of a given width -/

section Width

variable {base : Nat}

@[simp] theorem numeral_length (width n : Nat) : (numeral base width n).length = width := by
  induction width generalizing n with
  | zero => rfl
  | succ width ih => simp [numeral, ih]

theorem numeral_digits (positive : 0 < base) (width n : Nat) :
    ∀ c ∈ numeral base width n, ∃ digit < base, c = Nat.digitChar digit := by
  induction width generalizing n with
  | zero => simp [numeral]
  | succ width ih =>
      intro c member
      rw [numeral, List.mem_append, List.mem_singleton] at member
      cases member with
      | inl high => exact ih _ c high
      | inr last => exact ⟨n % base, Nat.mod_lt _ positive, last⟩

theorem numeralValue_numeral (positive : 0 < base) (hex : base ≤ 16) {width n : Nat} (small : n < base ^ width) :
    numeralValue base (numeral base width n) = n := by
  induction width generalizing n with
  | zero =>
      rw [pow_zero] at small
      simp [numeral]
      omega
  | succ width ih =>
      have digit : n % base < 16 := (Nat.mod_lt _ positive).trans_le hex
      rw [numeral, numeralValue_append, numeralValue_singleton, digitValue_digitChar digit, List.length_singleton,
        pow_one, ih (Nat.div_lt_of_lt_mul (by rwa [pow_succ, Nat.mul_comm] at small)), Nat.div_add_mod']

/-- Digits in their usual form are the numeral of their value. -/
theorem numeral_value {text : List Char}
    (plain : ∀ c ∈ text, digitValue c < base ∧ Nat.digitChar (digitValue c) = c) :
    numeral base text.length (numeralValue base text) = text := by
  induction text using List.reverseRecOn with
  | nil => rfl
  | append_singleton text last ih =>
      have digit := plain last (by simp)
      have high := ih fun c member => plain c (List.mem_append_left _ member)
      rw [List.length_append, List.length_singleton, numeral, numeralValue_append, numeralValue_singleton,
        List.length_singleton, pow_one, Nat.mul_comm, Nat.mul_add_mod, Nat.mod_eq_of_lt digit.1, digit.2,
        Nat.mul_add_div (by omega), Nat.div_eq_of_lt digit.1, Nat.add_zero, high]

theorem numeral_add (high low n : Nat) :
    numeral base (high + low) n = numeral base high (n / base ^ low) ++ numeral base low n := by
  induction low generalizing n with
  | zero => simp [numeral]
  | succ low ih =>
      rw [← Nat.add_assoc, numeral, ih, numeral, List.append_assoc, Nat.div_div_eq_div_mul, pow_succ, Nat.mul_comm base]

@[simp] theorem numeral_zero (width : Nat) : numeral base width 0 = List.replicate width '0' := by
  induction width with
  | zero => rfl
  | succ width ih =>
      rw [numeral, Nat.zero_div, Nat.zero_mod, ih]
      exact List.replicate_succ'.symm

/-- The last digits do not depend on what stands in front of them. -/
theorem numeral_mod (width n : Nat) : numeral base width (n % base ^ width) = numeral base width n := by
  induction width generalizing n with
  | zero => rfl
  | succ width ih =>
      rw [numeral, numeral, pow_succ, Nat.mul_comm, Nat.mod_mul_right_div_self, ih, Nat.mod_mul_right_mod]

/-! ### The shortest numeral -/

/-- Zeros in front, up to a width. -/
def pad (width : Nat) (text : List Char) : List Char := List.replicate (width - text.length) '0' ++ text

theorem pad_concat (width : Nat) (text : List Char) (c : Char) : pad (width + 1) (text ++ [c]) = pad width text ++ [c] := by
  simp [pad]

theorem pad_toDigits (positive : 1 < base) {width n : Nat} (wide : 0 < width) (small : n < base ^ width) :
    pad width (Nat.toDigits base n) = numeral base width n := by
  induction width generalizing n with
  | zero => omega
  | succ width ih =>
      by_cases single : n < base
      · rw [Nat.toDigits_of_lt_base single, ← List.nil_append [_], pad_concat, numeral, Nat.div_eq_of_lt single,
          Nat.mod_eq_of_lt single, numeral_zero]
        simp [pad]
      · have inner : n / base < base ^ width := Nat.div_lt_of_lt_mul (by rwa [pow_succ, Nat.mul_comm] at small)
        have wide : 0 < width := by
          cases width with
          | zero =>
              simp at small
              omega
          | succ width => omega
        rw [Nat.toDigits_of_base_le positive (by omega), pad_concat, ih wide inner, numeral]

theorem numeralValue_toDigits (positive : 1 < base) (hex : base ≤ 16) (n : Nat) :
    numeralValue base (Nat.toDigits base n) = n := by
  induction n using Nat.strong_induction_on with
  | _ n ih =>
      by_cases single : n < base
      · rw [Nat.toDigits_of_lt_base single, numeralValue_singleton, digitValue_digitChar (by omega)]
      · have digit : n % base < base := Nat.mod_lt n (by omega)
        have less : n / base < n := Nat.div_lt_self (by omega) positive
        rw [Nat.toDigits_of_base_le positive (by omega), numeralValue_append, numeralValue_singleton,
          digitValue_digitChar (by omega), ih _ less, List.length_singleton, pow_one, Nat.div_add_mod']

/-! ### Order -/

/-- The front decides between texts with fronts of one length. -/
theorem append_lt_append {first second : List Char} (less : first < second) (size : first.length = second.length)
    (one other : List Char) : first ++ one < second ++ other := by
  induction first generalizing second with
  | nil =>
      cases second with
      | nil => cases less
      | cons => cases size
  | cons c first ih =>
      cases second with
      | nil => cases size
      | cons d second =>
          rw [List.cons_append, List.cons_append, List.cons_lt_cons_iff]
          cases List.cons_lt_cons_iff.mp less with
          | inl head => exact .inl head
          | inr tail => exact .inr ⟨tail.1, ih tail.2 (Nat.succ.inj size)⟩

theorem numeral_lt (positive : 0 < base) (hex : base ≤ 16) {width small large : Nat} (less : small < large)
    (bound : large < base ^ width) : numeral base width small < numeral base width large := by
  induction width generalizing small large with
  | zero => simp at bound; omega
  | succ width ih =>
      rw [numeral, numeral]
      by_cases high : small / base < large / base
      · apply append_lt_append (ih high (Nat.div_lt_of_lt_mul (by rwa [pow_succ, Nat.mul_comm] at bound)))
        simp
      · have same : small / base = large / base := by
          have := Nat.div_le_div_right (c := base) less.le
          omega
        have digit : small % base < large % base := by
          have one := Nat.div_add_mod small base
          have other := Nat.div_add_mod large base
          rw [same] at one
          omega
        rw [same]
        apply List.append_left_lt
        exact List.cons_lt_cons_iff.mpr (.inl (digitChar_lt digit ((Nat.mod_lt _ positive).trans_le hex)))

/-- A text in two parts, of a quotient and a remainder, is ordered as the number is when the
parts are. -/
theorem quotient_lt {low small large : Nat} {front rear : Nat → List Char}
    (size : (front (small / low)).length = (front (large / low)).length)
    (fronts : small / low < large / low → front (small / low) < front (large / low))
    (rears : small % low < large % low → rear (small % low) < rear (large % low)) (less : small < large) :
    front (small / low) ++ rear (small % low) < front (large / low) ++ rear (large % low) := by
  by_cases high : small / low < large / low
  · exact append_lt_append (fronts high) size _ _
  · have same : small / low = large / low := by
      have := Nat.div_le_div_right (c := low) less.le
      omega
    have rest : small % low < large % low := by
      have one := Nat.div_add_mod small low
      have other := Nat.div_add_mod large low
      rw [same] at one
      omega
    rw [same]
    exact List.append_left_lt (rears rest)

end Width

/-! ### Digits in groups -/

/-- A text cut into parts of given widths. -/
def chunks : List Nat → List Char → List (List Char)
  | [], _ => []
  | width :: widths, text => text.take width :: chunks widths (text.drop width)

theorem chunks_flatten {widths : List Nat} {text : List Char} (size : text.length = widths.sum) :
    (chunks widths text).flatten = text := by
  induction widths generalizing text with
  | nil => simpa [chunks] using (List.length_eq_zero_iff.mp size).symm
  | cons width widths ih =>
      rw [chunks, List.flatten_cons, ih (by simp [size]), List.take_append_drop]

theorem chunks_of_parts (parts : List (List Char)) : chunks (parts.map List.length) parts.flatten = parts := by
  induction parts with
  | nil => rfl
  | cons part parts ih => rw [List.map_cons, List.flatten_cons, chunks, List.take_left, List.drop_left, ih]

theorem chunks_length {widths : List Nat} {text : List Char} (size : text.length = widths.sum) :
    (chunks widths text).map List.length = widths := by
  induction widths generalizing text with
  | nil => rfl
  | cons width widths ih =>
      rw [chunks, List.map_cons, ih (by simp [size]), List.length_take, size, List.sum_cons,
        Nat.min_eq_left (Nat.le_add_right _ _)]

theorem mem_of_mem_chunks {widths : List Nat} {text part : List Char} (member : part ∈ chunks widths text) :
    ∀ c ∈ part, c ∈ text := by
  induction widths generalizing text with
  | nil => cases member
  | cons width widths ih =>
      intro c inside
      cases List.mem_cons.mp member with
      | inl first => exact List.mem_of_mem_take (first ▸ inside)
      | inr rest => exact List.mem_of_mem_drop (ih rest c inside)

/-- Groups of one width are the digits of the number in a larger base. -/
theorem chunks_numeral (base width count n : Nat) :
    chunks (List.replicate count width) (numeral base (count * width) n) =
      (List.range count).reverse.map fun power => numeral base width (n / (base ^ width) ^ power) := by
  induction count with
  | zero => rfl
  | succ count ih =>
      rw [List.replicate_succ, Nat.succ_mul, Nat.add_comm, chunks, numeral_add, List.take_left' (numeral_length _ _),
        List.drop_left' (numeral_length _ _), ih, List.range_succ, List.reverse_append, List.reverse_singleton,
        List.singleton_append, List.map_cons, Nat.mul_comm, pow_mul]

theorem lt_of_append_lt {first second one other : List Char} (size : first.length = second.length)
    (less : first ++ one < second ++ other) : first < second ∨ (first = second ∧ one < other) := by
  induction first generalizing second with
  | nil =>
      rw [List.eq_nil_of_length_eq_zero size.symm] at less ⊢
      exact .inr ⟨rfl, less⟩
  | cons c first ih =>
      cases second with
      | nil => cases size
      | cons d second =>
          rw [List.cons_append, List.cons_append, List.cons_lt_cons_iff] at less
          rw [List.cons_lt_cons_iff]
          cases less with
          | inl head => exact .inl (.inl head)
          | inr tail =>
              obtain ⟨same, rest⟩ := tail
              subst same
              cases ih (Nat.succ.inj size) rest with
              | inl front => exact .inl (.inr ⟨rfl, front⟩)
              | inr after => exact .inr ⟨congrArg _ after.1, after.2⟩

/-- Groups of one width are figures in a larger base. -/
theorem positional_groups {base width : Nat} {parts : List (List Char)} (size : ∀ part ∈ parts, part.length = width) :
    positional (base ^ width) (parts.map (numeralValue base)) = numeralValue base parts.flatten := by
  induction parts using List.reverseRecOn with
  | nil => rfl
  | append_singleton parts last ih =>
      rw [List.map_append, positional_append, ih fun part member => size part (List.mem_append_left _ member),
        List.flatten_append, numeralValue_append]
      simp [positional, size last (by simp)]

/-- Separators at fixed places keep the order. -/
theorem chunks_lt {widths : List Nat} {one other : List Char} (separator : Char) (left : one.length = widths.sum)
    (right : other.length = widths.sum) (less : one < other) :
    [separator].intercalate (chunks widths one) < [separator].intercalate (chunks widths other) := by
  induction widths generalizing one other with
  | nil =>
      rw [List.eq_nil_of_length_eq_zero left, List.eq_nil_of_length_eq_zero right] at less
      cases less
  | cons width widths ih =>
      rw [List.sum_cons] at left right
      have size : (one.take width).length = (other.take width).length := by simp [left, right]
      rw [← List.take_append_drop width one, ← List.take_append_drop width other] at less
      have front := lt_of_append_lt size less
      cases widths with
      | nil =>
          rw [List.sum_nil, Nat.add_zero] at left right
          rw [chunks, chunks, chunks, chunks, List.intercalate_singleton, List.intercalate_singleton]
          cases front with
          | inl early => exact early
          | inr late =>
              rw [List.drop_of_length_le left.le, List.drop_of_length_le right.le] at late
              cases late.2
      | cons next widths =>
          have step (text : List Char) : [separator].intercalate (chunks (width :: next :: widths) text) =
              text.take width ++ separator :: [separator].intercalate (chunks (next :: widths) (text.drop width)) := by
            simp [chunks]
          rw [step, step]
          cases front with
          | inl early => exact append_lt_append early size _ _
          | inr late =>
              rw [late.1]
              apply List.append_left_lt
              exact List.cons_lt_cons_self.mpr (ih (by simp [left]) (by simp [right]) late.2)

end Library
