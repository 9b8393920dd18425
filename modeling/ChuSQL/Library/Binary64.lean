import Mathlib.Data.Int.Log
import Mathlib.Data.Rat.Floor
import Mathlib.Tactic.Linarith
import Mathlib.Tactic.FieldSimp
import Mathlib.Algebra.Order.Field.Power
import Mathlib.Tactic.Positivity
import Mathlib.Tactic.NormNum

/-! Doubles: the numbers of the binary64 format, read as rationals, with rounding to
nearest, ties to even. -/

set_option autoImplicit false

namespace Library

/-! ### Rounding to an integer -/

/-- The nearest integer; halfway between two, the even one. -/
def roundEven (q : ℚ) : ℤ :=
  if q - ⌊q⌋ < 1 / 2 then ⌊q⌋
  else if 1 / 2 < q - ⌊q⌋ then ⌊q⌋ + 1
  else if ⌊q⌋ % 2 = 0 then ⌊q⌋ else ⌊q⌋ + 1

theorem floor_le_roundEven (q : ℚ) : ⌊q⌋ ≤ roundEven q := by
  rw [roundEven]
  split_ifs <;> omega

theorem roundEven_le_floor_succ (q : ℚ) : roundEven q ≤ ⌊q⌋ + 1 := by
  rw [roundEven]
  split_ifs <;> omega

@[simp]
theorem roundEven_intCast (n : ℤ) : roundEven n = n := by
  rw [roundEven, if_pos] <;> simp

theorem roundEven_mono {p q : ℚ} (below : p ≤ q) : roundEven p ≤ roundEven q := by
  cases (Int.floor_mono below).lt_or_eq with
  | inl less =>
      have first := roundEven_le_floor_succ p
      have second := floor_le_roundEven q
      omega
  | inr same =>
      have fractions : p - ⌊q⌋ ≤ q - ⌊q⌋ := by linarith
      simp only [roundEven, same]
      split_ifs <;> first | omega | linarith

theorem roundEven_neg (q : ℚ) : roundEven (-q) = -roundEven q := by
  by_cases whole : (⌊q⌋ : ℚ) = q
  · rw [← whole, ← Int.cast_neg, roundEven_intCast, roundEven_intCast]
  · have above : (⌊q⌋ : ℚ) < q := lt_of_le_of_ne (Int.floor_le q) whole
    have next := Int.lt_floor_add_one q
    have floor : ⌊-q⌋ = -⌊q⌋ - 1 := by
      rw [Int.floor_eq_iff]
      push_cast
      constructor <;> linarith
    simp only [roundEven, floor]
    push_cast
    split_ifs <;> first | omega | linarith

/-! ### Rounding to the format -/

/-- The exponent of the gap between the doubles around a number. -/
def exponent (q : ℚ) : ℤ := max (Int.log 2 |q| - 52) (-1074)

/-- The nearest number with a mantissa of 53 bits and an exponent of at least -1074. -/
def nearest (q : ℚ) : ℚ := roundEven (q / 2 ^ exponent q) * 2 ^ exponent q

def Representable (q : ℚ) : Prop :=
  ∃ mantissa power : ℤ, |mantissa| ≤ 2 ^ 53 ∧ -1074 ≤ power ∧ q = mantissa * 2 ^ power

@[simp]
theorem exponent_neg (q : ℚ) : exponent (-q) = exponent q := by rw [exponent, exponent, abs_neg]

theorem exponent_mono {p q : ℚ} (positive : 0 < p) (below : p ≤ q) : exponent p ≤ exponent q := by
  rw [exponent, exponent, abs_of_pos positive, abs_of_pos (positive.trans_le below)]
  exact max_le_max_right _ (Int.sub_le_sub_right (Int.log_mono_right positive below) _)

theorem abs_lt_of_exponent (q : ℚ) : |q| < 2 ^ (exponent q + 53) :=
  calc |q| < 2 ^ (Int.log 2 |q| + 1) := Int.lt_zpow_succ_log_self (by norm_num) _
    _ ≤ 2 ^ (exponent q + 53) := by
        refine zpow_le_zpow_right₀ (by norm_num) ?_
        rw [exponent]
        omega

theorem le_abs_of_exponent {q : ℚ} (nonzero : q ≠ 0) (normal : -1074 < exponent q) :
    2 ^ (exponent q + 52) ≤ |q| :=
  calc (2 : ℚ) ^ (exponent q + 52) ≤ 2 ^ Int.log 2 |q| :=
        zpow_le_zpow_right₀ (by norm_num) (by rw [exponent] at *; omega)
    _ ≤ |q| := Int.zpow_log_le_self (by norm_num) (abs_pos.mpr nonzero)

@[simp]
theorem nearest_zero : nearest 0 = 0 := by
  have rounded : roundEven 0 = 0 := roundEven_intCast 0
  simp [nearest, rounded]

@[simp]
theorem nearest_neg (q : ℚ) : nearest (-q) = -nearest q := by
  rw [nearest, nearest, exponent_neg, neg_div, roundEven_neg]
  push_cast
  ring

theorem nearest_of_grid {q : ℚ} (count : ℤ) (grid : q = count * 2 ^ exponent q) : nearest q = q := by
  have gap : (2 : ℚ) ^ exponent q ≠ 0 := by positivity
  have quotient : q / 2 ^ exponent q = count := (div_eq_iff gap).mpr grid
  rw [nearest, quotient, roundEven_intCast]
  exact grid.symm

/-- A multiple of a power of two at or above the gap is rounded to itself. -/
theorem nearest_of_multiple {mantissa power : ℤ} (wide : exponent (mantissa * 2 ^ power) ≤ power) :
    nearest (mantissa * 2 ^ power) = mantissa * 2 ^ power := by
  refine nearest_of_grid (mantissa * 2 ^ (power - exponent (mantissa * 2 ^ power)).toNat) ?_
  push_cast
  rw [mul_assoc, ← zpow_natCast, ← zpow_add₀ (by norm_num)]
  congr 2
  omega

theorem nearest_power {power : ℤ} (normal : -1074 ≤ power) : nearest (2 ^ power) = 2 ^ power := by
  have wide : exponent (((1 : ℤ) : ℚ) * 2 ^ power) ≤ power := by
    have log : Int.log 2 ((2 : ℚ) ^ power) = power := Int.log_zpow (by norm_num) power
    rw [Int.cast_one, one_mul, exponent, abs_of_pos (by positivity), log]
    omega
  have same := nearest_of_multiple wide
  rwa [Int.cast_one, one_mul] at same

theorem widest_mantissa (power : ℤ) : ((2 ^ 53 : ℤ) : ℚ) * 2 ^ power = 2 ^ (power + 53) := by
  rw [add_comm, zpow_add₀ (by norm_num)]
  norm_num

/-- A double is rounded to itself. -/
theorem Representable.nearest {q : ℚ} (held : Representable q) : nearest q = q := by
  obtain ⟨mantissa, power, small, normal, rfl⟩ := held
  by_cases wide : exponent (mantissa * 2 ^ power) ≤ power
  · exact nearest_of_multiple wide
  · -- only the largest mantissa reaches the next power of two
    by_cases zero : mantissa = 0
    · simp [zero]
    · have nonzero : (mantissa : ℚ) * 2 ^ power ≠ 0 :=
        mul_ne_zero (Int.cast_ne_zero.mpr zero) (by positivity)
      have large : (2 : ℚ) ^ (power + 53) ≤ |(mantissa : ℚ)| * 2 ^ power := by
        have reached := le_abs_of_exponent nonzero (by omega)
        rw [abs_mul, abs_of_pos (a := (2 : ℚ) ^ power) (by positivity)] at reached
        exact (zpow_le_zpow_right₀ (by norm_num) (by omega)).trans reached
      rw [add_comm, zpow_add₀ (by norm_num), mul_le_mul_iff_left₀ (by positivity), ← Int.cast_abs] at large
      have top : |mantissa| = 2 ^ 53 := le_antisymm small (by exact_mod_cast large)
      cases (abs_eq (by norm_num)).mp top with
      | inl positive => rw [positive, widest_mantissa, nearest_power (by omega)]
      | inr negative =>
          rw [negative, Int.cast_neg, neg_mul, widest_mantissa, nearest_neg, nearest_power (by omega)]

theorem roundEven_le {q : ℚ} {n : ℤ} (below : q ≤ n) : roundEven q ≤ n :=
  (roundEven_mono below).trans_eq (roundEven_intCast n)

theorem le_roundEven {q : ℚ} {n : ℤ} (above : n ≤ q) : n ≤ roundEven q :=
  (roundEven_intCast n).symm.trans_le (roundEven_mono above)

theorem nearest_le_power {q : ℚ} {power : ℤ} (below : q ≤ 2 ^ power) (wide : exponent q ≤ power) :
    nearest q ≤ 2 ^ power := by
  have steps : q / 2 ^ exponent q ≤ ((2 ^ (power - exponent q).toNat : ℤ) : ℚ) := by
    push_cast
    rw [div_le_iff₀ (by positivity), ← zpow_natCast, ← zpow_add₀ (by norm_num)]
    exact below.trans_eq (by congr 1; omega)
  calc nearest q ≤ ((2 ^ (power - exponent q).toNat : ℤ) : ℚ) * 2 ^ exponent q :=
        mul_le_mul_of_nonneg_right (Int.cast_le.mpr (roundEven_le steps)) (by positivity)
    _ = 2 ^ power := by
        push_cast
        rw [← zpow_natCast, ← zpow_add₀ (by norm_num)]
        congr 1
        omega

theorem power_le_nearest {q : ℚ} {power : ℤ} (above : 2 ^ power ≤ q) (wide : exponent q ≤ power) :
    2 ^ power ≤ nearest q := by
  have steps : ((2 ^ (power - exponent q).toNat : ℤ) : ℚ) ≤ q / 2 ^ exponent q := by
    push_cast
    rw [le_div_iff₀ (by positivity), ← zpow_natCast, ← zpow_add₀ (by norm_num)]
    exact above.trans_eq' (by congr 1; omega)
  calc (2 : ℚ) ^ power = ((2 ^ (power - exponent q).toNat : ℤ) : ℚ) * 2 ^ exponent q := by
        push_cast
        rw [← zpow_natCast, ← zpow_add₀ (by norm_num)]
        congr 1
        omega
    _ ≤ nearest q := mul_le_mul_of_nonneg_right (Int.cast_le.mpr (le_roundEven steps)) (by positivity)

private theorem nearest_mono_of_pos {p q : ℚ} (positive : 0 < p) (below : p ≤ q) :
    nearest p ≤ nearest q := by
  cases (exponent_mono positive below).lt_or_eq with
  | inl less =>
      -- a power of two lies between, and both sides keep to their side of it
      have normal : -1074 < exponent q := lt_of_le_of_lt (le_max_right _ _) less
      have first := abs_lt_of_exponent p
      have second := le_abs_of_exponent (positive.trans_le below).ne' normal
      rw [abs_of_pos positive] at first
      rw [abs_of_pos (positive.trans_le below)] at second
      have between : (2 : ℚ) ^ (exponent p + 53) ≤ 2 ^ (exponent q + 52) :=
        zpow_le_zpow_right₀ (by norm_num) (by omega)
      exact (nearest_le_power (first.le.trans between) (by omega)).trans (power_le_nearest second (by omega))
  | inr same =>
      rw [nearest, nearest, same]
      refine mul_le_mul_of_nonneg_right (Int.cast_le.mpr (roundEven_mono ?_)) (by positivity)
      exact div_le_div_of_nonneg_right below (by positivity)

theorem nearest_nonneg {q : ℚ} (positive : 0 ≤ q) : 0 ≤ nearest q :=
  mul_nonneg (Int.cast_nonneg (le_roundEven (by rw [Int.cast_zero]; positivity))) (by positivity)

theorem nearest_mono {p q : ℚ} (below : p ≤ q) : nearest p ≤ nearest q := by
  by_cases positive : 0 < p
  · exact nearest_mono_of_pos positive below
  · by_cases negative : q < 0
    · have flipped := nearest_mono_of_pos (neg_pos.mpr negative) (neg_le_neg below)
      rw [nearest_neg, nearest_neg] at flipped
      exact neg_le_neg_iff.mp flipped
    · have lower := nearest_nonneg (neg_nonneg.mpr (not_lt.mp positive))
      rw [nearest_neg] at lower
      exact (neg_nonneg.mp lower).trans (nearest_nonneg (not_lt.mp negative))

theorem representable_nearest (q : ℚ) : Representable (nearest q) := by
  refine ⟨roundEven (q / 2 ^ exponent q), exponent q, ?_, le_max_right _ _, rfl⟩
  have small : |q / 2 ^ exponent q| ≤ ((2 ^ 53 : ℤ) : ℚ) := by
    rw [abs_div, abs_of_pos (a := (2 : ℚ) ^ exponent q) (by positivity), div_le_iff₀ (by positivity),
      widest_mantissa]
    exact (abs_lt_of_exponent q).le
  rw [abs_le] at small ⊢
  rw [← Int.cast_neg] at small
  exact ⟨le_roundEven small.1, roundEven_le small.2⟩

theorem Representable.neg {q : ℚ} (held : Representable q) : Representable (-q) := by
  obtain ⟨mantissa, power, small, normal, rfl⟩ := held
  exact ⟨-mantissa, power, by rwa [abs_neg], normal, by push_cast; ring⟩

theorem Representable.abs {q : ℚ} (held : Representable q) : Representable |q| := by
  cases abs_choice q with
  | inl same => rwa [same]
  | inr flipped => rw [flipped]; exact held.neg

theorem representable_int {n : ℤ} (small : |n| ≤ 2 ^ 53) : Representable n :=
  ⟨n, 0, small, by norm_num, by simp⟩

/-- Rounding the integers of 64 bits stays among them. -/
theorem abs_nearest_le {q : ℚ} {power : ℤ} (normal : -1074 ≤ power) (small : |q| ≤ 2 ^ power) :
    |nearest q| ≤ 2 ^ power := by
  rw [abs_le] at small ⊢
  rw [← nearest_power normal, ← nearest_neg]
  exact ⟨nearest_mono small.1, nearest_mono small.2⟩

/-- An integer is rounded to an integer. -/
theorem nearest_int (n : ℤ) : ∃ whole : ℤ, nearest n = whole := by
  by_cases small : |n| ≤ 2 ^ 53
  · exact ⟨n, (representable_int small).nearest⟩
  · have large : (2 : ℚ) ^ (53 : ℤ) ≤ |(n : ℚ)| := by
      rw [← Int.cast_abs]
      exact_mod_cast (not_le.mp small).le
    have log : 53 ≤ Int.log 2 |(n : ℚ)| := by
      have nonzero : (0 : ℚ) < |(n : ℚ)| := lt_of_lt_of_le (by positivity) large
      exact (Int.zpow_le_iff_le_log (by norm_num) nonzero).mp large
    have wide : 0 ≤ exponent n := by
      rw [exponent]
      omega
    obtain ⟨power, same⟩ := Int.eq_ofNat_of_zero_le wide
    refine ⟨roundEven (n / 2 ^ exponent n) * 2 ^ power, ?_⟩
    rw [nearest, same, zpow_natCast]
    push_cast
    rfl

/-! ### Doubles -/

def largestDouble : ℚ := (2 ^ 53 - 1) * 2 ^ 971

theorem le_largestDouble : (2 : ℚ) ^ 64 ≤ largestDouble :=
  calc (2 : ℚ) ^ 64 ≤ 2 ^ 971 := pow_le_pow_right₀ (by norm_num) (by norm_num)
    _ ≤ largestDouble := le_mul_of_one_le_left (by positivity) (by norm_num)

inductive Double where
  | nan
  | infinity (negative : Bool)
  | negativeZero
  | finite (value : ℚ) (held : Representable value ∧ |value| ≤ largestDouble)
  deriving DecidableEq

namespace Double

def isNaN : Double → Bool
  | nan => true
  | _ => false

def isInfinite : Double → Bool
  | infinity _ => true
  | _ => false

def isFinite (double : Double) : Bool := !double.isNaN && !double.isInfinite

/-- What the double stands for, when it is finite. -/
def value : Double → ℚ
  | finite value _ => value
  | _ => 0

def zero : Double :=
  finite 0 ⟨⟨0, 0, by norm_num, by norm_num, by norm_num⟩, le_trans (by norm_num) le_largestDouble⟩

/-- The double nearest to a rational, with the sign a zero is given. -/
def round (negative : Bool) (q : ℚ) : Double :=
  if held : |nearest q| ≤ largestDouble then
    if nearest q = 0 ∧ negative then negativeZero
    else finite (nearest q) ⟨representable_nearest q, held⟩
  else infinity (decide (q < 0))

def ofInt (n : ℤ) : Double := round false n

def isNegative : Double → Bool
  | nan => false
  | infinity negative => negative
  | negativeZero => true
  | finite value _ => decide (value < 0)

def neg : Double → Double
  | nan => nan
  | infinity negative => infinity (!negative)
  | negativeZero => zero
  | finite value held =>
      if value = 0 then negativeZero
      else finite (-value) ⟨held.1.neg, (abs_neg value).trans_le held.2⟩

/-- The order of the numbers, in which nothing is below or above a NaN. -/
def less : Double → Double → Bool
  | nan, _ => false
  | _, nan => false
  | infinity left, infinity right => left && !right
  | infinity negative, _ => negative
  | _, infinity negative => !negative
  | left, right => decide (left.value < right.value)

/-- Equality of the numbers: a NaN differs from itself, the zeros are equal. -/
def same : Double → Double → Bool
  | nan, _ => false
  | _, nan => false
  | infinity left, infinity right => left == right
  | infinity _, _ => false
  | _, infinity _ => false
  | left, right => decide (left.value = right.value)

def geq (left right : Double) : Bool := right.less left || left.same right

def abs : Double → Double
  | infinity _ => infinity false
  | negativeZero => zero
  | finite value held => finite |value| ⟨held.1.abs, (abs_abs value).trans_le held.2⟩
  | nan => nan

def compare (left right : Double) : Ordering :=
  if left.less right then .lt else if left.same right then .eq else .gt

def add : Double → Double → Double
  | nan, _ => nan
  | _, nan => nan
  | infinity left, infinity right => if left = right then infinity left else nan
  | infinity negative, _ => infinity negative
  | _, infinity negative => infinity negative
  | left, right => round (left.isNegative && right.isNegative) (left.value + right.value)

def sub (left right : Double) : Double := left.add right.neg

def mul : Double → Double → Double
  | nan, _ => nan
  | _, nan => nan
  | infinity negative, right =>
      if right.isFinite && decide (right.value = 0) then nan else infinity (negative ^^ right.isNegative)
  | left, infinity negative =>
      if left.value = 0 then nan else infinity (left.isNegative ^^ negative)
  | left, right => round (left.isNegative ^^ right.isNegative) (left.value * right.value)

def div : Double → Double → Double
  | nan, _ => nan
  | _, nan => nan
  | infinity _, infinity _ => nan
  | infinity negative, right => infinity (negative ^^ right.isNegative)
  | left, infinity negative => round (left.isNegative ^^ negative) 0
  | left, right =>
      if right.value = 0 then
        if left.value = 0 then nan else infinity (left.isNegative ^^ right.isNegative)
      else round (left.isNegative ^^ right.isNegative) (left.value / right.value)

/-- The rational a conversion makes of a double, the infinities and NaN included. -/
def toRational : Double → ℚ
  | nan => -(3 / 2) * 2 ^ 1024
  | infinity negative => if negative then -2 ^ 1024 else 2 ^ 1024
  | negativeZero => 0
  | finite value _ => value

def ofRational (q : ℚ) : Double := round (decide (q < 0)) q

/-- The integer part, towards zero. -/
def truncate (double : Double) : ℤ := double.value.num.tdiv double.value.den

def one : Double :=
  finite 1 ⟨⟨1, 0, by norm_num, by norm_num, by norm_num⟩, le_trans (by norm_num) le_largestDouble⟩

/-- The steps of repeated squaring, with the product of what was left over. -/
def powLoop : Nat → Double → Nat → Double → Double
  | 0, _, _, product => product
  | fuel + 1, base, count, product =>
      if count = 0 then product
      else powLoop fuel (base.mul base) (count / 2) (if count % 2 = 0 then product else base.mul product)

def pow (base : Double) (count : Nat) : Double := powLoop count base count one

/-! ### Finite doubles -/

theorem isFinite_iff {double : Double} : double.isFinite = true ↔ double ≠ nan ∧ ∀ negative, double ≠ infinity negative := by
  cases double <;> simp [isFinite, isNaN, isInfinite]

theorem less_value {left right : Double} (first : left.isFinite) (second : right.isFinite) :
    left.less right = decide (left.value < right.value) := by
  cases left <;> cases right <;> simp [isFinite, isNaN, isInfinite] at first second <;> rfl

theorem same_value {left right : Double} (first : left.isFinite) (second : right.isFinite) :
    left.same right = decide (left.value = right.value) := by
  cases left <;> cases right <;> simp [isFinite, isNaN, isInfinite] at first second <;> rfl

theorem compare_value {left right : Double} (first : left.isFinite) (second : right.isFinite) :
    left.compare right = Ord.compare left.value right.value := by
  rw [compare, less_value first second, same_value first second]
  rcases lt_trichotomy left.value right.value with below | same | above
  · rw [if_pos (by simpa using below), compare_lt_iff_lt.mpr below]
  · simp [same]
  · rw [if_neg (by simpa using above.le), if_neg (by simpa using above.ne'), compare_gt_iff_gt.mpr above]

theorem representable_value (double : Double) : Representable double.value := by
  cases double with
  | finite value held => exact held.1
  | nan | infinity | negativeZero => exact ⟨0, 0, by norm_num, by norm_num, by norm_num [value]⟩

theorem value_round {negative : Bool} {q : ℚ} (small : |nearest q| ≤ largestDouble) :
    (round negative q).isFinite ∧ (round negative q).value = nearest q := by
  rw [round, dif_pos small]
  split_ifs with zero
  · exact ⟨rfl, zero.1.symm⟩
  · exact ⟨rfl, rfl⟩

theorem ofInt_value {n : ℤ} (small : |n| ≤ 2 ^ 64) : (ofInt n).isFinite ∧ (ofInt n).value = nearest n := by
  refine value_round (le_trans ?_ le_largestDouble)
  have range : |(n : ℚ)| ≤ 2 ^ (64 : ℤ) := by
    rw [← Int.cast_abs]
    exact_mod_cast small
  exact abs_nearest_le (by norm_num) range

end Double

end Library
