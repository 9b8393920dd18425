import ChuSQL.Model.Scalar.Formats
import Mathlib.Algebra.Order.Field.Rat
import Mathlib.Data.List.Sort
import Mathlib.Tactic.FieldSimp

/-! JSON documents: what a document stands for, with the fields of objects in no order and
numbers by their value, decides its canonical text. -/

set_option autoImplicit false

namespace ChuSQL.Model

open Library

/-! ### Numbers -/

def Scientific.value (number : Scientific) : ℚ := number.coefficient * (10 : ℚ) ^ number.exponent

theorem stripZeros_value (fuel : Nat) (coefficient exponent : Int) :
    (stripZeros fuel coefficient exponent).value = coefficient * (10 : ℚ) ^ exponent := by
  induction fuel generalizing coefficient exponent with
  | zero => rfl
  | succ fuel ih =>
      rw [stripZeros]
      split_ifs with divides
      · have whole : coefficient = coefficient.tdiv 10 * 10 := by
          have := Int.tdiv_mul_add_tmod coefficient 10
          omega
        rw [ih, zpow_add₀ (by norm_num), zpow_one]
        conv_rhs => rw [whole]
        push_cast
        ring
      · rfl

/-- Nothing is left to divide by. -/
theorem stripZeros_stripped {fuel : Nat} {coefficient : Int} (enough : coefficient.natAbs ≤ fuel) (nonzero : coefficient ≠ 0)
    (exponent : Int) : ¬(10 : Int) ∣ (stripZeros fuel coefficient exponent).coefficient := by
  induction fuel generalizing coefficient exponent with
  | zero => omega
  | succ fuel ih =>
      rw [stripZeros]
      split_ifs with divides
      · have whole := Int.tdiv_mul_add_tmod coefficient 10
        apply ih <;> omega
      · rw [Int.dvd_iff_tmod_eq_zero]
        exact divides

theorem normalize_value (number : Scientific) : number.normalize.value = number.value := by
  rw [Scientific.normalize]
  split_ifs with zero
  · simp [Scientific.value, zero]
  · exact stripZeros_value _ _ _

theorem normalize_form (number : Scientific) :
    number.normalize = ⟨0, 0⟩ ∨ ¬(10 : Int) ∣ number.normalize.coefficient := by
  rw [Scientific.normalize]
  split_ifs with zero
  · exact .inl rfl
  · exact .inr (stripZeros_stripped le_rfl zero _)

/-- Of two equal numbers that cannot be divided, neither has the larger exponent. -/
theorem exponent_le {one other : Scientific} (same : one.value = other.value) (full : ¬(10 : Int) ∣ one.coefficient) :
    other.exponent ≤ one.exponent := by
  by_contra larger
  obtain ⟨gap, eq⟩ := Int.eq_ofNat_of_zero_le (show 0 ≤ other.exponent - one.exponent - 1 by omega)
  have exponent : other.exponent = one.exponent + ((gap + 1 : Nat) : Int) := by
    push_cast
    omega
  have base : (10 : ℚ) ^ one.exponent ≠ 0 := zpow_ne_zero _ (by norm_num)
  rw [Scientific.value, Scientific.value, exponent, zpow_add₀ (by norm_num), zpow_natCast, mul_left_comm] at same
  have scaled : (one.coefficient : ℚ) = other.coefficient * 10 ^ (gap + 1) := by
    apply mul_right_cancel₀ base
    rw [same]
    ring
  have whole : one.coefficient = other.coefficient * 10 ^ (gap + 1) := by exact_mod_cast scaled
  apply full
  rw [whole, pow_succ]
  exact ⟨other.coefficient * 10 ^ gap, by ring⟩

theorem normalize_eq_iff (one other : Scientific) : one.normalize = other.normalize ↔ one.value = other.value := by
  constructor
  · intro same
    rw [← normalize_value one, same, normalize_value]
  · intro same
    have values : one.normalize.value = other.normalize.value := by rw [normalize_value, normalize_value, same]
    have zero {number : Scientific} (null : number.value = 0) : number.normalize = ⟨0, 0⟩ := by
      have none : number.coefficient = 0 := by
        rw [Scientific.value, mul_eq_zero] at null
        exact_mod_cast null.resolve_right (zpow_ne_zero _ (by norm_num))
      rw [Scientific.normalize, if_pos none]
    by_cases null : one.value = 0
    · rw [zero null, zero (same ▸ null)]
    · have nonzero {number : Scientific} (some' : number.value ≠ 0) : ¬(10 : Int) ∣ number.normalize.coefficient := by
        refine (normalize_form number).resolve_left fun none => some' ?_
        rw [← normalize_value, none]
        simp [Scientific.value]
      have first := exponent_le values (nonzero null)
      have second := exponent_le values.symm (nonzero (same ▸ null))
      have exponents : one.normalize.exponent = other.normalize.exponent := le_antisymm second first
      have base : (10 : ℚ) ^ other.normalize.exponent ≠ 0 := zpow_ne_zero _ (by norm_num)
      rw [Scientific.value, Scientific.value, exponents] at values
      have coefficients : one.normalize.coefficient = other.normalize.coefficient := by
        exact_mod_cast mul_right_cancel₀ base values
      cases left : one.normalize
      cases right : other.normalize
      simp_all

/-! ### Documents -/

/-- What a document stands for: objects are maps, and numbers are their values. -/
inductive JsonValue where
  | null
  | bool (flag : Bool)
  | number (value : ℚ)
  | string (text : String)
  | array (items : List JsonValue)
  | object (field : String → Option JsonValue)

mutual

def Document.value : Document → JsonValue
  | .null => .null
  | .bool flag => .bool flag
  | .number number => .number number.value
  | .string text => .string text
  | .array items => .array (itemValues items)
  | .object fields => .object (fieldValues fields)

def itemValues : List Document → List JsonValue
  | [] => []
  | item :: items => item.value :: itemValues items

def fieldValues : List (String × Document) → String → Option JsonValue
  | [], _ => none
  | (name, value) :: fields, key => if name = key then some value.value else fieldValues fields key

end

/-- Documents are built from their items and their fields. -/
theorem Document.induct {P : Document → Prop} (null : P .null) (bool : ∀ flag, P (.bool flag))
    (number : ∀ value, P (.number value)) (string : ∀ text, P (.string text))
    (array : ∀ items : List Document, (∀ item ∈ items, P item) → P (.array items))
    (object : ∀ fields : List (String × Document), (∀ field ∈ fields, P field.2) → P (.object fields)) :
    ∀ document, P document
  | .null => null
  | .bool flag => bool flag
  | .number value => number value
  | .string text => string text
  | .array items => array items fun item _ => Document.induct null bool number string array object item
  | .object fields => object fields fun field _ => Document.induct null bool number string array object field.2
termination_by document => sizeOf document
decreasing_by
  · have := List.sizeOf_lt_of_mem ‹item ∈ items›
    simp
    omega
  · have := List.sizeOf_lt_of_mem ‹field ∈ fields›
    cases field
    simp at this ⊢
    omega

theorem itemValues_eq (items : List Document) : itemValues items = items.map Document.value := by
  induction items with
  | nil => rfl
  | cons item items ih => rw [itemValues, ih, List.map_cons]

theorem distinctItems_iff (items : List Document) : distinctItems items = true ↔ ∀ item ∈ items, item.distinct = true := by
  induction items with
  | nil => simp [distinctItems]
  | cons item items ih => simp [distinctItems, ih]

theorem distinctFields_iff (fields : List (String × Document)) :
    distinctFields fields = true ↔ ∀ field ∈ fields, field.2.distinct = true := by
  induction fields with
  | nil => simp [distinctFields]
  | cons field fields ih =>
      obtain ⟨key, value⟩ := field
      simp [distinctFields, ih]

theorem fieldValues_some {fields : List (String × Document)} {key : String} {value : JsonValue}
    (found : fieldValues fields key = some value) : ∃ document, (key, document) ∈ fields ∧ document.value = value := by
  induction fields with
  | nil => cases found
  | cons field fields ih =>
      obtain ⟨name, document⟩ := field
      rw [fieldValues] at found
      split_ifs at found with same
      · cases found
        exact ⟨document, same ▸ List.mem_cons_self, rfl⟩
      · exact (ih found).imp fun _ both => ⟨List.mem_cons_of_mem _ both.1, both.2⟩

theorem fieldValues_of_mem {fields : List (String × Document)} (distinct : (fields.map (·.1)).Nodup) {key : String}
    {document : Document} (member : (key, document) ∈ fields) : fieldValues fields key = some document.value := by
  induction fields with
  | nil => cases member
  | cons field fields ih =>
      obtain ⟨name, first⟩ := field
      rw [List.map_cons, List.nodup_cons] at distinct
      rw [fieldValues]
      cases List.mem_cons.mp member with
      | inl same =>
          cases same
          exact if_pos rfl
      | inr later =>
          have apart : name ≠ key := fun same => distinct.1 (same ▸ List.mem_map.mpr ⟨_, later, rfl⟩)
          rw [if_neg apart, ih distinct.2 later]

/-- Fields with distinct keys are sorted in one way. -/
theorem sorted_fields {one other : List (String × List Char)} (permuted : one.Perm other) (distinct : (one.map (·.1)).Nodup) :
    (one.mergeSort fun a b => decide (a.1 ≤ b.1)) = other.mergeSort fun a b => decide (a.1 ≤ b.1) := by
  have total (a b : String × List Char) : (decide (a.1 ≤ b.1) || decide (b.1 ≤ a.1)) = true := by
    simpa using le_total a.1 b.1
  have transitive (a b c : String × List Char) (first : decide (a.1 ≤ b.1) = true) (second : decide (b.1 ≤ c.1) = true) :
      decide (a.1 ≤ c.1) = true := by
    simp only [decide_eq_true_eq] at first second ⊢
    exact le_trans first second
  have perm : (one.mergeSort fun a b => decide (a.1 ≤ b.1)).Perm (other.mergeSort fun a b => decide (a.1 ≤ b.1)) :=
    (List.mergeSort_perm one _).trans (permuted.trans (List.mergeSort_perm other _).symm)
  refine perm.eq_of_pairwise ?_ (List.pairwise_mergeSort transitive total one) (List.pairwise_mergeSort transitive total other)
  intro a b left right below above
  rw [decide_eq_true_eq] at below above
  have first : a ∈ one := (List.mergeSort_perm one _).subset left
  have second : b ∈ one := permuted.symm.subset ((List.mergeSort_perm other _).subset right)
  exact List.inj_on_of_nodup_map distinct first second (le_antisymm below above)

section Text

variable [Aeson]

theorem encodeItems_eq (items : List Document) : encodeItems items = items.map encodeJSON := by
  induction items with
  | nil => rfl
  | cons item items ih => rw [encodeItems, ih, List.map_cons]

theorem encodeFields_eq (fields : List (String × Document)) :
    encodeFields fields = fields.map fun field => (field.1, encodeJSON field.2) := by
  induction fields with
  | nil => rfl
  | cons field fields ih =>
      obtain ⟨key, value⟩ := field
      rw [encodeFields, ih, List.map_cons]

/-- Documents that stand for the same have one text. -/
theorem encodeJSON_of_value {one other : Document} (distinct : one.distinct = true) (known : other.distinct = true)
    (same : one.value = other.value) : encodeJSON one = encodeJSON other := by
  induction one using Document.induct generalizing other with
  | null =>
      cases other <;> simp [Document.value] at same
      rfl
  | bool flag => cases other <;> simp [Document.value] at same; rw [same]
  | number value =>
      cases other <;> simp only [Document.value, reduceCtorEq, JsonValue.number.injEq] at same
      rw [encodeJSON, encodeJSON, (normalize_eq_iff _ _).mpr same]
  | string text => cases other <;> simp [Document.value] at same; rw [same]
  | array items ih =>
      cases other <;> simp only [Document.value, reduceCtorEq, JsonValue.array.injEq] at same
      rename_i others
      rw [Document.distinct, distinctItems_iff] at distinct known
      rw [encodeJSON, encodeJSON, encodeItems_eq, encodeItems_eq]
      congr 3
      rw [itemValues_eq, itemValues_eq] at same
      induction items generalizing others with
      | nil => cases others <;> simp at same ⊢
      | cons item items rest =>
          cases others with
          | nil => simp at same
          | cons next others =>
              simp only [List.map_cons, List.cons.injEq] at same ⊢
              constructor
              · exact ih item List.mem_cons_self (distinct item List.mem_cons_self) (known next List.mem_cons_self) same.1
              · exact rest (fun item member => ih item (List.mem_cons_of_mem _ member))
                  (fun item member => distinct item (List.mem_cons_of_mem _ member)) others
                  (fun item member => known item (List.mem_cons_of_mem _ member)) same.2
  | object fields ih =>
      cases other <;> simp only [Document.value, reduceCtorEq, JsonValue.object.injEq] at same
      rename_i others
      rw [Document.distinct, Bool.and_eq_true, decide_eq_true_eq, distinctFields_iff] at distinct known
      have keys : ((encodeFields fields).map (·.1)).Nodup := by
        rw [encodeFields_eq, List.map_map]
        exact distinct.1
      have otherKeys : ((encodeFields others).map (·.1)).Nodup := by
        rw [encodeFields_eq, List.map_map]
        exact known.1
      -- the fields of each object are found under their keys in the other
      have perm : (encodeFields fields).Perm (encodeFields others) := by
        rw [List.perm_ext_iff_of_nodup (List.Nodup.of_map _ keys) (List.Nodup.of_map _ otherKeys)]
        intro field
        rw [encodeFields_eq, encodeFields_eq, List.mem_map, List.mem_map]
        constructor
        · rintro ⟨⟨key, document⟩, member, rfl⟩
          have found := fieldValues_of_mem distinct.1 member
          rw [same] at found
          obtain ⟨next, inside, value⟩ := fieldValues_some found
          exact ⟨(key, next), inside, by
            rw [ih _ member (distinct.2 _ member) (known.2 _ inside) value.symm]⟩
        · rintro ⟨⟨key, document⟩, member, rfl⟩
          have found := fieldValues_of_mem known.1 member
          rw [← same] at found
          obtain ⟨next, inside, value⟩ := fieldValues_some found
          exact ⟨(key, next), inside, by
            rw [ih _ inside (distinct.2 _ inside) (known.2 _ member) value]⟩
      rw [encodeJSON, encodeJSON, sorted_fields perm keys]

/-- The text written for what is read from an input is read as the same value. -/
def ReadsBack (input : String) : Prop :=
  ∀ document, Aeson.decode input = some document →
    ∃ again, Aeson.decode (String.ofList (encodeJSON document.1)) = some again ∧ again.1.value = document.1.value

/-- Canonical texts are the same exactly when what they stand for is. -/
theorem encodeJSON_eq_iff {input second : String} (reads : ReadsBack input) (readsToo : ReadsBack second)
    {one other : { document : Document // document.distinct = true }} (first : Aeson.decode input = some one)
    (next : Aeson.decode second = some other) : encodeJSON one.1 = encodeJSON other.1 ↔ one.1.value = other.1.value := by
  constructor
  · intro same
    obtain ⟨again, decoded, value⟩ := reads one first
    obtain ⟨once, found, values⟩ := readsToo other next
    rw [same, found, Option.some.injEq] at decoded
    rw [← value, ← values, decoded]
  · exact encodeJSON_of_value one.2 other.2

theorem canonicalJSON_canonical {input : String} (reads : ReadsBack input) {text : List Char}
    (canonical : canonicalJSON input = some text) : canonicalJSON (String.ofList text) = some text := by
  obtain ⟨document, decoded, same⟩ := Option.map_eq_some_iff.mp canonical
  subst same
  obtain ⟨again, found, value⟩ := reads document decoded
  rw [canonicalJSON, found, Option.map_some, encodeJSON_of_value again.2 document.2 value]

end Text

end ChuSQL.Model
