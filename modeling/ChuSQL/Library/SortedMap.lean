import ChuSQL.Library.ByteFile

/-! Maps kept as lists sorted by key. Two maps with the same lookups are equal. -/

set_option autoImplicit false

namespace Library

structure SortedMap (Key Value : Type) [LinearOrder Key] where
  entries : List (Key × Value)
  sorted : entries.Pairwise fun first second => first.1 < second.1

namespace SortedMap

variable {Key Value Other : Type} [LinearOrder Key]

instance [DecidableEq Value] : DecidableEq (SortedMap Key Value) := fun first second =>
  decidable_of_iff (first.entries = second.entries) (by cases first; cases second; simp)

def empty : SortedMap Key Value := ⟨[], .nil⟩

instance : Inhabited (SortedMap Key Value) := ⟨empty⟩

def get (map : SortedMap Key Value) (key : Key) : Option Value := map.entries.lookup key

def keys (map : SortedMap Key Value) : List Key := map.entries.map (·.1)

def values (map : SortedMap Key Value) : List Value := map.entries.map (·.2)

/-- Put an entry where its key belongs. -/
def place (key : Key) (value : Value) : List (Key × Value) → List (Key × Value)
  | [] => [(key, value)]
  | (other, kept) :: rest =>
      if key < other then (key, value) :: (other, kept) :: rest
      else if key = other then (key, value) :: rest
      else (other, kept) :: place key value rest

theorem mem_place {key : Key} {value : Value} {entries : List (Key × Value)}
    {entry : Key × Value} (member : entry ∈ place key value entries) :
    entry = (key, value) ∨ entry ∈ entries := by
  induction entries with
  | nil => simpa [place] using member
  | cons head rest ih =>
      obtain ⟨other, kept⟩ := head
      rw [place] at member
      split at member
      · simpa using member
      · split at member
        · simp only [List.mem_cons] at member ⊢
          tauto
        · simp only [List.mem_cons] at member ⊢
          cases member with
          | inl same => exact .inr (.inl same)
          | inr later => exact (ih later).imp id .inr

theorem place_sorted (key : Key) (value : Value) {entries : List (Key × Value)}
    (sorted : entries.Pairwise fun first second => first.1 < second.1) :
    (place key value entries).Pairwise fun first second => first.1 < second.1 := by
  induction entries with
  | nil => simp [place]
  | cons head rest ih =>
      obtain ⟨other, kept⟩ := head
      obtain ⟨above, later⟩ := List.pairwise_cons.mp sorted
      rw [place]
      split
      · rename_i before
        refine List.pairwise_cons.mpr ⟨fun entry member => ?_, sorted⟩
        cases List.mem_cons.mp member with
        | inl same => simpa [same] using before
        | inr member => exact before.trans (above entry member)
      · rename_i notBefore
        split
        · rename_i same
          subst same
          exact List.pairwise_cons.mpr ⟨above, later⟩
        · rename_i different
          refine List.pairwise_cons.mpr ⟨fun entry member => ?_, ih later⟩
          cases mem_place member with
          | inl same =>
              subst same
              exact lt_of_le_of_ne (not_lt.mp notBefore) (Ne.symm different)
          | inr member => exact above entry member

def insert (map : SortedMap Key Value) (key : Key) (value : Value) : SortedMap Key Value :=
  ⟨place key value map.entries, place_sorted key value map.sorted⟩

/-- Keep the entries a predicate allows. -/
def retain (map : SortedMap Key Value) (keep : Key → Value → Bool) : SortedMap Key Value :=
  ⟨map.entries.filter fun entry => keep entry.1 entry.2, map.sorted.filter _⟩

def erase (map : SortedMap Key Value) (key : Key) : SortedMap Key Value :=
  map.retain fun other _ => other ≠ key

def mapValues (map : SortedMap Key Value) (change : Key → Value → Other) : SortedMap Key Other :=
  ⟨map.entries.map fun entry => (entry.1, change entry.1 entry.2), by
    rw [List.pairwise_map]
    exact map.sorted⟩

/-- Change the values, dropping the entries that have none afterwards. -/
def filterMap (map : SortedMap Key Value) (change : Key → Value → Option Other) :
    SortedMap Key Other :=
  ⟨map.entries.filterMap fun entry => (change entry.1 entry.2).map fun value => (entry.1, value), by
    refine map.sorted.filterMap _ fun first second less firstNew firstMem secondNew secondMem => ?_
    obtain ⟨_, _, rfl⟩ := Option.map_eq_some_iff.mp firstMem
    obtain ⟨_, _, rfl⟩ := Option.map_eq_some_iff.mp secondMem
    exact less⟩

/-- Add entries one after another; a later one replaces an earlier one. -/
def insertAll (map : SortedMap Key Value) (entries : List (Key × Value)) : SortedMap Key Value :=
  entries.foldl (fun map entry => map.insert entry.1 entry.2) map

/-! ### Lookups -/

theorem lookup_of_mem {entries : List (Key × Value)}
    (sorted : entries.Pairwise fun first second => first.1 < second.1) {key : Key} {value : Value}
    (member : (key, value) ∈ entries) : entries.lookup key = some value := by
  induction entries with
  | nil => cases member
  | cons head rest ih =>
      obtain ⟨above, sorted⟩ := List.pairwise_cons.mp sorted
      cases List.mem_cons.mp member with
      | inl same => rw [← same, List.lookup_cons_self]
      | inr later =>
          have different : (key == head.1) = false :=
            beq_false_of_ne (ne_of_gt (above _ later))
          rw [List.lookup_cons, different]
          exact ih sorted later

theorem mem_of_lookup {entries : List (Key × Value)} {key : Key} {value : Value}
    (found : entries.lookup key = some value) : (key, value) ∈ entries := by
  induction entries with
  | nil => cases found
  | cons head rest ih =>
      rw [List.lookup_cons] at found
      cases same : key == head.1 with
      | true =>
          rw [same] at found
          cases found
          rw [eq_of_beq same]
          exact List.mem_cons_self
      | false =>
          rw [same] at found
          exact List.mem_cons_of_mem _ (ih found)

theorem get_eq_some {map : SortedMap Key Value} {key : Key} {value : Value} :
    map.get key = some value ↔ (key, value) ∈ map.entries :=
  ⟨mem_of_lookup, lookup_of_mem map.sorted⟩

theorem get_eq_none {map : SortedMap Key Value} {key : Key} :
    map.get key = none ↔ key ∉ map.keys := by
  rw [Option.eq_none_iff_forall_ne_some, keys, List.mem_map]
  constructor
  · rintro missing ⟨⟨_, value⟩, member, rfl⟩
    exact missing value (get_eq_some.mpr member)
  · intro missing value found
    exact missing ⟨(key, value), get_eq_some.mp found, rfl⟩

theorem mem_values {map : SortedMap Key Value} {value : Value} :
    value ∈ map.values ↔ ∃ key, map.get key = some value := by
  rw [values, List.mem_map]
  constructor
  · rintro ⟨⟨key, _⟩, member, rfl⟩
    exact ⟨key, get_eq_some.mpr member⟩
  · rintro ⟨key, found⟩
    exact ⟨(key, value), get_eq_some.mp found, rfl⟩

theorem mem_keys {map : SortedMap Key Value} {key : Key} :
    key ∈ map.keys ↔ ∃ value, map.get key = some value := by
  rw [← not_iff_not, ← get_eq_none, Option.eq_none_iff_forall_ne_some]
  simp

@[simp] theorem get_empty (key : Key) : (empty : SortedMap Key Value).get key = none := rfl

theorem lookup_cons (first : Key) (kept : Value) (rest : List (Key × Value)) (other : Key) :
    ((first, kept) :: rest).lookup other = if other = first then some kept else rest.lookup other := by
  rw [List.lookup_cons]
  by_cases same : other = first
  · rw [if_pos same, beq_iff_eq.mpr same]
  · rw [if_neg same, beq_false_of_ne same]

theorem lookup_place (key : Key) (value : Value) (entries : List (Key × Value)) (other : Key) :
    (place key value entries).lookup other =
      if other = key then some value else entries.lookup other := by
  induction entries with
  | nil => rw [place, lookup_cons]
  | cons head rest ih =>
      obtain ⟨first, kept⟩ := head
      rw [place]
      split
      · rw [lookup_cons]
      · split
        · rename_i same
          subst same
          rw [lookup_cons, lookup_cons]
          split <;> rfl
        · rename_i different
          rw [lookup_cons, lookup_cons, ih]
          by_cases same : other = first
          · rw [if_pos same, if_pos same, if_neg (same ▸ Ne.symm different)]
          · rw [if_neg same, if_neg same]

theorem get_insert (map : SortedMap Key Value) (key : Key) (value : Value) (other : Key) :
    (map.insert key value).get other = if other = key then some value else map.get other :=
  lookup_place key value map.entries other

@[simp] theorem get_insert_self (map : SortedMap Key Value) (key : Key) (value : Value) :
    (map.insert key value).get key = some value := by
  rw [get_insert, if_pos rfl]

theorem get_retain (map : SortedMap Key Value) (keep : Key → Value → Bool) (key : Key) :
    (map.retain keep).get key = (map.get key).filter (keep key) := by
  apply Option.ext
  intro value
  rw [get_eq_some, retain, List.mem_filter, ← get_eq_some, Option.filter_eq_some_iff]

theorem get_erase (map : SortedMap Key Value) (key other : Key) :
    (map.erase key).get other = if other = key then none else map.get other := by
  rw [erase, get_retain]
  by_cases same : other = key
  · simp [same]
  · cases map.get other <;> simp [same]

theorem get_mapValues (map : SortedMap Key Value) (change : Key → Value → Other) (key : Key) :
    (map.mapValues change).get key = (map.get key).map (change key) := by
  apply Option.ext
  intro value
  rw [get_eq_some, mapValues, List.mem_map, Option.map_eq_some_iff]
  constructor
  · rintro ⟨⟨first, kept⟩, member, same⟩
    cases same
    exact ⟨kept, get_eq_some.mpr member, rfl⟩
  · rintro ⟨kept, found, rfl⟩
    exact ⟨(key, kept), get_eq_some.mp found, rfl⟩

theorem get_filterMap (map : SortedMap Key Value) (change : Key → Value → Option Other) (key : Key) :
    (map.filterMap change).get key = (map.get key).bind (change key) := by
  apply Option.ext
  intro value
  rw [get_eq_some, filterMap, List.mem_filterMap, Option.bind_eq_some_iff]
  constructor
  · rintro ⟨⟨first, kept⟩, member, found⟩
    obtain ⟨_, changed, same⟩ := Option.map_eq_some_iff.mp found
    cases same
    exact ⟨kept, get_eq_some.mpr member, changed⟩
  · rintro ⟨kept, found, changed⟩
    exact ⟨(key, kept), get_eq_some.mp found, Option.map_eq_some_iff.mpr ⟨value, changed, rfl⟩⟩

theorem keys_nodup (map : SortedMap Key Value) : map.keys.Nodup := by
  rw [keys, List.Nodup, List.pairwise_map]
  exact map.sorted.imp fun less => less.ne

theorem get_insertAll_other {map : SortedMap Key Value} {entries : List (Key × Value)} {key : Key}
    (absent : key ∉ entries.map (·.1)) : (map.insertAll entries).get key = map.get key := by
  induction entries generalizing map with
  | nil => rfl
  | cons entry rest ih =>
      simp only [List.map_cons, List.mem_cons, not_or] at absent
      obtain ⟨different, absent⟩ := absent
      rw [insertAll, List.foldl_cons]
      exact (ih absent).trans (by rw [get_insert, if_neg different])

/-- Of entries with different keys none is lost. -/
theorem get_insertAll {map : SortedMap Key Value} {entries : List (Key × Value)}
    (distinct : (entries.map (·.1)).Nodup) {key : Key} {value : Value}
    (member : (key, value) ∈ entries) : (map.insertAll entries).get key = some value := by
  induction entries generalizing map with
  | nil => cases member
  | cons entry rest ih =>
      obtain ⟨fresh, distinct⟩ := List.nodup_cons.mp distinct
      rw [insertAll, List.foldl_cons]
      cases List.mem_cons.mp member with
      | inl same =>
          subst same
          exact (get_insertAll_other fresh).trans (get_insert_self ..)
      | inr later => exact ih distinct later

/-- Lookups determine the map. -/
theorem ext {first second : SortedMap Key Value}
    (same : ∀ key, first.get key = second.get key) : first = second := by
  have perm : first.entries.Perm second.entries := by
    refine (List.perm_ext_iff_of_nodup ?_ ?_).mpr fun entry => ?_
    · exact first.sorted.imp fun less equal => absurd (congrArg Prod.fst equal) less.ne
    · exact second.sorted.imp fun less equal => absurd (congrArg Prod.fst equal) less.ne
    · rw [← @get_eq_some _ _ _ first, ← @get_eq_some _ _ _ second, same]
  obtain ⟨entries, sorted⟩ := first
  obtain ⟨others, otherSorted⟩ := second
  have equal : entries = others :=
    perm.eq_of_pairwise (fun _ _ _ _ below above => absurd below above.asymm) sorted otherSorted
  subst equal
  rfl

end SortedMap

end Library
