import ChuSQL.Storage.Mvcc.Chain

/-! Matching rows with their earlier versions hands out no identity twice. -/

set_option autoImplicit false

namespace ChuSQL.Storage.Mvcc

open Library

theorem popFront_perm {key : Bytes} {positions rest : List (Bytes × Nat)} {position : Nat}
    (popped : popFront key positions = some (position, rest)) :
    ((key, position) :: rest).Perm positions := by
  induction positions generalizing rest with
  | nil => cases popped
  | cons head tail ih =>
      obtain ⟨other, first⟩ := head
      rw [popFront] at popped
      split at popped
      · rename_i same
        cases popped
        rw [same]
      · obtain ⟨⟨found, left⟩, inner, same⟩ := Option.map_eq_some_iff.mp popped
        cases same
        exact (List.Perm.swap ..).trans ((ih inner).cons _)

/-- Positions still queued are those of keyed rows not yet matched, each once. -/
structure Matcher.Sound (old : List (Nat × Version)) (matcher : Matcher) : Prop where
  queued : ∀ key position, (key, position) ∈ matcher.positions →
    ∃ entry, old[position]? = some entry ∧ uniqueKey entry.2.row "id" = some key ∧
      entry.1 ∉ matcher.used
  distinct : (matcher.positions.map (·.2)).Nodup

theorem mem_keyPositions {rows : List Row} {key : Bytes} {position : Nat} :
    (key, position) ∈ keyPositions rows ↔
      ∃ row, rows[position]? = some row ∧ uniqueKey row "id" = some key := by
  rw [keyPositions, List.mem_filterMap]
  constructor
  · rintro ⟨⟨row, index⟩, member, found⟩
    obtain ⟨_, isKey, same⟩ := Option.map_eq_some_iff.mp found
    cases same
    exact ⟨row, List.mem_zipIdx_iff_getElem?.mp member, isKey⟩
  · rintro ⟨row, at_, isKey⟩
    exact ⟨(row, position), List.mem_zipIdx_iff_getElem?.mpr at_, by simp [isKey]⟩

theorem keyPositions_distinct (rows : List Row) : ((keyPositions rows).map (·.2)).Nodup := by
  have sub : ((keyPositions rows).map (·.2)).Sublist (rows.zipIdx.map (·.2)) := by
    rw [keyPositions, List.map_filterMap]
    have keep : rows.zipIdx.filterMap (fun entry =>
        ((uniqueKey entry.1 "id").map fun key => (key, entry.2)).map (·.2)) =
        (rows.zipIdx.filter fun entry => (uniqueKey entry.1 "id").isSome).map (·.2) := by
      rw [← List.filterMap_eq_map, ← List.filterMap_eq_filter, List.filterMap_filterMap]
      refine List.filterMap_congr fun entry _ => ?_
      cases isKey : uniqueKey entry.1 "id" <;> simp [Option.guard, isKey]
    rw [keep]
    exact List.Sublist.map _ List.filter_sublist
  refine sub.nodup ?_
  rw [List.zipIdx_map_snd]
  exact List.nodup_range'

theorem Matcher.start_sound (old : List (Nat × Version)) : (Matcher.start old).Sound old where
  queued key position member := by
    obtain ⟨row, at_, isKey⟩ := mem_keyPositions.mp member
    rw [List.getElem?_map, Option.map_eq_some_iff] at at_
    obtain ⟨entry, found, rfl⟩ := at_
    exact ⟨entry, found, isKey, List.not_mem_nil⟩
  distinct := keyPositions_distinct _

/-- What a match hands out: an identity not used before, of a row with the same key,
for a row without a key one of equal values. -/
structure Matched (old : List (Nat × Version)) (row : Row) (before after : Matcher) (id : Nat)
    (version : Version) : Prop where
  member : (id, version) ∈ old
  fresh : id ∉ before.used
  used : after.used = id :: before.used
  key : uniqueKey version.row "id" = uniqueKey row "id"
  equal : uniqueKey row "id" = none → version.row = row

theorem Matcher.Sound.prior {old : List (Nat × Version)} {matcher after : Matcher} {row : Row}
    {found : Option (Nat × Version)} (sound : matcher.Sound old)
    (distinctIds : (old.map (·.1)).Nodup) (result : matcher.prior old row = (found, after)) :
    after.Sound old ∧
      match found with
      | some (id, version) => Matched old row matcher after id version
      | none => after.used = matcher.used := by
  rw [Matcher.prior] at result
  cases isKey : uniqueKey row "id" with
  | none =>
      simp only [isKey] at result
      cases search : old.find? fun entry => decide (entry.1 ∉ matcher.used ∧ entry.2.row = row) with
      | none =>
          simp only [search] at result
          cases result
          exact ⟨⟨sound.queued, sound.distinct⟩, rfl⟩
      | some entry =>
          obtain ⟨id, version⟩ := entry
          simp only [search] at result
          cases result
          have member := List.mem_of_find?_eq_some search
          have picked := List.find?_some search
          simp only [decide_eq_true_eq] at picked
          obtain ⟨fresh, equal⟩ := picked
          refine ⟨⟨fun key position queued => ?_, sound.distinct⟩,
            ⟨member, fresh, rfl, by rw [equal], fun _ => equal⟩⟩
          obtain ⟨entry, at_, entryKey, unused⟩ := sound.queued key position queued
          refine ⟨entry, at_, entryKey, fun taken => ?_⟩
          cases List.mem_cons.mp taken with
          | inl same =>
              -- a queued row has a key, the row matched by its values has none
              have sameEntry := List.inj_on_of_nodup_map distinctIds (List.mem_of_getElem? at_) member same
              rw [sameEntry, equal, isKey] at entryKey
              cases entryKey
          | inr earlier => exact unused earlier
  | some key =>
      simp only [isKey] at result
      cases popped : popFront key matcher.positions with
      | none =>
          simp only [popped] at result
          cases result
          exact ⟨⟨sound.queued, sound.distinct⟩, rfl⟩
      | some pair =>
          obtain ⟨position, rest⟩ := pair
          have perm := popFront_perm popped
          obtain ⟨entry, at_, entryKey, unused⟩ :=
            sound.queued key position (perm.subset List.mem_cons_self)
          simp only [popped, at_] at result
          obtain ⟨id, version⟩ := entry
          cases result
          have positions := (perm.map (·.2)).nodup_iff.mpr sound.distinct
          obtain ⟨notAgain, distinct⟩ := List.nodup_cons.mp positions
          refine ⟨⟨fun other place queued => ?_, distinct⟩,
            ⟨List.mem_of_getElem? at_, unused, rfl, entryKey.trans isKey.symm, fun none => ?_⟩⟩
          · obtain ⟨entry, placed, otherKey, free⟩ :=
              sound.queued other place (perm.subset (List.mem_cons_of_mem _ queued))
            refine ⟨entry, placed, otherKey, fun taken => ?_⟩
            cases List.mem_cons.mp taken with
            | inl same =>
                -- two places with the same identity are one place
                have samePlace : place = position := by
                  obtain ⟨inside, _⟩ := List.getElem?_eq_some_iff.mp placed
                  refine (List.getElem?_inj inside distinctIds.of_map).mp ?_
                  rw [placed, at_]
                  exact congrArg some (List.inj_on_of_nodup_map distinctIds
                    (List.mem_of_getElem? placed) (List.mem_of_getElem? at_) same)
                exact notAgain (List.mem_map.mpr ⟨(other, place), queued, samePlace⟩)
            | inr earlier => exact free earlier
          · rw [isKey] at none
            cases none

/-! ### Rows that a snapshot sees -/

theorem visible_perm (history : History) (csn : Nat) :
    (visible history csn).Perm (history.rows.filterMap fun _ chain => chainAt chain csn).entries :=
  List.perm_insertionSort ..

theorem mem_visible {history : History} {csn id : Nat} {version : Version} :
    (id, version) ∈ visible history csn ↔
      (history.rows.get id).bind (chainAt · csn) = some version := by
  rw [(visible_perm history csn).mem_iff, ← SortedMap.get_eq_some, SortedMap.get_filterMap]

theorem visible_ids (history : History) (csn : Nat) : ((visible history csn).map (·.1)).Nodup :=
  ((visible_perm history csn).map _).nodup_iff.mpr (SortedMap.keys_nodup _)

end ChuSQL.Storage.Mvcc
