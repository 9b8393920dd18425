import Mathlib.Data.List.Induction

/-! Grouping items by key in one pass, with a map from the keys met to their items and
the order in which they were met. Keys are compared by a boolean relation of which only
symmetry and transitivity are asked: a key need not be the same as itself. -/

set_option autoImplicit false

namespace Library.Grouping

variable {Key Item : Type}

section Loop

variable (same : Key → Key → Bool)

/-- The keys that no key kept before is the same as. -/
def firstsAfter (kept : List Key) : List Key → List Key
  | [] => []
  | key :: keys =>
      if kept.any (same key) then firstsAfter kept keys else key :: firstsAfter (key :: kept) keys

def firsts (keys : List Key) : List Key := firstsAfter same [] keys

def hasGroup (key : Key) (groups : List (Key × List Item)) : Bool := groups.any fun group => same key group.1

def lookupGroup (key : Key) : List (Key × List Item) → List Item
  | [] => []
  | group :: groups => if same key group.1 then group.2 else lookupGroup key groups

/-- Put an item in front of those of its key. -/
def insertGroup (key : Key) (item : Item) : List (Key × List Item) → List (Key × List Item)
  | [] => [(key, [item])]
  | group :: groups =>
      if same key group.1 then (group.1, item :: group.2) :: groups
      else group :: insertGroup key item groups

def groupLoop : List (Key × Item) → List (Key × List Item) → List Key → List (Key × List Item)
  | [], groups, order => order.reverse.map fun key => (key, (lookupGroup same key groups).reverse)
  | (key, item) :: items, groups, order =>
      groupLoop items (insertGroup same key item groups) (if hasGroup same key groups then order else key :: order)

end Loop

/-- Symmetry and transitivity. -/
structure PartialEquivalence (same : Key → Key → Bool) : Prop where
  symm : ∀ {a b}, same a b = true → same b a = true
  trans : ∀ {a b c}, same a b = true → same b c = true → same a c = true

section Firsts

variable {same : Key → Key → Bool}

theorem firstsAfter_append (kept keys : List Key) (key : Key) :
    firstsAfter same kept (keys ++ [key]) =
      firstsAfter same kept keys ++
        if (kept ++ firstsAfter same kept keys).any (same key) then [] else [key] := by
  induction keys generalizing kept with
  | nil => simp [firstsAfter]
  | cons first rest ih =>
      rw [List.cons_append, firstsAfter, firstsAfter]
      split
      · exact ih kept
      · rw [ih]
        simp [Bool.or_left_comm]

theorem firsts_append (keys : List Key) (key : Key) :
    firsts same (keys ++ [key]) =
      firsts same keys ++ if (firsts same keys).any (same key) then [] else [key] :=
  firstsAfter_append [] keys key

theorem mem_firsts {keys : List Key} {key : Key} (member : key ∈ firsts same keys) : key ∈ keys := by
  induction keys using List.reverseRecOn with
  | nil => exact member
  | append_singleton keys last ih =>
      rw [firsts_append, List.mem_append] at member
      rw [List.mem_append]
      cases member with
      | inl earlier => exact .inl (ih earlier)
      | inr later =>
          split at later
          · cases later
          · exact .inr later

/-- No first is the same as an earlier one. -/
theorem firsts_pairwise (keys : List Key) : (firsts same keys).Pairwise fun a b => same b a = false := by
  induction keys using List.reverseRecOn with
  | nil => exact List.Pairwise.nil
  | append_singleton keys last ih =>
      rw [firsts_append]
      split
      · rwa [List.append_nil]
      · rename_i absent
        refine List.pairwise_append.mpr ⟨ih, List.pairwise_singleton _ _, fun a earlier b later => ?_⟩
        rw [List.mem_singleton.mp later]
        simp only [List.any_eq_true, not_exists, not_and, Bool.not_eq_true] at absent
        exact absent a earlier

/-- A key that is the same as itself is the same as a first. -/
theorem exists_first {keys : List Key} {key : Key} (member : key ∈ keys) (reflexive : same key key = true) :
    ∃ first ∈ firsts same keys, same key first = true := by
  induction keys using List.reverseRecOn with
  | nil => cases member
  | append_singleton keys last ih =>
      rw [firsts_append]
      cases List.mem_append.mp member with
      | inl earlier =>
          obtain ⟨first, kept, equal⟩ := ih earlier
          exact ⟨first, List.mem_append_left _ kept, equal⟩
      | inr later =>
          rw [List.mem_singleton.mp later] at reflexive ⊢
          split
          · rename_i present
            obtain ⟨first, kept, equal⟩ := List.any_eq_true.mp present
            exact ⟨first, List.mem_append_left _ kept, equal⟩
          · exact ⟨last, List.mem_append_right _ (List.mem_singleton_self _), reflexive⟩

/-- Relations that agree on the keys keep the same firsts. -/
theorem firsts_congr {other : Key → Key → Bool} {keys : List Key}
    (agree : ∀ a ∈ keys, ∀ b ∈ keys, same a b = other a b) : firsts same keys = firsts other keys := by
  induction keys using List.reverseRecOn with
  | nil => rfl
  | append_singleton keys last ih =>
      have earlier := ih fun a first b second =>
        agree a (List.mem_append_left _ first) b (List.mem_append_left _ second)
      have present : (firsts other keys).any (same last) = (firsts other keys).any (other last) := by
        rw [Bool.eq_iff_iff, List.any_eq_true, List.any_eq_true]
        refine exists_congr fun first => and_congr_right fun kept => ?_
        rw [agree last (by simp) first (List.mem_append_left _ (mem_firsts kept))]
      rw [firsts_append, firsts_append, earlier, present]

/-- Two firsts that are the same as each other are one. -/
theorem eq_of_mem_firsts (relation : PartialEquivalence same) {keys : List Key} {a b : Key}
    (first : a ∈ firsts same keys) (second : b ∈ firsts same keys) (equal : same a b = true) : a = b := by
  have apart := @firsts_pairwise _ same keys
  generalize firsts same keys = kept at first second apart
  induction apart with
  | nil => cases first
  | @cons key rest head _ ih =>
      cases List.mem_cons.mp first with
      | inl here =>
          cases List.mem_cons.mp second with
          | inl there => rw [here, there]
          | inr later =>
              have differ := head b later
              rw [← here, relation.symm equal] at differ
              cases differ
      | inr later =>
          cases List.mem_cons.mp second with
          | inl here =>
              have differ := head a later
              rw [← here, equal] at differ
              cases differ
          | inr there => exact ih later there

end Firsts

/-! ### The loop -/

section Groups

variable {same : Key → Key → Bool}

theorem hasGroup_insertGroup (key other : Key) (item : Item) (groups : List (Key × List Item)) :
    hasGroup same other (insertGroup same key item groups) =
      (hasGroup same other groups || (!hasGroup same key groups && same other key)) := by
  induction groups with
  | nil => simp [hasGroup, insertGroup]
  | cons group groups ih =>
      rw [insertGroup]
      cases found : same key group.1 with
      | true => simp [hasGroup, found]
      | false =>
          simp only [hasGroup, List.any_cons, found, Bool.false_or, Bool.false_eq_true, if_false] at ih ⊢
          rw [ih, Bool.or_assoc]

theorem lookupGroup_insertGroup (relation : PartialEquivalence same) (key other : Key) (item : Item)
    (groups : List (Key × List Item)) :
    lookupGroup same other (insertGroup same key item groups) =
      if same other key then item :: lookupGroup same other groups else lookupGroup same other groups := by
  induction groups with
  | nil => simp [lookupGroup, insertGroup]
  | cons group groups ih =>
      rw [insertGroup]
      cases found : same key group.1 with
      | true =>
          have agree : same other group.1 = same other key := by
            rw [Bool.eq_iff_iff]
            exact ⟨fun equal => relation.trans equal (relation.symm found), fun equal => relation.trans equal found⟩
          simp only [if_true, lookupGroup, agree]
          split <;> rfl
      | false =>
          simp only [Bool.false_eq_true, if_false, lookupGroup, ih]
          split
          · rename_i equal
            split
            · rename_i also
              rw [relation.trans (relation.symm also) equal] at found
              cases found
            · rfl
          · rfl

/-- The items of a key, in the order in which they came. -/
def itemsOf (same : Key → Key → Bool) (key : Key) (items : List (Key × Item)) : List Item :=
  (items.filter fun item => same key item.1).map (·.2)

theorem itemsOf_append (key : Key) (items : List (Key × Item)) (last : Key × Item) :
    itemsOf same key (items ++ [last]) =
      itemsOf same key items ++ if same key last.1 then [last.2] else [] := by
  rw [itemsOf, itemsOf, List.filter_append, List.map_append]
  congr 1
  cases found : same key last.1 <;> simp [found]

/-- What the loop goes on with after some items. -/
structure Grouped (same : Key → Key → Bool) (met : List (Key × Item)) (groups : List (Key × List Item))
    (order : List Key) : Prop where
  ordered : order.reverse = firsts same (met.map (·.1))
  known : ∀ key, hasGroup same key groups = order.any (same key)
  items : ∀ key, (lookupGroup same key groups).reverse = itemsOf same key met

theorem Grouped.insert (relation : PartialEquivalence same) {met : List (Key × Item)}
    {groups : List (Key × List Item)} {order : List Key} (grouped : Grouped same met groups order) (key : Key)
    (item : Item) :
    Grouped same (met ++ [(key, item)]) (insertGroup same key item groups)
      (if hasGroup same key groups then order else key :: order) := by
  refine ⟨?_, fun other => ?_, fun other => ?_⟩
  · rw [List.map_append, List.map_singleton, firsts_append, ← grouped.ordered, List.any_reverse,
      ← grouped.known key]
    split <;> simp
  · rw [hasGroup_insertGroup, grouped.known other]
    cases present : hasGroup same key groups <;> simp [Bool.or_comm]
  · rw [lookupGroup_insertGroup relation, itemsOf_append, ← grouped.items other]
    split <;> simp

theorem groupLoop_eq (relation : PartialEquivalence same) (items : List (Key × Item)) {met : List (Key × Item)}
    {groups : List (Key × List Item)} {order : List Key} (grouped : Grouped same met groups order) :
    groupLoop same items groups order =
      (firsts same ((met ++ items).map (·.1))).map fun key => (key, itemsOf same key (met ++ items)) := by
  induction items generalizing met groups order with
  | nil =>
      rw [groupLoop, List.append_nil, grouped.ordered]
      exact List.map_congr_left fun key _ => by rw [grouped.items key]
  | cons first rest ih =>
      have next := ih (grouped.insert relation first.1 first.2)
      rw [List.append_assoc, List.singleton_append] at next
      exact next

/-- Grouping gives, for each first key, the items of its key. -/
theorem groupLoop_start (relation : PartialEquivalence same) (items : List (Key × Item)) :
    groupLoop same items [] [] = (firsts same (items.map (·.1))).map fun key => (key, itemsOf same key items) := by
  have start : Grouped same ([] : List (Key × Item)) [] [] := ⟨rfl, fun _ => rfl, fun _ => rfl⟩
  have result := groupLoop_eq relation items start
  rwa [List.nil_append] at result

end Groups

end Library.Grouping
