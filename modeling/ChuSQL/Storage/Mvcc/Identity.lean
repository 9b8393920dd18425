import ChuSQL.Storage.Mvcc.Matching
import ChuSQL.Storage.Mvcc.Merge

/-! A plan gives each earlier row to at most one wanted row, and removes exactly the rest. -/

set_option autoImplicit false

namespace ChuSQL.Storage.Mvcc

open Library

/-- Identities given to wanted rows. -/
def Change.assigned (change : Change) : List Nat := change.wanted.filterMap (·.1)

/-- The keys by which rows are matched. -/
def idKeys (rows : List Row) : List Bytes := rows.filterMap (uniqueKey · "id")

/-- Items with distinct images are told apart by them. -/
theorem eq_of_image {Item Image : Type} {image : Item → Option Image} {items : List Item}
    (images : (items.filterMap image).Nodup) {first second : Item} {value : Image} (left : first ∈ items)
    (right : second ∈ items) (one : image first = some value) (two : image second = some value) :
    second = first := by
  induction items with
  | nil => cases left
  | cons head rest ih =>
      have later : (rest.filterMap image).Nodup :=
        (List.Sublist.filterMap _ (List.sublist_cons_self head rest)).nodup images
      have alone : image head = some value → ∀ item ∈ rest, image item ≠ some value := by
        intro found item member again
        rw [List.filterMap_cons_some found] at images
        exact (List.nodup_cons.mp images).1 (List.mem_filterMap.mpr (Exists.intro item (And.intro member again)))
      cases List.mem_cons.mp left with
      | inl here =>
          subst here
          cases List.mem_cons.mp right with
          | inl same => exact same
          | inr inside => exact absurd two (alone one second inside)
      | inr within =>
          cases List.mem_cons.mp right with
          | inl here =>
              subst here
              exact absurd one (alone two first within)
          | inr inside => exact ih later within inside

theorem key_mem {rows : List Row} {row : Row} {key : Bytes} (member : row ∈ rows)
    (keyed : uniqueKey row "id" = some key) : key ∈ idKeys rows :=
  List.mem_filterMap.mpr (Exists.intro row (And.intro member keyed))

/-! ### Identities given by key or by equal values -/

section Assign

variable {old : List (Nat × Version)}

theorem assign_cons (matcher : Matcher) (row : Row) (rest : List Row) :
    assign old matcher (row :: rest) =
      (((matcher.prior old row).1.map (·.1), row) :: (assign old (matcher.prior old row).2 rest).1,
        (assign old (matcher.prior old row).2 rest).2) := rfl

theorem assign_rows (matcher : Matcher) (rows : List Row) :
    (assign old matcher rows).1.map (·.2) = rows := by
  induction rows generalizing matcher with
  | nil => rfl
  | cons row rest ih => rw [assign_cons, List.map_cons, ih]

theorem assign_used {matcher : Matcher} (sound : matcher.Sound old) (distinct : (old.map (·.1)).Nodup)
    (rows : List Row) :
    (assign old matcher rows).2.used.Perm ((assign old matcher rows).1.filterMap (·.1) ++ matcher.used) := by
  induction rows generalizing matcher with
  | nil => exact List.Perm.refl _
  | cons row rest ih =>
      rw [assign_cons]
      generalize given : matcher.prior old row = result
      obtain ⟨found, after⟩ := result
      have step := sound.prior distinct given
      have later := ih step.1
      cases found with
      | none =>
          rw [step.2] at later
          exact later
      | some entry =>
          rw [step.2.used] at later
          exact later.trans List.perm_middle

/-- What each identity handed out belongs to. -/
theorem assign_given {matcher : Matcher} (sound : matcher.Sound old) (distinct : (old.map (·.1)).Nodup)
    {rows : List Row} {id : Nat} {row : Row} (member : (some id, row) ∈ (assign old matcher rows).1) :
    id ∉ matcher.used ∧ ∃ version, (id, version) ∈ old ∧ uniqueKey version.row "id" = uniqueKey row "id" := by
  induction rows generalizing matcher with
  | nil => cases member
  | cons head rest ih =>
      rw [assign_cons] at member
      generalize given : matcher.prior old head = result at member
      obtain ⟨found, after⟩ := result
      have step := sound.prior distinct given
      cases List.mem_cons.mp member with
      | inl first =>
          cases found with
          | none => cases first
          | some entry =>
              cases first
              exact And.intro step.2.fresh (Exists.intro _ (And.intro step.2.member step.2.key))
      | inr later =>
          have inner := ih step.1 later
          cases found with
          | none =>
              rw [step.2] at inner
              exact inner
          | some entry =>
              rw [step.2.used] at inner
              exact And.intro (fun taken => inner.1 (List.mem_cons_of_mem _ taken)) inner.2

theorem assign_nodup {matcher : Matcher} (sound : matcher.Sound old) (distinct : (old.map (·.1)).Nodup)
    (rows : List Row) : ((assign old matcher rows).1.filterMap (·.1)).Nodup := by
  induction rows generalizing matcher with
  | nil => exact List.nodup_nil
  | cons row rest ih =>
      rw [assign_cons]
      generalize given : matcher.prior old row = result
      obtain ⟨found, after⟩ := result
      have step := sound.prior distinct given
      have later := ih step.1
      cases found with
      | none => exact later
      | some entry =>
          refine List.nodup_cons.mpr (And.intro (fun again => ?_) later)
          obtain ⟨wanted, member, same⟩ := List.mem_filterMap.mp again
          obtain ⟨given, other⟩ := wanted
          cases same
          have unused := (assign_given step.1 distinct member).1
          rw [step.2.used] at unused
          exact unused List.mem_cons_self

end Assign

/-! ### Identities paired with the rows left -/

theorem pairLeft_rows (wanted : List (Option Nat × Row)) (unmatched : List Nat) :
    (pairLeft wanted unmatched).map (·.2) = wanted.map (·.2) := by
  fun_induction pairLeft wanted unmatched with
  | case1 => rfl
  | case2 _ _ _ _ ih => exact congrArg (List.cons _) ih
  | case3 _ _ _ _ _ ih => exact congrArg (List.cons _) ih
  | case4 _ _ _ _ ih => exact congrArg (List.cons _) ih

theorem pairLeft_ids (wanted : List (Option Nat × Row)) (unmatched : List Nat) :
    ((pairLeft wanted unmatched).filterMap (·.1)).Subperm (wanted.filterMap (·.1) ++ unmatched) := by
  fun_induction pairLeft wanted unmatched with
  | case1 => exact List.nil_subperm
  | case2 id _ _ _ ih =>
      have step := (List.subperm_cons id).mpr ih
      exact step
  | case3 _ _ id unmatched _ ih => exact ((List.subperm_cons id).mpr ih).trans List.perm_middle.symm.subperm
  | case4 _ _ _ _ ih => exact ih

/-- Rows with a key keep what the first pass gave them. -/
theorem pairLeft_keyed {wanted : List (Option Nat × Row)} {unmatched : List Nat} {id : Option Nat} {row : Row}
    (keyed : uniqueKey row "id" ≠ none) (member : (id, row) ∈ wanted) : (id, row) ∈ pairLeft wanted unmatched := by
  fun_induction pairLeft wanted unmatched with
  | case1 => exact member
  | case2 _ _ _ _ ih =>
      cases List.mem_cons.mp member with
      | inl first => exact List.mem_cons.mpr (.inl first)
      | inr later => exact List.mem_cons_of_mem _ (ih later)
  | case3 _ _ _ _ keyless ih =>
      cases List.mem_cons.mp member with
      | inl first =>
          cases first
          exact absurd keyless keyed
      | inr later => exact List.mem_cons_of_mem _ (ih later)
  | case4 _ _ _ _ ih =>
      cases List.mem_cons.mp member with
      | inl first => exact List.mem_cons.mpr (.inl first)
      | inr later => exact List.mem_cons_of_mem _ (ih later)

/-! ### The change of a table -/

section ChangeOf

variable {table : Nat} {old : List (Nat × Version)} {rows : List Row}

/-- Identities of rows without a key that the first pass left. -/
def unmatchedIds (old : List (Nat × Version)) (used : List Nat) : List Nat :=
  (old.filter fun entry => entry.1 ∉ used ∧ uniqueKey entry.2.row "id" = none).map (·.1)

theorem changeOf_wanted : (changeOf table old rows).wanted =
    pairLeft (assign old (.start old) rows).1 (unmatchedIds old (assign old (.start old) rows).2.used) := rfl

theorem changeOf_rows : (changeOf table old rows).wanted.map (·.2) = rows := by
  rw [changeOf_wanted, pairLeft_rows, assign_rows]

theorem both_passes (distinct : (old.map (·.1)).Nodup) :
    ((assign old (.start old) rows).1.filterMap (·.1) ++
      unmatchedIds old (assign old (.start old) rows).2.used).Nodup := by
  have used := assign_used (Matcher.start_sound old) distinct rows
  have left : (unmatchedIds old (assign old (.start old) rows).2.used).Nodup :=
    (List.Sublist.map _ List.filter_sublist).nodup distinct
  refine List.nodup_append.mpr (And.intro (assign_nodup (Matcher.start_sound old) distinct rows)
    (And.intro left fun id first other second same => ?_))
  obtain ⟨entry, kept, named⟩ := List.mem_map.mp second
  have unused := (of_decide_eq_true (List.mem_filter.mp kept).2).1
  rw [named, ← same] at unused
  exact unused (used.symm.subset (List.mem_append_left _ first))

theorem assigned_nodup (distinct : (old.map (·.1)).Nodup) : (changeOf table old rows).assigned.Nodup := by
  obtain ⟨ids, same, within⟩ := pairLeft_ids (assign old (.start old) rows).1
    (unmatchedIds old (assign old (.start old) rows).2.used)
  exact same.nodup_iff.mp (within.nodup (both_passes distinct))

theorem assigned_old (distinct : (old.map (·.1)).Nodup) :
    (changeOf table old rows).assigned ⊆ old.map (·.1) := by
  intro id member
  cases List.mem_append.mp ((pairLeft_ids ..).subset member) with
  | inl first =>
      obtain ⟨wanted, inside, same⟩ := List.mem_filterMap.mp first
      obtain ⟨given, row⟩ := wanted
      cases same
      obtain ⟨version, place, _⟩ := (assign_given (Matcher.start_sound old) distinct inside).2
      exact List.mem_map.mpr (Exists.intro _ (And.intro place rfl))
  | inr second =>
      exact (List.Sublist.map _ List.filter_sublist).subset second

/-- Each earlier row is given to a wanted row or removed, once. -/
theorem assigned_removed (distinct : (old.map (·.1)).Nodup) :
    ((changeOf table old rows).assigned ++ (changeOf table old rows).removed).Perm (old.map (·.1)) := by
  have kept : ((old.map (·.1)).filter (· ∈ (changeOf table old rows).assigned)).Perm
      (changeOf table old rows).assigned := by
    refine (List.perm_ext_iff_of_nodup (distinct.filter _) (assigned_nodup distinct)).mpr fun id => ?_
    rw [List.mem_filter, decide_eq_true_eq]
    exact and_iff_right_of_imp fun member => assigned_old distinct member
  have removed : (changeOf table old rows).removed =
      (old.map (·.1)).filter fun id => !decide (id ∈ (changeOf table old rows).assigned) :=
    List.filter_congr fun id _ => decide_not
  rw [removed]
  exact (kept.symm.append_right _).trans (List.filter_append_perm _ _)

end ChangeOf

/-! ### Rows that are kept as they were -/

theorem popFront_found {key : Bytes} {positions : List (Bytes × Nat)} (queued : key ∈ positions.map (·.1)) :
    ∃ popped, popFront key positions = some popped := by
  induction positions with
  | nil => cases queued
  | cons head rest ih =>
      obtain ⟨other, position⟩ := head
      rw [popFront]
      split
      · exact Exists.intro _ rfl
      · rename_i differ
        cases List.mem_cons.mp queued with
        | inl same => exact absurd same.symm differ
        | inr later =>
            obtain ⟨popped, found⟩ := ih later
            exact Exists.intro _ (by rw [found]; rfl)

section Kept

variable {old : List (Nat × Version)} {matcher : Matcher}

/-- A key that is queued finds an earlier row. -/
theorem prior_found {row : Row} {key : Bytes} (sound : matcher.Sound old)
    (keyed : uniqueKey row "id" = some key) (queued : key ∈ matcher.positions.map (·.1)) :
    ∃ entry, (matcher.prior old row).1 = some entry := by
  obtain ⟨pair, popped⟩ := popFront_found queued
  obtain ⟨position, rest⟩ := pair
  obtain ⟨entry, place, _⟩ := sound.queued key position ((popFront_perm popped).subset List.mem_cons_self)
  exact Exists.intro entry (by simp only [Matcher.prior, keyed, popped, place])

/-- The queues of other keys stay as they are. -/
theorem prior_queued {row : Row} {key : Bytes} (other : uniqueKey row "id" ≠ some key)
    (queued : key ∈ matcher.positions.map (·.1)) :
    key ∈ (matcher.prior old row).2.positions.map (·.1) := by
  cases keyed : uniqueKey row "id" with
  | none =>
      simp only [Matcher.prior, keyed]
      split
      · exact queued
      · exact queued
  | some mine =>
      cases popped : popFront mine matcher.positions with
      | none =>
          simp only [Matcher.prior, keyed, popped]
          exact queued
      | some pair =>
          have kept : key ∈ pair.2.map (·.1) := by
            obtain ⟨place, inside, same⟩ := List.mem_map.mp queued
            cases List.mem_cons.mp ((popFront_perm popped).symm.subset inside) with
            | inl first =>
                rw [first] at same
                rw [keyed, ← same] at other
                exact absurd rfl other
            | inr later => exact List.mem_map.mpr (Exists.intro place (And.intro later same))
          simp only [Matcher.prior, keyed, popped]
          split
          · exact kept
          · exact kept

/-- With distinct keys, every queued row is found again. -/
theorem assign_found (sound : matcher.Sound old) (distinct : (old.map (·.1)).Nodup) {rows : List Row}
    (keys : (idKeys rows).Nodup) (queued : idKeys rows ⊆ matcher.positions.map (·.1)) {row : Row}
    (member : row ∈ rows) (keyed : uniqueKey row "id" ≠ none) :
    ∃ id, (some id, row) ∈ (assign old matcher rows).1 := by
  induction rows generalizing matcher with
  | nil => cases member
  | cons head rest ih =>
      rw [assign_cons]
      have after : (matcher.prior old head).2.Sound old := (sound.prior distinct rfl).1
      cases List.mem_cons.mp member with
      | inl first =>
          subst first
          obtain ⟨key, found⟩ := Option.ne_none_iff_exists'.mp keyed
          obtain ⟨entry, given⟩ := prior_found sound found (queued (key_mem List.mem_cons_self found))
          rw [given]
          exact Exists.intro entry.1 List.mem_cons_self
      | inr later =>
          have inner : ∃ id, (some id, row) ∈ (assign old (matcher.prior old head).2 rest).1 := by
            cases found : uniqueKey head "id" with
            | none =>
                have same : idKeys (head :: rest) = idKeys rest := List.filterMap_cons_none found
                rw [same] at keys queued
                refine ih after keys (fun key inside => prior_queued ?_ (queued inside)) later
                rw [found]
                exact (Option.some_ne_none key).symm
            | some mine =>
                have same : idKeys (head :: rest) = mine :: idKeys rest := List.filterMap_cons_some found
                rw [same] at keys queued
                refine ih after (List.nodup_cons.mp keys).2
                  (fun key inside => prior_queued ?_ (queued (List.mem_cons_of_mem _ inside))) later
                intro again
                rw [found] at again
                cases again
                exact (List.nodup_cons.mp keys).1 inside
          obtain ⟨id, inside⟩ := inner
          exact Exists.intro id (List.mem_cons_of_mem _ inside)

theorem keyPositions_keys (rows : List Row) : (keyPositions rows).map (·.1) = idKeys rows := by
  have each : (rows.zipIdx.map (·.1)).filterMap (uniqueKey · "id") = (keyPositions rows).map (·.1) := by
    rw [keyPositions, List.map_filterMap, List.filterMap_map]
    refine List.filterMap_congr fun entry _ => ?_
    cases keyed : uniqueKey entry.1 "id" <;> simp [keyed]
  rw [← each, List.zipIdx_map_fst]
  rfl

/-- In a permutation of rows with distinct keys, a keyed row keeps the identity it had. -/
theorem keyed_kept {table : Nat} {rows : List Row} (distinct : (old.map (·.1)).Nodup)
    (permuted : rows.Perm (old.map (·.2.row))) (keys : (idKeys (old.map (·.2.row))).Nodup) {row : Row}
    (member : row ∈ rows) (keyed : uniqueKey row "id" ≠ none) :
    ∃ id version, (some id, row) ∈ (changeOf table old rows).wanted ∧ (id, version) ∈ old ∧ version.row = row := by
  have sound := Matcher.start_sound old
  have here : idKeys rows ⊆ (Matcher.start old).positions.map (·.1) := by
    rw [Matcher.start, keyPositions_keys]
    exact (permuted.filterMap _).subset
  obtain ⟨id, given⟩ := assign_found sound distinct ((permuted.filterMap _).nodup_iff.mpr keys) here member keyed
  obtain ⟨version, inside, same⟩ := (assign_given sound distinct given).2
  refine Exists.intro id (Exists.intro version (And.intro (pairLeft_keyed keyed given) (And.intro inside ?_)))
  obtain ⟨key, found⟩ := Option.ne_none_iff_exists'.mp keyed
  exact eq_of_image keys (permuted.subset member) (List.mem_map.mpr (Exists.intro _ (And.intro inside rfl))) found
    (same.trans found)

theorem find_identity (distinct : (old.map (·.1)).Nodup) {id : Nat} {version : Version}
    (member : (id, version) ∈ old) : (old.find? fun entry => entry.1 = id) = some (id, version) := by
  cases found : old.find? fun entry => decide (entry.1 = id) with
  | none =>
      have missing := List.find?_eq_none.mp found _ member
      exact absurd (decide_eq_true rfl) missing
  | some entry =>
      have same : entry.1 = id := by simpa using List.find?_some found
      exact congrArg some (List.inj_on_of_nodup_map distinct (List.mem_of_find?_eq_some found) member same)

/-- A row kept with its values is neither among the removed identities nor among the new rows. -/
theorem kept_unchanged {change : Change} (distinct : (old.map (·.1)).Nodup) (assigned : change.assigned.Nodup)
    (split : (change.assigned ++ change.removed).Nodup) {id : Nat} {version : Version}
    (given : (some id, version.row) ∈ change.wanted) (member : (id, version) ∈ old) :
    id ∉ (change.edits old).1 := by
  intro touched
  rw [mem_edits, Change.Touches] at touched
  have mine : id ∈ change.assigned := List.mem_filterMap.mpr (Exists.intro _ (And.intro given rfl))
  cases touched with
  | inl removed => exact (List.nodup_append.mp split).2.2 id mine id removed rfl
  | inr altered =>
      obtain ⟨row, inside, differ⟩ := altered
      refine differ version (find_identity distinct member) ?_
      exact (congrArg Prod.snd (eq_of_image assigned given inside rfl rfl)).symm

end Kept

/-! ### Plans -/

/-- Matching gives each earlier row to at most one wanted row and removes the others. If the
wanted rows are the earlier ones in some order and no two share a key, no keyed row is
reported as changed. -/
theorem plans_match {state : State} {token : Token} {tx : Transaction} {ops : List StorageOp}
    {changes : List Change} (found : state.transactions.get token = some tx)
    (planned : plans state token ops = .ok changes) {change : Change} (member : change ∈ changes) :
    ∃ history, ∃ edited : SortedMap Nat (List Row), state.durable.tables.get change.table = some history ∧
      ops.foldlM (editRows state.durable tx) .empty = .ok edited ∧
      edited.get change.table = some (change.wanted.map (·.2)) ∧
      change.assigned.Nodup ∧
      (change.assigned ++ change.removed).Perm ((visible history tx.snapshot).map (·.1)) ∧
      ((change.wanted.map (·.2)).Perm (visibleRows history tx.snapshot) →
        (idKeys (visibleRows history tx.snapshot)).Nodup →
        ∀ row ∈ change.wanted.map (·.2), uniqueKey row "id" ≠ none →
          row ∉ (change.edits (visible history tx.snapshot)).2 ∧
          ∃ id, (some id, row) ∈ change.wanted ∧ id ∉ (change.edits (visible history tx.snapshot)).1) := by
  obtain ⟨edited, folded, related⟩ := plans_ok found planned
  obtain ⟨entry, inside, history, table, same⟩ := exists_of_mem_right related member
  subst same
  have distinct := visible_ids history tx.snapshot
  have assigned : (changeOf entry.1 (visible history tx.snapshot) entry.2).assigned.Nodup := assigned_nodup distinct
  have split := @assigned_removed entry.1 _ entry.2 distinct
  refine Exists.intro history (Exists.intro edited (And.intro table (And.intro folded ?_)))
  refine And.intro ?_ (And.intro assigned (And.intro split fun permuted keys row wanted keyed => ?_))
  · rw [changeOf_rows, changeOf_table]
    exact SortedMap.get_eq_some.mpr inside
  · rw [changeOf_rows] at permuted wanted
    obtain ⟨id, version, given, old, values⟩ := @keyed_kept _ entry.1 entry.2 distinct permuted keys _ wanted keyed
    subst values
    have unchanged := kept_unchanged distinct assigned (split.nodup_iff.mpr distinct) given old
    refine And.intro (fun reported => ?_) (Exists.intro id (And.intro given unchanged))
    obtain ⟨other, altered, same⟩ := List.mem_map.mp reported
    have single : ((changeOf entry.1 (visible history tx.snapshot) entry.2).wanted.filterMap
        fun wanted => uniqueKey wanted.2 "id").Nodup := by
      have every : _ = idKeys entry.2 := congrArg idKeys
        (@changeOf_rows entry.1 (visible history tx.snapshot) entry.2)
      rw [idKeys, List.filterMap_map] at every
      exact every ▸ (permuted.filterMap _).nodup_iff.mpr keys
    obtain ⟨key, here⟩ := Option.ne_none_iff_exists'.mp keyed
    have only : other = (some id, version.row) :=
      eq_of_image single given (List.mem_filter.mp altered).1 here (same ▸ here)
    exact unchanged (List.mem_append_right _ (List.mem_filterMap.mpr
      (Exists.intro other (And.intro altered (congrArg Prod.fst only)))))

/-! ### Two rows that change places -/

def idRow (id : Json) : Row := ⟨[("id", id)], List.pairwise_singleton ..⟩

def pairHistory (first second : Json) : History :=
  ⟨⟨"t", 0, 1, 1, [], 2⟩, 1, true,
    SortedMap.empty.insertAll [(1, [⟨1, none, 1, 0, idRow first⟩]), (2, [⟨1, none, 1, 1, idRow second⟩])]⟩

/-- A table of two rows and a transaction on it. -/
def pairState (first second : Json) : State :=
  ⟨⟨1, 1, 2, SortedMap.empty.insert 1 (pairHistory first second)⟩,
    SortedMap.empty.insert 1 ⟨1, [(pairHistory first second).schema], false, [], .empty, [], none, []⟩, 1⟩

def swapRows (first second : Json) : List StorageOp := [.replace "t" [idRow second, idRow first]]

/-- True and the text of one byte 1 are filed under the same key: the rows that change places
take each other's identity, and both are reported as changed. -/
theorem shared_key_reported :
    plans (pairState (.bool true) (.string (String.singleton (Char.ofNat 1)))) 1
        (swapRows (.bool true) (.string (String.singleton (Char.ofNat 1)))) =
      .ok [⟨1, [(some 1, idRow (.string (String.singleton (Char.ofNat 1)))), (some 2, idRow (.bool true))], []⟩] ∧
    (Change.edits ⟨1, [(some 1, idRow (.string (String.singleton (Char.ofNat 1)))), (some 2, idRow (.bool true))], []⟩
        (visible (pairHistory (.bool true) (.string (String.singleton (Char.ofNat 1)))) 1)) =
      ([1, 2], [idRow (.string (String.singleton (Char.ofNat 1))), idRow (.bool true)]) ∧
    visibleRows (pairHistory (.bool true) (.string (String.singleton (Char.ofNat 1)))) 1 =
      [idRow (.bool true), idRow (.string (String.singleton (Char.ofNat 1)))] ∧
    (idRow (.bool true)).get "id" ≠ (idRow (.string (String.singleton (Char.ofNat 1)))).get "id" := by
  decide +kernel

theorem swapped_kept :
    ([some 2, some 1].filterMap id).Nodup ∧
      (Change.edits ⟨1, [(some 2, idRow (Json.ofNat 2)), (some 1, idRow (Json.ofNat 1))], []⟩
        (visible (pairHistory (Json.ofNat 1) (Json.ofNat 2)) 1)).2 = [] := by
  obtain ⟨history, _, table, _, _, assigned, _, kept⟩ :=
    @plans_match (pairState (Json.ofNat 1) (Json.ofNat 2)) 1 _ (swapRows (Json.ofNat 1) (Json.ofNat 2))
      [⟨1, [(some 2, idRow (Json.ofNat 2)), (some 1, idRow (Json.ofNat 1))], []⟩] rfl (by decide +kernel) _
      List.mem_cons_self
  have same : history = pairHistory (Json.ofNat 1) (Json.ofNat 2) :=
    (Option.some_inj.mp (table.symm.trans (by rfl)))
  subst same
  have each := kept (by decide +kernel) (by decide +kernel)
  refine And.intro assigned (List.eq_nil_iff_forall_not_mem.mpr fun row reported => ?_)
  obtain ⟨other, altered, same⟩ := List.mem_map.mp reported
  have inside : row ∈ [idRow (Json.ofNat 2), idRow (Json.ofNat 1)] :=
    List.mem_map.mpr (Exists.intro other (And.intro (List.mem_filter.mp altered).1 same))
  refine (each row inside ?_).1 reported
  cases List.mem_cons.mp inside with
  | inl second => exact second ▸ (by decide +kernel)
  | inr rest => exact List.mem_singleton.mp rest ▸ (by decide +kernel)

end ChuSQL.Storage.Mvcc
