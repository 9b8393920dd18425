import ChuSQL.Storage.BTree.Tree

/-! Insertion on stored trees: shape, pages and leaves of the result. None of
these facts needs the keys of different nodes to be ordered. -/

set_option autoImplicit false

namespace ChuSQL.Storage.BTree

open Library

/-! ### One leaf -/

theorem zip_fst_snd {α β : Type} (entries : List (α × β)) :
    (entries.map (·.1)).zip (entries.map (·.2)) = entries := by
  induction entries with
  | nil => rfl
  | cons entry entries ih => simp [ih]

theorem EntryLe.fst_le {first second : Key × Nat} (ordered : EntryLe first second) :
    first.1 ≤ second.1 := by
  rcases ordered with less | ⟨same, _⟩
  · exact le_of_lt less
  · exact le_of_eq same

theorem keys_sorted {entries : List (Key × Nat)} (sorted : entries.Pairwise EntryLe) :
    (entries.map (·.1)).Pairwise (· ≤ ·) :=
  List.pairwise_map.mpr (sorted.imp EntryLe.fst_le)

/-- `leafSlot` cuts sorted entries at the pair: strictly smaller entries lie
to its left, the rest to its right. -/
theorem leafSlot_cut {entries : List (Key × Nat)} (sorted : entries.Pairwise EntryLe)
    (key : Key) (value : Nat) :
    ∃ left right, entries = left ++ right ∧
      leafSlot (entries.map (·.1)) (entries.map (·.2)) key value = left.length ∧
      (∀ entry ∈ left, entry.1 < key ∨ entry.1 = key ∧ entry.2 < value) ∧
      ∀ entry ∈ right, EntryLe (key, value) entry := by
  obtain ⟨lowKeys, highKeys, split, count, below, above⟩ :=
    partitionPoint_lt_cut (keys_sorted sorted) key
      (fun k => decide (k < key)) (by simp)
  obtain ⟨low, high, rfl, rfl, rfl⟩ := List.map_eq_append_iff.mp split
  have highSorted := (List.pairwise_append.mp sorted).2.1
  have down : high.Pairwise fun first second =>
      (second.1 == key && decide (second.2 < value)) = true →
        (first.1 == key && decide (first.2 < value)) = true := by
    refine highSorted.imp_of_mem ?_
    intro first second firstIn _ ordered reached
    simp only [Bool.and_eq_true, beq_iff_eq, decide_eq_true_eq] at reached ⊢
    obtain ⟨same, smaller⟩ := reached
    have reachedKey := above first.1 (List.mem_map_of_mem firstIn)
    rcases ordered with less | ⟨equal, before⟩
    · exact absurd (same ▸ less) (not_lt_of_ge reachedKey)
    · exact ⟨equal.trans same, lt_of_le_of_lt before smaller⟩
  obtain ⟨equal, rest, rfl, equalCount, equalBelow, restAbove⟩ := partitionPoint_cut down
  refine ⟨low ++ equal, rest, by simp, ?_, ?_, ?_⟩
  · simp only [leafSlot, zip_fst_snd]
    rw [count, List.length_map, List.drop_left, equalCount, List.length_append]
  · intro entry member
    rcases List.mem_append.mp member with member | member
    · exact .inl (below entry.1 (List.mem_map_of_mem member))
    · simpa using Or.inr (a := entry.1 < key) (by simpa using equalBelow entry member)
  · intro entry member
    have reached := above entry.1
      (List.mem_map_of_mem (List.mem_append_right equal member))
    have outside := restAbove entry member
    simp only [Bool.and_eq_false_iff, beq_eq_false_iff_ne, decide_eq_false_iff_not,
      not_lt] at outside
    rcases lt_or_eq_of_le reached with less | same
    · exact .inl less
    · exact .inr ⟨same, outside.resolve_left fun different => different same.symm⟩

theorem EntryLe.antisymm {first second : Key × Nat} (forth : EntryLe first second)
    (back : EntryLe second first) : first = second := by
  rcases forth with less | ⟨same, before⟩
  · exact absurd less (not_lt_of_ge back.fst_le)
  · rcases back with less | ⟨_, after⟩
    · exact absurd less (not_lt_of_ge same.le)
    · exact Prod.ext same (le_antisymm before after)

/-- A pair that sorted entries hold stands where `leafSlot` says. -/
theorem leafSlot_found {entries : List (Key × Nat)} (sorted : entries.Pairwise EntryLe)
    {key : Key} {value : Nat} (member : (key, value) ∈ entries) :
    entries[leafSlot (entries.map (·.1)) (entries.map (·.2)) key value]? = some (key, value) := by
  obtain ⟨left, right, split, count, below, above⟩ := leafSlot_cut sorted key value
  rw [count]
  subst split
  rcases List.mem_append.mp member with before | after
  · rcases below _ before with less | ⟨_, less⟩
    · exact absurd less (lt_irrefl _)
    · exact absurd less (lt_irrefl _)
  · cases right with
    | nil => simp at after
    | cons head rest =>
        have headLe : EntryLe head (key, value) := by
          rcases List.mem_cons.mp after with same | later
          · exact same ▸ .inr ⟨rfl, le_refl _⟩
          · exact (List.pairwise_cons.mp (List.pairwise_append.mp sorted).2.1).1 _ later
        rw [getElem?_cut, (above head List.mem_cons_self).antisymm headLe]

theorem Leaf.add_entries {leaf : Leaf} (sorted : leaf.entries.Pairwise EntryLe)
    (key : Key) (value : Nat) :
    ∃ left right, leaf.entries = left ++ right ∧
      (leaf.add key value).entries = left ++ (key, value) :: right ∧
      (leaf.add key value).entries.Pairwise EntryLe := by
  obtain ⟨left, right, split, slot, below, above⟩ := leafSlot_cut sorted key value
  have placed : (leaf.add key value).entries = left ++ (key, value) :: right := by
    simp only [Leaf.add, slot]
    rw [split, insertIdx_cut]
  refine ⟨left, right, split, placed, ?_⟩
  rw [placed]
  rw [split] at sorted
  obtain ⟨leftSorted, rightSorted, across⟩ := List.pairwise_append.mp sorted
  refine List.pairwise_append.mpr ⟨leftSorted, List.pairwise_cons.mpr ⟨above, rightSorted⟩, ?_⟩
  intro first firstIn second secondIn
  rcases List.mem_cons.mp secondIn with rfl | secondIn
  · rcases below first firstIn with less | ⟨same, smaller⟩
    · exact .inl less
    · exact .inr ⟨same, le_of_lt smaller⟩
  · exact across first firstIn second secondIn

theorem Leaf.add_perm {leaf : Leaf} (sorted : leaf.entries.Pairwise EntryLe)
    (key : Key) (value : Nat) :
    (leaf.add key value).entries.Perm ((key, value) :: leaf.entries) := by
  obtain ⟨left, right, split, placed, _⟩ := Leaf.add_entries sorted key value
  rw [placed, split]
  exact List.perm_middle

/-- Cutting a leaf in the middle loses no entry. -/
theorem Leaf.settle_entries (order : Nat) (leaf : Leaf) (fresh : Nat) :
    (leaf.settle order fresh).1.trees.flatMap Leaf.entries = leaf.entries := by
  unfold Leaf.settle
  split <;> simp [Grown.trees]

/-- One entry over the bound is what `settle` expects. -/
theorem Leaf.Shaped.add {order limit : Nat} {leaf : Leaf} (shaped : leaf.Shaped order limit)
    (wide : 2 ≤ order) {key : Key} (short : key.length ≤ limit) (value : Nat) :
    (leaf.add key value).Shaped (order + 1) limit := by
  have perm := Leaf.add_perm shaped.sorted key value
  obtain ⟨_, _, _, _, sorted⟩ := Leaf.add_entries shaped.sorted key value
  refine ⟨?_, sorted, ?_⟩
  · have count := shaped.count
    simp only [maxKeys] at count ⊢
    rw [perm.length_eq, List.length_cons]
    omega
  · intro entry member
    rcases List.mem_cons.mp (perm.mem_iff.mp member) with rfl | member
    · exact short
    · exact shaped.short entry member

theorem Leaf.settle_shaped {order limit : Nat} {leaf : Leaf} (wide : 2 ≤ order)
    (shaped : leaf.Shaped (order + 1) limit) (fresh : Nat) :
    (∀ part ∈ (leaf.settle order fresh).1.trees, Leaf.Shaped order limit part) ∧
      ∀ sep ∈ (leaf.settle order fresh).1.seps, sep.length ≤ limit := by
  obtain ⟨count, sorted, short⟩ := shaped
  simp only [maxKeys] at count
  unfold Leaf.settle
  split
  · next fits =>
    simpa [Grown.trees, Grown.seps] using (⟨fits, sorted, short⟩ : Leaf.Shaped order limit leaf)
  · next crowded =>
    simp only [maxKeys] at crowded
    simp only [Grown.trees, Grown.seps, List.mem_cons, List.not_mem_nil, or_false,
      forall_eq_or_imp, forall_eq]
    refine ⟨⟨⟨?_, ?_, ?_⟩, ⟨?_, ?_, ?_⟩⟩, ?_⟩
    · simp only [List.length_take, maxKeys]; omega
    · exact sorted.sublist (List.take_sublist _ _)
    · intro entry member; exact short entry (List.mem_of_mem_take member)
    · simp only [List.length_drop, maxKeys]; omega
    · exact sorted.sublist (List.drop_sublist _ _)
    · intro entry member; exact short entry (List.mem_of_mem_drop member)
    · have inside : leaf.entries.length / 2 < leaf.entries.length := by omega
      simp only [List.getD_eq_getElem?_getD, List.getElem?_map, List.getElem?_eq_getElem inside,
        Option.map_some, Option.getD_some]
      exact short _ (List.getElem_mem inside)

/-! ### One branch -/

section Branch

variable {Child : Type} {order limit : Nat} {branch : Branch Child}

/-- The children around a slot. -/
theorem Branch.Shaped.child_cut (shaped : branch.Shaped order limit) {slot : Nat}
    (inside : slot ≤ branch.keys.length) :
    ∃ left child right, branch.children = left ++ child :: right ∧ left.length = slot :=
  exists_cut _ _ (by have := shaped.fanout; omega)

theorem childSlot_le (keys : List Key) (key : Key) : childSlot keys key ≤ keys.length :=
  partitionPoint_le _ keys

/-- Grafting puts the grown parts among the children. -/
theorem Branch.graft_children_perm {left right : List Child} {child : Child}
    (children : branch.children = left ++ child :: right)
    (fanout : branch.children.length = branch.keys.length + 1) (grown : Grown Child) :
    (branch.graft left.length grown).children.Perm (left ++ grown.trees ++ right) := by
  cases grown with
  | whole part => simp [Branch.graft, children, Grown.trees]
  | split first sep second =>
      simp only [Branch.graft, children, Grown.trees]
      have bound := partitionPoint_le (fun k => decide (k ≤ sep)) branch.keys
      refine (List.perm_insertIdx _ _ ?_).trans ?_
      · rw [children] at fanout
        simp only [List.length_set]
        omega
      · rw [set_cut]
        have moved : (second :: (left ++ [first] ++ right)).Perm (left ++ [first] ++ second :: right) :=
          List.perm_middle.symm
        simpa using moved

/-- A separator that lands in the slot its child came from keeps the
children in order. -/
theorem Branch.graft_children_eq {left right : List Child} {child : Child}
    (children : branch.children = left ++ child :: right) {grown : Grown Child}
    (placed : ∀ sep ∈ grown.seps,
      partitionPoint (fun k => k ≤ sep) branch.keys = left.length) :
    (branch.graft left.length grown).children = left ++ grown.trees ++ right := by
  cases grown with
  | whole part => simp [Branch.graft, children, Grown.trees]
  | split first sep second =>
      have here := placed sep (by simp [Grown.seps])
      simp only [Branch.graft, children, Grown.trees, here, set_cut]
      have shifted := insertIdx_cut (left ++ [first]) right second
      simpa using shifted

theorem Branch.settle_children (fresh : Nat) :
    (branch.settle order fresh).1.trees.flatMap Branch.children = branch.children := by
  unfold Branch.settle
  split <;> simp [Grown.trees]

theorem Branch.settle_children_subset {fresh : Nat} {part : Branch Child}
    (member : part ∈ (branch.settle order fresh).1.trees) :
    part.children ⊆ branch.children := by
  intro child inside
  rw [← Branch.settle_children fresh]
  exact List.mem_flatMap.mpr ⟨part, member, inside⟩

/-- Separators of equal or smaller value stay to the left of a new one. -/
theorem Branch.insert_sep_sorted {keys : List Key} (sorted : keys.Pairwise (· ≤ ·)) (sep : Key) :
    (keys.insertIdx (partitionPoint (fun k => k ≤ sep) keys) sep).Pairwise (· ≤ ·) := by
  obtain ⟨low, high, rfl, count, below, above⟩ :=
    partitionPoint_le_cut sorted sep (fun k => decide (k ≤ sep)) (by simp)
  rw [count, insertIdx_cut]
  obtain ⟨lowSorted, highSorted, across⟩ := List.pairwise_append.mp sorted
  refine List.pairwise_append.mpr ⟨lowSorted,
    List.pairwise_cons.mpr ⟨fun key member => le_of_lt (above key member), highSorted⟩, ?_⟩
  intro first firstIn second secondIn
  rcases List.mem_cons.mp secondIn with rfl | secondIn
  · exact below first firstIn
  · exact across first firstIn second secondIn

/-- A grafted branch gains as many children as keys. -/
theorem Branch.graft_fanout (fanout : branch.children.length = branch.keys.length + 1)
    (slot : Nat) (grown : Grown Child) :
    (branch.graft slot grown).children.length = (branch.graft slot grown).keys.length + 1 ∧
      (branch.graft slot grown).keys.length = branch.keys.length + grown.seps.length := by
  cases grown with
  | whole part => simpa [Branch.graft, Grown.seps] using fanout
  | split first sep second =>
      have bound := partitionPoint_le (fun k => decide (k ≤ sep)) branch.keys
      simp only [Branch.graft, Grown.seps, List.length_singleton]
      rw [List.length_insertIdx_of_le_length bound,
        List.length_insertIdx_of_le_length (by rw [List.length_set]; omega),
        List.length_set, fanout]
      exact ⟨rfl, rfl⟩

theorem Grown.seps_length {Subtree : Type} (grown : Grown Subtree) : grown.seps.length ≤ 1 := by
  cases grown <;> simp [Grown.seps]

theorem Branch.Shaped.graft (shaped : branch.Shaped order limit) (wide : 2 ≤ order)
    (slot : Nat) {grown : Grown Child} (short : ∀ sep ∈ grown.seps, sep.length ≤ limit) :
    (branch.graft slot grown).Shaped (order + 1) limit := by
  obtain ⟨count, fanout, sorted, shortKeys⟩ := shaped
  obtain ⟨grafted, keys⟩ := Branch.graft_fanout fanout slot grown
  have single := grown.seps_length
  simp only [maxKeys] at count
  refine ⟨by simp only [maxKeys]; omega, grafted, ?_, ?_⟩
  · cases grown with
    | whole part => exact sorted
    | split first sep second => exact Branch.insert_sep_sorted sorted sep
  · intro key member
    cases grown with
    | whole part => exact shortKeys key member
    | split first sep second =>
        rcases List.mem_cons.mp (List.insertIdx_subset_cons _ _ _ member) with rfl | member
        · exact short key (by simp [Grown.seps])
        · exact shortKeys key member

theorem Branch.settle_shaped (wide : 2 ≤ order) (shaped : branch.Shaped (order + 1) limit)
    (fresh : Nat) :
    (∀ part ∈ (branch.settle order fresh).1.trees, part.Shaped order limit) ∧
      ∀ sep ∈ (branch.settle order fresh).1.seps, sep.length ≤ limit := by
  obtain ⟨count, fanout, sorted, short⟩ := shaped
  simp only [maxKeys] at count
  unfold Branch.settle
  split
  · next fits =>
    simpa [Grown.trees, Grown.seps] using
      (⟨fits, fanout, sorted, short⟩ : branch.Shaped order limit)
  · next crowded =>
    simp only [maxKeys] at crowded
    simp only [Grown.trees, Grown.seps, List.mem_cons, List.not_mem_nil, or_false,
      forall_eq_or_imp, forall_eq]
    refine ⟨⟨⟨?_, ?_, ?_, ?_⟩, ⟨?_, ?_, ?_, ?_⟩⟩, ?_⟩
    · simp only [List.length_take, maxKeys]; omega
    · simp only [List.length_take]; omega
    · exact sorted.sublist (List.take_sublist _ _)
    · intro key member; exact short key (List.mem_of_mem_take member)
    · simp only [List.length_drop, maxKeys]; omega
    · simp only [List.length_drop]; omega
    · exact sorted.sublist (List.drop_sublist _ _)
    · intro key member; exact short key (List.mem_of_mem_drop member)
    · have inside : branch.keys.length / 2 < branch.keys.length := by omega
      simp only [List.getD_eq_getElem?_getD, List.getElem?_eq_getElem inside, Option.getD_some]
      exact short _ (List.getElem_mem inside)

end Branch

/-! ### Whole subtrees -/

namespace Tree

variable {order limit : Nat} {key : Key} {value : Nat}

variable (key value) in
/-- One level of an insertion into a well-shaped branch: the child the key
is sent to, what it grows into, and the branch settled around it. -/
theorem insert_branch {height : Nat} {branch : Branch (Tree height)}
    (shaped : branch.Shaped order limit) (fresh : Nat) :
    ∃ left child right, branch.children = left ++ child :: right ∧
      left.length = childSlot branch.keys key ∧
      insert order key value (height + 1) branch fresh =
        (branch.graft left.length (insert order key value height child fresh).1).settle order
          (insert order key value height child fresh).2 := by
  obtain ⟨left, child, right, split, count⟩ := shaped.child_cut (childSlot_le branch.keys key)
  refine ⟨left, child, right, split, count, ?_⟩
  have selected : branch.children[childSlot branch.keys key]? = some child := by
    rw [split, ← count, getElem?_cut]
  simp only [insert, selected, count]

variable (value) in
theorem insert_shaped (wide : 2 ≤ order) (short : key.length ≤ limit) :
    ∀ (height : Nat) (tree : Tree height) (fresh : Nat), Shaped order limit height tree →
      (∀ part ∈ (insert order key value height tree fresh).1.trees,
        Shaped order limit height part) ∧
      ∀ sep ∈ (insert order key value height tree fresh).1.seps, sep.length ≤ limit := by
  intro height
  induction height with
  | zero =>
      intro leaf fresh shaped
      exact Leaf.settle_shaped wide (Leaf.Shaped.add shaped wide short value) fresh
  | succ height ih =>
      rintro branch fresh ⟨shaped, children⟩
      obtain ⟨left, child, right, split, _, result⟩ :=
        insert_branch key value shaped fresh
      obtain ⟨grownShaped, sepShort⟩ := ih child fresh (children child (by simp [split]))
      rw [result]
      obtain ⟨parts, seps⟩ :=
        Branch.settle_shaped wide (shaped.graft wide left.length sepShort) _
      refine ⟨fun part member => ⟨parts part member, ?_⟩, seps⟩
      intro grandchild inside
      have grafted := (Branch.graft_children_perm split shaped.fanout _).mem_iff.mp
        (Branch.settle_children_subset member inside)
      simp only [List.mem_append] at grafted
      rcases grafted with (before | grown) | after
      · exact children grandchild (by simp [split, before])
      · exact grownShaped grandchild grown
      · exact children grandchild (by simp [split, after])

/-- Pages of the grown parts of a branch. -/
theorem settle_ids {height : Nat} (branch : Branch (Tree height)) (fresh : Nat) :
    ((branch.settle order fresh).1.trees.flatMap (ids (height + 1))).Perm
      (branch.id :: branch.children.flatMap (ids height) ++
        List.range' fresh ((branch.settle order fresh).2 - fresh)) := by
  unfold Branch.settle
  split
  · simp [Grown.trees, ids]
  · simp only [Grown.trees, List.flatMap_cons, List.flatMap_nil, List.append_nil, ids,
      Nat.add_sub_cancel_left, List.range'_one]
    have whole := (List.take_append_drop (branch.keys.length / 2 + 1) branch.children)
    rw [List.cons_append, List.cons_append]
    refine List.Perm.cons _ ?_
    refine List.perm_middle.trans ?_
    rw [← List.flatMap_append, whole]
    exact (List.perm_append_singleton _ _).symm

variable (order key value) in
theorem fresh_le_insert :
    ∀ (height : Nat) (tree : Tree height) (fresh : Nat),
      fresh ≤ (insert order key value height tree fresh).2 := by
  intro height
  induction height with
  | zero =>
      intro leaf fresh
      simp only [insert, Leaf.settle]
      split <;> simp
  | succ height ih =>
      intro branch fresh
      simp only [insert]
      split
      · exact le_refl _
      · next child _ =>
        have deeper := ih child fresh
        simp only [Branch.settle]
        split
        · exact deeper
        · exact le_trans deeper (Nat.le_succ _)

variable (key value) in
/-- The grown parts keep the pages of the subtree and take the fresh ones. -/
theorem insert_ids :
    ∀ (height : Nat) (tree : Tree height) (fresh : Nat), Shaped order limit height tree →
      ((insert order key value height tree fresh).1.trees.flatMap (ids height)).Perm
        (ids height tree ++
          List.range' fresh ((insert order key value height tree fresh).2 - fresh)) := by
  intro height
  induction height with
  | zero =>
      intro leaf fresh _
      simp only [insert, Leaf.settle]
      split <;> simp [Grown.trees, ids, Leaf.add]
  | succ height ih =>
      rintro branch fresh ⟨shaped, children⟩
      obtain ⟨left, child, right, split, _, result⟩ :=
        insert_branch key value shaped fresh
      have grown := ih child fresh (children child (by simp [split]))
      have deeper := fresh_le_insert order key value height child fresh
      rw [result]
      generalize insert order key value height child fresh = inserted at grown deeper ⊢
      obtain ⟨parts, next⟩ := inserted
      simp only at grown deeper ⊢
      have after : next ≤ ((branch.graft left.length parts).settle order next).2 := by
        unfold Branch.settle
        split <;> simp
      refine (settle_ids _ next).trans ?_
      have same : (branch.graft left.length parts).id = branch.id := by
        cases parts <;> rfl
      have merged := ((Branch.graft_children_perm split shaped.fanout parts).flatMap_right
        (ids height))
      simp only [List.flatMap_append] at merged
      generalize ((branch.graft left.length parts).settle order next).2 = last at after ⊢
      have ranges : List.range' fresh (last - fresh) =
          List.range' fresh (next - fresh) ++ List.range' next (last - next) := by
        rw [show last - fresh = (next - fresh) + (last - next) by omega, ← List.range'_append_1,
          show fresh + (next - fresh) = next by omega]
      rw [same, ranges]
      simp only [ids, split, List.flatMap_append, List.flatMap_cons, List.cons_append]
      refine List.Perm.cons _ ?_
      have inner := (merged.trans ((grown.append_left _).append_right _)).append_right
        (List.range' next (last - next))
      refine inner.trans ?_
      simp only [List.append_assoc]
      refine List.Perm.append_left _ (List.Perm.append_left _ ?_)
      rw [← List.append_assoc, ← List.append_assoc]
      exact List.Perm.append_right _ List.perm_append_comm

variable (key value) in
/-- The first grown part stays on the page of the subtree. -/
theorem insert_head_id :
    ∀ (height : Nat) (tree : Tree height) (fresh : Nat), Shaped order limit height tree →
      ((insert order key value height tree fresh).1.trees.head?.map (id height)) =
        some (id height tree) := by
  intro height
  cases height with
  | zero =>
      intro leaf fresh _
      simp only [insert, Leaf.settle]
      split <;> simp [Grown.trees, id, Leaf.add]
  | succ height =>
      rintro branch fresh ⟨shaped, _⟩
      obtain ⟨left, child, right, _, _, result⟩ :=
        insert_branch key value shaped fresh
      rw [result]
      generalize (insert order key value height child fresh).1 = parts
      have same : (branch.graft left.length parts).id = branch.id := by
        cases parts <;> rfl
      unfold Branch.settle
      split <;> simp [Grown.trees, id, same]

end Tree

end ChuSQL.Storage.BTree
