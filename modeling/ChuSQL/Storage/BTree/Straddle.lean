import ChuSQL.Storage.BTree.Order

/-! When an insertion keeps the tree ordered. `insert_rec` finds the place of a
new separator by its value; that is the slot the child came from unless the
separator equals the one to the right of the child. Whether this happens can
be read off the tree before the insertion: the split hands up the middle key,
and the new key is smaller than the separator on the right. -/

set_option autoImplicit false

namespace ChuSQL.Storage.BTree

open Library

namespace Tree

variable {order limit : Nat} {key : Key} {value : Nat}

/-- Keys of the root node of a tree. -/
def rootKeys : (height : Nat) → Tree height → List Key
  | 0, leaf => (Leaf.entries leaf).map (·.1)
  | _ + 1, branch => Branch.keys branch

/-- Every node from the root of the tree to the leaf of the key is full, so that an
insertion cuts all of them. -/
def overflows (order : Nat) (key : Key) : (height : Nat) → Tree height → Bool
  | 0, leaf => maxKeys order ≤ (Leaf.entries leaf).length
  | height + 1, branch =>
      maxKeys order ≤ (Branch.keys branch).length &&
        ((Branch.children branch)[childSlot (Branch.keys branch) key]?).any (overflows order key height)

/-- On the way to the leaf of the key some node will be cut at a key that equals the
separator to its right. -/
def straddles (order : Nat) (key : Key) : (height : Nat) → Tree height → Bool
  | 0, _ => false
  | height + 1, branch =>
      let slot := childSlot (Branch.keys branch) key
      ((Branch.children branch)[slot]?).any fun child =>
        straddles order key height child ||
          overflows order key height child &&
            ((Branch.keys branch)[slot]?).any fun sep =>
              (rootKeys height child)[order / 2 - 1]? == some sep

/-- Keys of a grown subtree from left to right, the separator included. -/
def grownInorder (height : Nat) (grown : Grown (Tree height)) : List Key :=
  weave (grown.trees.map (inorder height)) grown.seps

theorem weave_grown {height : Nat} (grown : Grown (Tree height)) (rest : List (List Key))
    (high : List Key) :
    weave (grown.trees.map (inorder height) ++ rest) (grown.seps ++ high) =
      grownInorder height grown ++ weaveAfter rest high := by
  cases grown with
  | whole part => simp [grownInorder, Grown.trees, Grown.seps, weave_cons, weaveAfter, weave]
  | split first sep second =>
      simp [grownInorder, Grown.trees, Grown.seps, weave_cons, weaveAfter, weave]

theorem graft_keys_eq {Child : Type} {branch : Branch Child} {low high : List Key} (slot : Nat)
    {grown : Grown Child} (cut : branch.keys = low ++ high)
    (lands : ∀ sep ∈ grown.seps, partitionPoint (fun k => k ≤ sep) branch.keys = low.length) :
    (branch.graft slot grown).keys = low ++ (grown.seps ++ high) := by
  cases grown with
  | whole part => simpa [Branch.graft, Grown.seps] using cut
  | split first sep second =>
      have here := lands sep (by simp [Grown.seps])
      simp only [Branch.graft, Grown.seps, here]
      rw [cut, insertIdx_cut]
      rfl

/-- Settling a branch hands up a key that stood between the halves. -/
theorem settle_inorder {height : Nat} {branch : Branch (Tree height)}
    (fanout : branch.children.length = branch.keys.length + 1) (fresh : Nat) :
    grownInorder (height + 1) (branch.settle order fresh).1 = inorder (height + 1) branch := by
  unfold Branch.settle
  split
  · simp [grownInorder, Grown.trees, Grown.seps, weave]
  · next crowded =>
    simp only [maxKeys] at crowded
    obtain ⟨low, sep, high, keys, count⟩ :=
      exists_cut branch.keys (branch.keys.length / 2) (by omega)
    obtain ⟨front, child, back, children, place⟩ :=
      exists_cut branch.children (branch.keys.length / 2) (by omega)
    have same : (front.map (inorder height)).length = low.length := by
      rw [List.length_map, place, count]
    have takeChildren : branch.children.take (branch.keys.length / 2 + 1) = front ++ [child] := by
      rw [children, ← place, List.take_length_add_append]
      rfl
    have dropChildren : branch.children.drop (branch.keys.length / 2 + 1) = back := by
      rw [children, ← place]
      simp
    have takeKeys : branch.keys.take (branch.keys.length / 2) = low := by
      rw [← count]
      conv_lhs => rw [keys]
      simp
    have dropKeys : branch.keys.drop (branch.keys.length / 2 + 1) = high := by
      rw [← count]
      conv_lhs => rw [keys]
      simp
    have middle : branch.keys.getD (branch.keys.length / 2) [] = sep := by
      rw [← count]
      conv_lhs => rw [keys]
      simp
    simp only [grownInorder, Grown.trees, Grown.seps, List.map_cons, List.map_nil, inorder,
      takeChildren, dropChildren, takeKeys, dropKeys, middle, List.map_append]
    conv_rhs => rw [keys, children, List.map_append, List.map_cons, weave_append same]
    have alone := @weave_append _ [inorder height child] _ [] same
    rw [List.append_nil] at alone
    rw [alone]
    simp [weave]

/-- Settling a leaf repeats one of its keys as the separator. -/
theorem settle_leaf_inorder {leaf : Leaf} (fresh : Nat)
    (sorted : (leaf.entries.map (·.1)).Pairwise (· ≤ ·)) :
    (grownInorder 0 (leaf.settle order fresh).1).Pairwise (· ≤ ·) ∧
      ∀ k ∈ grownInorder 0 (leaf.settle order fresh).1, k ∈ leaf.entries.map (·.1) := by
  unfold Leaf.settle
  split
  · simpa [grownInorder, Grown.trees, Grown.seps, weave, inorder] using sorted
  · next crowded =>
    simp only [maxKeys] at crowded
    obtain ⟨front, entry, back, entries, place⟩ :=
      exists_cut leaf.entries (leaf.entries.length / 2) (by omega)
    have woven : grownInorder 0 (.split { leaf with
          next := fresh, entries := leaf.entries.take (leaf.entries.length / 2) }
          ((leaf.entries.map (·.1)).getD (leaf.entries.length / 2) [])
          { id := fresh, next := leaf.next,
            entries := leaf.entries.drop (leaf.entries.length / 2) }) =
        front.map (·.1) ++ entry.1 :: entry.1 :: back.map (·.1) := by
      rw [← place]
      conv_lhs => rw [entries]
      simp [grownInorder, Grown.trees, Grown.seps, weave, inorder]
    simp only [woven]
    rw [entries] at sorted ⊢
    simp only [List.map_append, List.map_cons] at sorted ⊢
    obtain ⟨frontSorted, backSorted, across⟩ := List.pairwise_append.mp sorted
    refine ⟨List.pairwise_append.mpr ⟨frontSorted, List.pairwise_cons.mpr ⟨?_, backSorted⟩, ?_⟩, ?_⟩
    · intro k member
      rcases List.mem_cons.mp member with rfl | later
      · exact le_refl _
      · exact (List.pairwise_cons.mp backSorted).1 k later
    · intro k before k' member
      rcases List.mem_cons.mp member with rfl | later
      · exact across k before _ List.mem_cons_self
      · exact across k before k' later
    · simp

/-- Around the child a key is sent to: smaller or equal keys on the left, larger ones on
the right. -/
theorem route_cut {height : Nat} {branch : Branch (Tree height)}
    (shaped : branch.Shaped order limit) (sorted : (inorder (height + 1) branch).Pairwise (· ≤ ·))
    {left right : List (Tree height)} {child : Tree height}
    (split : branch.children = left ++ child :: right)
    (count : left.length = childSlot branch.keys key) :
    ∃ low high, branch.keys = low ++ high ∧ low.length = left.length ∧
      (∀ k ∈ low, k ≤ key) ∧ (∀ k ∈ high, key < k) ∧
      inorder (height + 1) branch =
        weave (left.map (inorder height)) low ++
          (inorder height child ++ weaveAfter (right.map (inorder height)) high) ∧
      (∀ k ∈ weave (left.map (inorder height)) low, k ≤ key) ∧
      ∀ k ∈ weaveAfter (right.map (inorder height)) high, key < k := by
  obtain ⟨low, high, keys, place, below, above⟩ := partitionPoint_le_cut shaped.sorted
    key (fun k => decide (k ≤ key)) (by simp)
  have same : left.length = low.length := count.trans place
  have rest : right.length = high.length := by
    have := shaped.fanout
    simp only [split, keys, List.length_append, List.length_cons] at this
    omega
  have woven := inorder_cut _ split keys same
  rw [woven] at sorted
  obtain ⟨leftSorted, sorted, _⟩ := List.pairwise_append.mp sorted
  exact ⟨low, high, keys, same.symm, below, above, woven,
    weave_bounded (by simpa using same) leftSorted
      (fun _ _ => le_trans) below,
    weaveAfter_bounded (by simpa using rest) (List.pairwise_append.mp sorted).2.1 above⟩

variable (key value) in
/-- An insertion whose separators land keeps the keys sorted and brings in only
the new key. -/
theorem insert_inorder :
    ∀ (height : Nat) (tree : Tree height) (fresh : Nat), Shaped order limit height tree →
      (inorder height tree).Pairwise (· ≤ ·) → Lands order key value height tree fresh →
      (grownInorder height (insert order key value height tree fresh).1).Pairwise (· ≤ ·) ∧
        ∀ k ∈ grownInorder height (insert order key value height tree fresh).1,
          k = key ∨ k ∈ inorder height tree := by
  intro height
  induction height with
  | zero =>
      intro leaf fresh shaped _ _
      obtain ⟨left, right, split, placed, sorted⟩ := Leaf.add_entries shaped.sorted key value
      obtain ⟨grownSorted, members⟩ := settle_leaf_inorder fresh (keys_sorted sorted)
      refine ⟨grownSorted, fun k member => ?_⟩
      have among := members k member
      rw [placed] at among
      simp only [List.map_append, List.map_cons, List.mem_append, List.mem_cons] at among
      simp only [inorder, split, List.map_append, List.mem_append]
      tauto
  | succ height ih =>
      rintro branch fresh ⟨shaped, children⟩ sorted landed
      obtain ⟨left, child, right, split, count, result⟩ :=
        insert_branch key value shaped fresh
      obtain ⟨low, high, cut, place, _, _, woven, lowBound, highBound⟩ :=
        route_cut shaped sorted split count
      obtain ⟨here, below⟩ := landed child (by rw [split, ← count, getElem?_cut])
      rw [← count] at here
      have childSorted := sorted
      rw [woven] at childSorted
      obtain ⟨lowSorted, childSorted, lowAcross⟩ := List.pairwise_append.mp childSorted
      obtain ⟨childSorted, highSorted, highAcross⟩ := List.pairwise_append.mp childSorted
      obtain ⟨grownSorted, members⟩ :=
        ih child fresh (children child (by simp [split])) childSorted below
      have fanout := (Branch.graft_fanout shaped.fanout left.length
        (insert order key value height child fresh).1).1
      rw [result, settle_inorder fanout]
      generalize (insert order key value height child fresh).1 = grown at *
      have grafted : inorder (height + 1) (branch.graft left.length grown) =
          weave (left.map (inorder height)) low ++
            (grownInorder height grown ++ weaveAfter (right.map (inorder height)) high) := by
        have seps := graft_keys_eq left.length cut (place ▸ here)
        simp only [inorder, seps, Branch.graft_children_eq split here, List.map_append,
          List.append_assoc]
        rw [weave_append (by simpa using place.symm), weave_grown]
      rw [grafted]
      refine ⟨List.pairwise_append.mpr ⟨lowSorted, List.pairwise_append.mpr
        ⟨grownSorted, highSorted, ?_⟩, ?_⟩, ?_⟩
      · intro k inGrown k' after
        rcases members k inGrown with rfl | old
        · exact le_of_lt (highBound k' after)
        · exact highAcross k old k' after
      · intro k before k' later
        rcases List.mem_append.mp later with inGrown | after
        · rcases members k' inGrown with rfl | old
          · exact lowBound k before
          · exact lowAcross k before k' (List.mem_append_left _ old)
        · exact lowAcross k before k' (List.mem_append_right _ after)
      · intro k member
        rw [woven]
        simp only [List.mem_append] at member ⊢
        rcases member with before | inGrown | after
        · exact .inr (.inl before)
        · rcases members k inGrown with same | old
          · exact .inl same
          · exact .inr (.inr (.inl old))
        · exact .inr (.inr (.inr after))

/-! ### Separators land unless a cut straddles -/

theorem overflows_of_split :
    ∀ (height : Nat) (tree : Tree height) (fresh : Nat), Shaped order limit height tree →
      (insert order key value height tree fresh).1.seps ≠ [] → overflows order key height tree := by
  intro height
  induction height with
  | zero =>
      intro leaf fresh shaped cut
      have count := (Leaf.add_perm shaped.sorted key value).length_eq
      simp only [List.length_cons] at count
      simp only [insert, Leaf.settle] at cut
      split at cut
      · simp [Grown.seps] at cut
      · simp only [overflows, decide_eq_true_eq]
        omega
  | succ height ih =>
      rintro branch fresh ⟨shaped, children⟩ cut
      obtain ⟨left, child, right, split, count, result⟩ :=
        insert_branch key value shaped fresh
      have selected : branch.children[childSlot branch.keys key]? = some child := by
        rw [split, ← count, getElem?_cut]
      have below := ih child fresh (children child (by simp [split]))
      rw [result] at cut
      generalize (insert order key value height child fresh).1 = grown at *
      have length := (Branch.graft_fanout shaped.fanout left.length grown).2
      have single := grown.seps_length
      have full := shaped.count
      unfold Branch.settle at cut
      split at cut
      · simp [Grown.seps] at cut
      · have cutBelow : grown.seps ≠ [] := by
          intro none
          simp only [none, List.length_nil] at length
          omega
        simp only [overflows, selected, Option.any_some, below cutBelow, Bool.and_true,
          decide_eq_true_eq]
        omega

/-- The middle key of a cut node is below a bound when the key before the
middle was not the bound and the new key lies below it. -/
theorem middle_lt {left right : List Key} {added bound middle : Key}
    (enough : 3 ≤ (left ++ added :: right).length)
    (most : ∀ k ∈ left ++ added :: right, k ≤ bound) (leftBelow : ∀ k ∈ left, k < bound)
    (addedBelow : added < bound ∨ right = [])
    (other : (left ++ right)[(left ++ added :: right).length / 2 - 1]? ≠ some bound)
    (found : (left ++ added :: right)[(left ++ added :: right).length / 2]? = some middle) :
    middle < bound := by
  refine lt_of_le_of_ne (most middle (List.mem_of_getElem? found)) ?_
  rintro rfl
  generalize position : (left ++ added :: right).length / 2 = place at *
  simp only [List.length_append, List.length_cons] at position enough
  rcases Nat.lt_trichotomy place left.length with before | same | after
  · rw [List.getElem?_append_left before] at found
    exact lt_irrefl _ (leftBelow middle (List.mem_of_getElem? found))
  · rw [same, getElem?_cut, Option.some.injEq] at found
    rcases addedBelow with less | rfl
    · exact lt_irrefl _ (found ▸ less)
    · simp only [List.length_nil] at position enough
      omega
  · rw [List.getElem?_append_right (by omega),
      show place - left.length = (place - 1 - left.length) + 1 by omega,
      List.getElem?_cons_succ] at found
    rw [List.getElem?_append_right (by omega)] at other
    exact other found

theorem leaf_seps {leaf : Leaf} {fresh : Nat} {sep : Key}
    (member : sep ∈ (leaf.settle order fresh).1.seps) :
    maxKeys order < leaf.entries.length ∧
      (leaf.entries.map (·.1))[leaf.entries.length / 2]? = some sep := by
  unfold Leaf.settle at member
  split at member
  · simp [Grown.seps] at member
  · next crowded =>
    have inside : leaf.entries.length / 2 < leaf.entries.length := by omega
    simp only [Grown.seps, List.mem_singleton] at member
    refine ⟨by omega, ?_⟩
    simp [member, inside]

theorem branch_seps {Child : Type} {branch : Branch Child} {fresh : Nat} {sep : Key}
    (member : sep ∈ (branch.settle order fresh).1.seps) :
    maxKeys order < branch.keys.length ∧ branch.keys[branch.keys.length / 2]? = some sep := by
  unfold Branch.settle at member
  split at member
  · simp [Grown.seps] at member
  · next crowded =>
    have inside : branch.keys.length / 2 < branch.keys.length := by omega
    simp only [Grown.seps, List.mem_singleton] at member
    refine ⟨by omega, ?_⟩
    simp [member, inside]

theorem mem_weave_keys {children : List (List Key)} {keys : List Key} {k : Key}
    (member : k ∈ keys) : k ∈ weave children keys := by
  induction children generalizing keys with
  | nil => exact member
  | cons child children ih =>
      cases keys with
      | nil => simp at member
      | cons first keys =>
          rcases List.mem_cons.mp member with rfl | later
          · simp [weave]
          · simp [weave, ih later]

/-- Unless a cut straddles, separators land; and a tree whose own middle key
differs from an upper bound hands up a separator strictly below that bound. -/
theorem lands_of_not_straddles (wide : 3 ≤ order) :
    ∀ (height : Nat) (tree : Tree height) (fresh : Nat), Shaped order limit height tree →
      (inorder height tree).Pairwise (· ≤ ·) → straddles order key height tree = false →
      Lands order key value height tree fresh ∧
        ∀ bound, key < bound → (∀ k ∈ inorder height tree, k ≤ bound) →
          (overflows order key height tree → (rootKeys height tree)[order / 2 - 1]? ≠ some bound) →
          ∀ sep ∈ (insert order key value height tree fresh).1.seps, sep < bound := by
  intro height
  induction height with
  | zero =>
      intro leaf fresh shaped _ _
      refine ⟨trivial, fun bound less most other sep member => ?_⟩
      have full := other (overflows_of_split 0 leaf fresh shaped (List.ne_nil_of_mem member))
      obtain ⟨left, right, split, placed, sorted⟩ := Leaf.add_entries shaped.sorted key value
      obtain ⟨crowded, middle⟩ := leaf_seps member
      have length := (Leaf.add_perm shaped.sorted key value).length_eq
      have count := shaped.count
      simp only [maxKeys, List.length_cons] at crowded length count
      have exactly : (Leaf.add leaf key value).entries.length = order := by omega
      have sortedKeys := keys_sorted sorted
      rw [exactly, placed, List.map_append, List.map_cons] at middle
      rw [placed, List.map_append, List.map_cons] at sortedKeys
      have whole : (left.map (·.1) ++ key :: right.map (·.1)).length = order := by
        rw [← exactly, placed]
        simp
      simp only [rootKeys, split, List.map_append] at full
      simp only [inorder, split, List.map_append] at most
      refine middle_lt (by omega) ?_ ?_ (.inl less) (whole ▸ full) (whole ▸ middle)
      · intro k among
        simp only [List.mem_append, List.mem_cons] at among
        rcases among with before | rfl | after
        · exact most k (List.mem_append_left _ before)
        · exact le_of_lt less
        · exact most k (List.mem_append_right _ after)
      · intro k before
        exact lt_of_le_of_lt
          ((List.pairwise_append.mp sortedKeys).2.2 k before key List.mem_cons_self) less
  | succ height ih =>
      rintro branch fresh ⟨shaped, children⟩ sorted apart
      obtain ⟨left, child, right, split, count, result⟩ :=
        insert_branch key value shaped fresh
      obtain ⟨low, high, cut, place, lowLe, highGt, woven, _, _⟩ :=
        route_cut shaped sorted split count
      have selected : (Branch.children branch)[childSlot (Branch.keys branch) key]? = some child := by
        rw [split, ← count, getElem?_cut]
      simp only [straddles, selected, Option.any_some, Bool.or_eq_false_iff] at apart
      obtain ⟨apart, noMeet⟩ := apart
      have childShaped := children child (by simp [split])
      have sortedCut := sorted
      rw [woven] at sortedCut
      obtain ⟨_, restSorted, lowAcross⟩ := List.pairwise_append.mp sortedCut
      obtain ⟨childSorted, _, highAcross⟩ := List.pairwise_append.mp restSorted
      obtain ⟨below, bounds⟩ := ih child fresh childShaped childSorted apart
      obtain ⟨_, members⟩ := insert_inorder key value height child fresh childShaped
        childSorted below
      have sepAmong : ∀ sep ∈ (insert order key value height child fresh).1.seps,
          sep = key ∨ sep ∈ inorder height child := fun sep member =>
        members sep (mem_weave_keys member)
      -- the separator stays below the one to the right of the child
      have sepLt : ∀ sep ∈ (insert order key value height child fresh).1.seps,
          ∀ k ∈ high, sep < k := by
        intro sep member k after
        cases high with
        | nil => simp at after
        | cons next high =>
            have nextLt : sep < next := by
              refine bounds next (highGt next List.mem_cons_self) ?_ ?_ sep member
              · intro k inChild
                exact highAcross k inChild next (by simp [weaveAfter])
              · intro full meets
                have here : (Branch.keys branch)[childSlot (Branch.keys branch) key]? = some next := by
                  rw [← count, ← place, cut, getElem?_cut]
                simp [full, here, meets] at noMeet
            rcases List.mem_cons.mp after with rfl | later
            · exact nextLt
            · have keysSorted := shaped.sorted
              rw [cut] at keysSorted
              exact lt_of_lt_of_le nextLt ((List.pairwise_cons.mp
                (List.pairwise_append.mp keysSorted).2.1).1 k later)
      have lands : ∀ sep ∈ (insert order key value height child fresh).1.seps,
          partitionPoint (fun k => k ≤ sep) (Branch.keys branch) = low.length := by
        intro sep member
        rw [cut]
        refine partitionPoint_append (fun k inLow => decide_eq_true ?_)
          (fun k inHigh => decide_eq_false (not_le_of_gt (sepLt sep member k inHigh)))
        rcases sepAmong sep member with rfl | old
        · exact lowLe k inLow
        · exact lowAcross k (mem_weave_keys inLow) sep (List.mem_append_left _ old)
      refine ⟨?_, fun bound less most other sep member => ?_⟩
      · intro chosen found
        obtain rfl : child = chosen := Option.some.inj (selected.symm.trans found)
        exact ⟨fun sep member => (lands sep member).trans (place.trans count), below⟩
      · have full := other (overflows_of_split (height + 1) branch fresh ⟨shaped, children⟩
          (List.ne_nil_of_mem member))
        rw [result] at member
        generalize (insert order key value height child fresh).1 = grown at *
        obtain ⟨crowded, middle⟩ := branch_seps member
        have length := (Branch.graft_fanout shaped.fanout left.length grown).2
        have single := grown.seps_length
        have most' := shaped.count
        simp only [maxKeys] at crowded most'
        have exactly : (branch.graft left.length grown).keys.length = order := by omega
        obtain ⟨added, seps⟩ : ∃ added, grown.seps = [added] :=
          List.length_eq_one_iff.mp (by omega)
        rw [exactly, graft_keys_eq _ cut lands, seps, List.singleton_append] at middle
        have whole : (low ++ added :: high).length = order := by
          rw [← exactly, graft_keys_eq _ cut lands, seps, List.singleton_append]
        have addedIn : added ∈ grown.seps := by simp [seps]
        simp only [rootKeys, cut] at full
        have keysLe : ∀ k ∈ low ++ high, k ≤ bound := by
          intro k among
          refine most k (mem_weave_keys ?_)
          rwa [cut]
        refine middle_lt (by omega) ?_ (fun k inLow => lt_of_le_of_lt (lowLe k inLow) less) ?_
          (whole ▸ full) (whole ▸ middle)
        · intro k among
          simp only [List.mem_append, List.mem_cons] at among
          rcases among with before | rfl | after
          · exact keysLe k (List.mem_append_left _ before)
          · rcases sepAmong k addedIn with rfl | old
            · exact le_of_lt less
            · refine most k ?_
              rw [woven]
              simp [old]
          · exact keysLe k (List.mem_append_right _ after)
        · cases high with
          | nil => exact .inr rfl
          | cons next high =>
              refine .inl (lt_of_lt_of_le (sepLt added addedIn next List.mem_cons_self) ?_)
              exact keysLe next (by simp)

end Tree

end ChuSQL.Storage.BTree
