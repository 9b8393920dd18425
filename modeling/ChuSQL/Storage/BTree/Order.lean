import ChuSQL.Storage.BTree.Delete

/-! Order of the keys across a tree. Reading separators and leaf keys from left
to right gives a sorted list; a deletion keeps it so, and an insertion does when
each separator it hands up lands in the slot its child came from. -/

set_option autoImplicit false

namespace ChuSQL.Storage.BTree

open Library

/-! ### Weaving children and separators -/

/-- What follows the first child. -/
def weaveAfter (rest : List (List Key)) : List Key → List Key
  | [] => weave rest []
  | key :: keys => key :: weave rest keys

theorem weave_cons (child : List Key) (rest : List (List Key)) (keys : List Key) :
    weave (child :: rest) keys = child ++ weaveAfter rest keys := by
  cases keys <;> rfl

theorem weave_append {left right : List (List Key)} {low high : List Key}
    (same : left.length = low.length) :
    weave (left ++ right) (low ++ high) = weave left low ++ weave right high := by
  induction left generalizing low with
  | nil =>
      obtain rfl := List.eq_nil_of_length_eq_zero same.symm
      rfl
  | cons child left ih =>
      cases low with
      | nil => simp at same
      | cons key low => simp [weave, ih (Nat.succ.inj same)]

theorem sublist_weave {child : List Key} {children : List (List Key)} (member : child ∈ children)
    (keys : List Key) : child.Sublist (weave children keys) := by
  induction children generalizing keys with
  | nil => simp at member
  | cons first rest ih =>
      rw [weave_cons]
      rcases List.mem_cons.mp member with rfl | later
      · exact List.sublist_append_left _ _
      · cases keys with
        | nil => exact (ih later []).trans (List.sublist_append_right _ _)
        | cons key keys =>
            exact ((ih later keys).cons key).trans (List.sublist_append_right _ _)

theorem sublist_weaveAfter {child : List Key} {children : List (List Key)}
    (member : child ∈ children) (keys : List Key) : child.Sublist (weaveAfter children keys) := by
  cases keys with
  | nil => exact sublist_weave member []
  | cons key keys => exact (sublist_weave member keys).cons key

/-- Everything left of the last separator is bounded by the separators. -/
theorem weave_bounded {left : List (List Key)} {low : List Key} (same : left.length = low.length)
    (sorted : (weave left low).Pairwise (· ≤ ·)) {bound : Key → Prop}
    (down : ∀ first second, first ≤ second → bound second → bound first)
    (keys : ∀ key ∈ low, bound key) : ∀ key ∈ weave left low, bound key := by
  induction left generalizing low with
  | nil =>
      obtain rfl := List.eq_nil_of_length_eq_zero same.symm
      simp [weave]
  | cons child left ih =>
      cases low with
      | nil => simp at same
      | cons sep low =>
          simp only [weave] at sorted ⊢
          obtain ⟨_, sorted, across⟩ := List.pairwise_append.mp sorted
          have sepBound := keys sep List.mem_cons_self
          intro key member
          rcases List.mem_append.mp member with inChild | member
          · exact down key sep (across key inChild sep List.mem_cons_self) sepBound
          · rcases List.mem_cons.mp member with rfl | member
            · exact sepBound
            · exact ih (Nat.succ.inj same) (List.pairwise_cons.mp sorted).2
                (fun other inLow => keys other (List.mem_cons_of_mem _ inLow)) key member

/-- Everything right of a child is at least the separator that follows it. -/
theorem weaveAfter_bounded {right : List (List Key)} {high : List Key}
    (same : right.length = high.length) (sorted : (weaveAfter right high).Pairwise (· ≤ ·))
    {bound : Key} (keys : ∀ key ∈ high, bound < key) :
    ∀ key ∈ weaveAfter right high, bound < key := by
  cases high with
  | nil =>
      obtain rfl := List.eq_nil_of_length_eq_zero same
      simp [weaveAfter, weave]
  | cons sep high =>
      have sepBound := keys sep List.mem_cons_self
      intro key member
      rcases List.mem_cons.mp member with rfl | member
      · exact sepBound
      · exact lt_of_lt_of_le sepBound ((List.pairwise_cons.mp sorted).1 key member)

namespace Tree

variable {order limit : Nat} {key : Key} {value : Nat}

/-- The keys of a branch around one child. -/
theorem inorder_cut {height : Nat} (branch : Branch (Tree height))
    {left right : List (Tree height)} {child : Tree height} {low high : List Key}
    (split : branch.children = left ++ child :: right) (keys : branch.keys = low ++ high)
    (same : left.length = low.length) :
    inorder (height + 1) branch =
      weave (left.map (inorder height)) low ++
        (inorder height child ++ weaveAfter (right.map (inorder height)) high) := by
  simp only [inorder, split, keys, List.map_append, List.map_cons]
  rw [weave_append (by simpa using same), weave_cons]

private theorem weave_leaf_keys {height : Nat} {children : List (Tree height)}
    (each : ∀ child ∈ children,
      (((leaves height child).flatMap Leaf.entries).map (·.1)).Sublist (inorder height child))
    (keys : List Key) :
    (((children.flatMap (leaves height)).flatMap Leaf.entries).map (·.1)).Sublist
      (weave (children.map (inorder height)) keys) := by
  induction children generalizing keys with
  | nil => simp
  | cons child children ih =>
      have rest := ih fun other member => each other (List.mem_cons_of_mem _ member)
      simp only [List.flatMap_cons, List.flatMap_append, List.map_append, List.map_cons, weave_cons]
      refine (each child List.mem_cons_self).append ?_
      cases keys with
      | nil => exact rest []
      | cons key keys => exact (rest keys).cons _

/-- Leaf keys are among the keys of the tree, in the same order. -/
theorem leaf_keys_sublist :
    ∀ (height : Nat) (tree : Tree height),
      (((leaves height tree).flatMap Leaf.entries).map (·.1)).Sublist (inorder height tree) := by
  intro height
  induction height with
  | zero => intro leaf; simp [leaves, inorder]
  | succ height ih =>
      intro branch
      exact weave_leaf_keys (fun child _ => ih child) (Branch.keys branch)

theorem children_leaf_keys_sublist {height : Nat} (children : List (Tree height))
    (keys : List Key) :
    (((children.flatMap (leaves height)).flatMap Leaf.entries).map (·.1)).Sublist
      (weave (children.map (inorder height)) keys) :=
  weave_leaf_keys (fun child _ => leaf_keys_sublist height child) keys

/-! ### Deletion -/

theorem delete_inorder_sublist :
    ∀ (height : Nat) (tree changed : Tree height), Shaped order limit height tree →
      delete key value height tree = some changed →
      (inorder height changed).Sublist (inorder height tree) := by
  intro height
  induction height with
  | zero =>
      intro leaf changed _ deleted
      simp only [delete, Option.ite_none_right_eq_some] at deleted
      obtain ⟨_, same⟩ := deleted
      cases same
      exact (List.eraseIdx_sublist _ _).map _
  | succ height ih =>
      rintro branch changed ⟨shaped, children⟩ deleted
      obtain ⟨left, child, right, child', split, below, rfl⟩ := delete_branch shaped deleted
      have smaller := ih child child' (children child (by simp [split])) below
      obtain ⟨low, high, keys, same⟩ : ∃ low high, branch.keys = low ++ high ∧
          left.length = low.length := by
        refine ⟨branch.keys.take left.length, branch.keys.drop left.length,
          (List.take_append_drop _ _).symm, ?_⟩
        have := shaped.fanout
        rw [split] at this
        simp at this
        simp only [List.length_take]
        omega
      rw [inorder_cut _ split keys same,
        inorder_cut { branch with children := left ++ child' :: right } rfl keys same]
      exact (List.Sublist.refl _).append (smaller.append (List.Sublist.refl _))

/-- In a sorted tree a deletion that answers `none` has looked at every leaf
that could hold the pair. -/
theorem delete_none :
    ∀ (height : Nat) (tree : Tree height), Shaped order limit height tree →
      (inorder height tree).Pairwise (· ≤ ·) → delete key value height tree = none →
      (key, value) ∉ (leaves height tree).flatMap Leaf.entries := by
  intro height
  induction height with
  | zero =>
      intro leaf shaped _ kept member
      simp only [leaves, List.flatMap_cons, List.flatMap_nil, List.append_nil] at member
      simp [delete, leafSlot_found shaped.sorted member] at kept
  | succ height ih =>
      rintro branch ⟨shaped, children⟩ sorted kept member
      obtain ⟨leaf, inLeaf, entry⟩ := List.mem_flatMap.mp member
      obtain ⟨child, inside, inChild⟩ := List.mem_flatMap.mp inLeaf
      have keyInChild : key ∈ inorder height child := by
        refine (leaf_keys_sublist height child).subset (List.mem_map.mpr ⟨(key, value), ?_, rfl⟩)
        exact List.mem_flatMap.mpr ⟨leaf, inChild, entry⟩
      obtain ⟨left, right, split, first, last⟩ := window_cut shaped key
      have among := inside
      rw [split] at among
      rcases List.mem_append.mp among with among | after
      · rcases List.mem_append.mp among with before | looked
        · obtain ⟨low, high, keys, count, below, _⟩ := partitionPoint_lt_cut shaped.sorted
            key (fun k => decide (k < key)) (by simp)
          have same : (left.map (inorder height)).length = low.length := by
            rw [List.length_map, first, count]
          simp only [inorder, split, keys, List.append_assoc, List.map_append] at sorted
          rw [weave_append same] at sorted
          have bounded := weave_bounded same (List.pairwise_append.mp sorted).1
            (fun _ _ => lt_of_le_of_lt) below
          exact lt_irrefl key (bounded key
            ((sublist_weave (List.mem_map_of_mem before) low).subset keyInChild))
        · have untouched : delete key value height child = none := by
            simp only [delete, Option.map_eq_none_iff] at kept
            exact deleteChild_none kept child looked
          have childSorted :=
            sorted.sublist (sublist_weave (List.mem_map_of_mem inside) branch.keys)
          exact ih child (children child inside) childSorted untouched
            (List.mem_flatMap.mpr ⟨leaf, inChild, entry⟩)
      · obtain ⟨low, high, keys, count, _, above⟩ := partitionPoint_le_cut shaped.sorted
          key (fun k => decide (k ≤ key)) (by simp)
        obtain ⟨front, middle, whole⟩ : ∃ front middle,
            left ++ window branch key = front ++ [middle] := by
          rcases List.eq_nil_or_concat (left ++ window branch key) with empty | ⟨front, middle, whole⟩
          · rw [List.append_eq_nil_iff] at empty
            simp [empty.1, empty.2] at last
          · exact ⟨front, middle, by rw [whole, List.concat_eq_append]⟩
        have same : front.length = low.length := by
          have := congrArg List.length whole
          simp only [List.length_append, List.length_singleton] at this
          unfold childSlot at last
          omega
        have split' : branch.children = front ++ middle :: right := by
          rw [split, whole]
          simp
        have rest : right.length = high.length := by
          have := shaped.fanout
          simp only [split', keys, List.length_append, List.length_cons] at this
          omega
        rw [inorder_cut _ split' keys same] at sorted
        have bounded := weaveAfter_bounded (by simpa using rest)
          (List.pairwise_append.mp (List.pairwise_append.mp sorted).2.1).2.1 above
        exact lt_irrefl key (bounded key
          ((sublist_weaveAfter (List.mem_map_of_mem after) high).subset keyInChild))

end Tree

end ChuSQL.Storage.BTree
