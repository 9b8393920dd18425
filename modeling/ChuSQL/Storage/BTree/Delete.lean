import ChuSQL.Storage.BTree.Leaves

/-! Deletion on trees: one pair leaves one leaf, and nothing else of the tree
changes. -/

set_option autoImplicit false

namespace ChuSQL.Storage.BTree

open Library

namespace Tree

variable {order limit : Nat} {key : Key} {value : Nat}

theorem deleteChild_some {Child : Type} {delete : Child → Option Child}
    {children : List Child} {position place : Nat} {changed : Child}
    (deleted : deleteChild delete position children = some (place, changed)) :
    ∃ left child right, children = left ++ child :: right ∧
      place = position + left.length ∧ delete child = some changed := by
  induction children generalizing position with
  | nil => simp [deleteChild] at deleted
  | cons child rest ih =>
      unfold deleteChild at deleted
      cases attempt : delete child with
      | some result =>
          simp only [attempt, Option.some.injEq, Prod.mk.injEq] at deleted
          obtain ⟨rfl, rfl⟩ := deleted
          exact ⟨[], child, rest, rfl, rfl, attempt⟩
      | none =>
          simp only [attempt] at deleted
          obtain ⟨left, found, right, split, place, deleted⟩ := ih deleted
          exact ⟨child :: left, found, right, by simp [split],
            by simp only [List.length_cons]; omega, deleted⟩

theorem deleteChild_none {Child : Type} {delete : Child → Option Child}
    {children : List Child} {position : Nat}
    (kept : deleteChild delete position children = none) :
    ∀ child ∈ children, delete child = none := by
  induction children generalizing position with
  | nil => simp
  | cons child rest ih =>
      unfold deleteChild at kept
      cases attempt : delete child with
      | some result => simp [attempt] at kept
      | none =>
          simp only [attempt] at kept
          simpa [attempt] using ih kept

/-- A key has no more separators strictly below it than at or below it. -/
theorem first_le_childSlot (keys : List Key) (key : Key) :
    partitionPoint (fun k => k < key) keys ≤ childSlot keys key := by
  unfold childSlot
  refine partitionPoint_mono fun sep less => ?_
  exact decide_eq_true (le_of_lt (of_decide_eq_true less))

/-- The children of a branch around those a deletion looks at. -/
theorem window_cut {Child : Type} {branch : Branch Child} (shaped : branch.Shaped order limit)
    (key : Key) :
    ∃ left right, branch.children = left ++ window branch key ++ right ∧
      left.length = partitionPoint (fun k => k < key) branch.keys ∧
      left.length + (window branch key).length = childSlot branch.keys key + 1 := by
  have ordered := first_le_childSlot branch.keys key
  have bounded := partitionPoint_le (fun k => decide (k ≤ key)) branch.keys
  have fanout := shaped.fanout
  refine ⟨branch.children.take (partitionPoint (fun k => k < key) branch.keys),
    (branch.children.drop (partitionPoint (fun k => k < key) branch.keys)).drop
      (childSlot branch.keys key + 1 - partitionPoint (fun k => k < key) branch.keys), ?_, ?_, ?_⟩
  · simp only [window, List.append_assoc, List.take_append_drop]
  · rw [List.length_take]
    unfold childSlot at ordered
    omega
  · simp only [window, List.length_take, List.length_drop]
    unfold childSlot at ordered ⊢
    omega

theorem deleteChild_branch {height place : Nat} {branch : Branch (Tree height)}
    {child' : Tree height} (shaped : branch.Shaped order limit)
    (found : deleteChild (delete key value height)
      (partitionPoint (fun k => k < key) branch.keys) (window branch key) = some (place, child')) :
    ∃ left child right, branch.children = left ++ child :: right ∧ place = left.length ∧
      delete key value height child = some child' := by
  obtain ⟨inside, child, beyond, cut, rfl, deleted⟩ := deleteChild_some found
  obtain ⟨left, right, whole, count, _⟩ := window_cut shaped key
  rw [cut] at whole
  refine ⟨left ++ inside, child, beyond ++ right, by simp [whole], ?_, deleted⟩
  rw [← count, List.length_append]

/-- Deletion below a branch happens in exactly one child. -/
theorem delete_branch {height : Nat} {branch : Branch (Tree height)} {changed : Tree (height + 1)}
    (shaped : branch.Shaped order limit)
    (deleted : delete key value (height + 1) branch = some changed) :
    ∃ left child right child', branch.children = left ++ child :: right ∧
      delete key value height child = some child' ∧
      changed = ({ branch with children := left ++ child' :: right } : Branch (Tree height)) := by
  simp only [delete, Option.map_eq_some_iff] at deleted
  obtain ⟨⟨place, child'⟩, found, rfl⟩ := deleted
  obtain ⟨left, child, right, split, rfl, below⟩ := deleteChild_branch shaped found
  refine ⟨left, child, right, child', split, below, ?_⟩
  rw [split, set_cut]

theorem delete_ids :
    ∀ (height : Nat) (tree changed : Tree height), Shaped order limit height tree →
      delete key value height tree = some changed →
      id height changed = id height tree ∧ ids height changed = ids height tree := by
  intro height
  induction height with
  | zero =>
      intro leaf changed _ deleted
      simp only [delete, Option.ite_none_right_eq_some] at deleted
      obtain ⟨_, same⟩ := deleted
      cases same
      exact ⟨rfl, rfl⟩
  | succ height ih =>
      rintro branch changed ⟨shaped, children⟩ deleted
      obtain ⟨left, child, right, child', split, below, rfl⟩ := delete_branch shaped deleted
      have same := (ih child child' (children child (by simp [split])) below).2
      simp [id, ids, split, same]

theorem delete_shaped :
    ∀ (height : Nat) (tree changed : Tree height), Shaped order limit height tree →
      delete key value height tree = some changed → Shaped order limit height changed := by
  intro height
  induction height with
  | zero =>
      rintro leaf changed ⟨count, sorted, short⟩ deleted
      simp only [delete, Option.ite_none_right_eq_some] at deleted
      obtain ⟨_, same⟩ := deleted
      cases same
      refine ⟨le_trans (List.length_eraseIdx_le _ _) count,
        sorted.sublist (List.eraseIdx_sublist _ _), fun entry member => ?_⟩
      exact short entry (List.mem_of_mem_eraseIdx member)
  | succ height ih =>
      rintro branch changed ⟨shaped, children⟩ deleted
      obtain ⟨left, child, right, child', split, below, rfl⟩ := delete_branch shaped deleted
      have childShaped := ih child child' (children child (by simp [split])) below
      refine ⟨⟨shaped.count, ?_, shaped.sorted, shaped.short⟩, ?_⟩
      · simpa [split] using shaped.fanout
      · intro other member
        rcases List.mem_append.mp member with before | member
        · exact children other (by simp [split, before])
        · rcases List.mem_cons.mp member with rfl | after
          · exact childShaped
          · exact children other (by simp [split, after])

/-- A deletion takes the pair from one leaf. -/
theorem delete_leaves :
    ∀ (height : Nat) (tree changed : Tree height), Shaped order limit height tree →
      delete key value height tree = some changed →
      ∃ before leaf after first rest, leaves height tree = before ++ leaf :: after ∧
        leaf.entries = first ++ (key, value) :: rest ∧
        leaves height changed = before ++ { leaf with entries := first ++ rest } :: after := by
  intro height
  induction height with
  | zero =>
      intro leaf changed _ deleted
      simp only [delete, Option.ite_none_right_eq_some] at deleted
      obtain ⟨found, same⟩ := deleted
      cases same
      obtain ⟨inside, here⟩ := List.getElem?_eq_some_iff.mp found
      obtain ⟨first, pair, rest, split, count⟩ := exists_cut _ _ inside
      have pairSame : pair = (key, value) := by
        have := found
        rw [← count, split, getElem?_cut] at this
        exact Option.some.inj this
      subst pairSame
      refine ⟨[], leaf, [], first, rest, rfl, split, ?_⟩
      rw [← count, split, eraseIdx_cut]
      rfl
  | succ height ih =>
      rintro branch changed ⟨shaped, children⟩ deleted
      obtain ⟨left, child, right, child', split, below, rfl⟩ := delete_branch shaped deleted
      obtain ⟨before, leaf, after, first, rest, inChild, entries, result⟩ :=
        ih child child' (children child (by simp [split])) below
      refine ⟨left.flatMap (leaves height) ++ before, leaf,
        after ++ right.flatMap (leaves height), first, rest, ?_, entries, ?_⟩
      · simp [leaves, split, inChild]
      · simp [leaves, result]

end Tree

end ChuSQL.Storage.BTree
