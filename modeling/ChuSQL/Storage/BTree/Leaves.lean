import ChuSQL.Storage.BTree.Insert

/-! What an insertion and a deletion do to the leaves of a tree, and the chain
that links the leaves. A separator may land outside the slot its child came
from; the children of a branch are then permuted, but no leaf is lost and the
first child stays first. -/

set_option autoImplicit false

namespace ChuSQL.Storage.BTree

open Library

/-- The leaves follow each other from a page on, and the last one ends with
page 0. -/
def Linked : Nat → List Leaf → Prop
  | start, [] => start = 0
  | start, leaf :: rest => leaf.id = start ∧ Linked leaf.next rest

theorem Leaf.settle_head_id (order : Nat) (leaf : Leaf) (fresh : Nat) :
    ((leaf.settle order fresh).1.trees.head?.map Leaf.id) = some leaf.id := by
  unfold Leaf.settle
  split <;> simp [Grown.trees]

/-- A settled leaf takes the place of the leaf in the chain. -/
theorem Linked.settle {before after : List Leaf} {leaf : Leaf} (order fresh : Nat) :
    ∀ {start : Nat}, Linked start (before ++ leaf :: after) →
      Linked start (before ++ (leaf.settle order fresh).1.trees ++ after) := by
  induction before with
  | nil =>
      intro start linked
      unfold Leaf.settle
      split
      · simpa [Grown.trees] using linked
      · simpa [Grown.trees, Linked] using linked
  | cons head before ih =>
      rintro start ⟨same, linked⟩
      exact ⟨same, ih linked⟩

/-- Changing only the entries of a leaf keeps the chain. -/
theorem Linked.change {before after : List Leaf} {leaf changed : Leaf}
    (sameId : changed.id = leaf.id) (sameNext : changed.next = leaf.next) :
    ∀ {start : Nat}, Linked start (before ++ leaf :: after) →
      Linked start (before ++ changed :: after) := by
  induction before with
  | nil =>
      intro start linked
      simpa [Linked, sameId, sameNext] using linked
  | cons head before ih =>
      rintro start ⟨same, linked⟩
      exact ⟨same, ih linked⟩

theorem Linked.suffix {before after : List Leaf} {leaf : Leaf} :
    ∀ {start : Nat}, Linked start (before ++ leaf :: after) → Linked leaf.id (leaf :: after) := by
  induction before with
  | nil => intro start linked; exact ⟨rfl, linked.2⟩
  | cons head before ih => intro start linked; exact ih linked.2

namespace Tree

variable {order limit : Nat} {key : Key} {value : Nat}

theorem leaves_ne_nil :
    ∀ (height : Nat) (tree : Tree height), Shaped order limit height tree →
      leaves height tree ≠ [] := by
  intro height
  induction height with
  | zero => intro leaf _; simp [leaves]
  | succ height ih =>
      rintro branch ⟨shaped, children⟩
      obtain ⟨left, child, right, split, _⟩ := shaped.child_cut (Nat.zero_le _)
      simp only [leaves, split, List.flatMap_append, List.flatMap_cons]
      simp [ih child (children child (by simp [split]))]

theorem leaves_shaped :
    ∀ (height : Nat) (tree : Tree height), Shaped order limit height tree →
      ∀ leaf ∈ leaves height tree, Leaf.Shaped order limit leaf := by
  intro height
  induction height with
  | zero =>
      intro leaf shaped part member
      rw [List.mem_singleton.mp member]
      exact shaped
  | succ height ih =>
      rintro branch ⟨_, children⟩ leaf member
      obtain ⟨child, inside, member⟩ := List.mem_flatMap.mp member
      exact ih child (children child inside) leaf member

theorem leaf_ids_sublist :
    ∀ (height : Nat) (tree : Tree height),
      ((leaves height tree).map Leaf.id).Sublist (ids height tree) := by
  intro height
  induction height with
  | zero => intro leaf; simp [leaves, ids]
  | succ height ih =>
      intro branch
      simp only [leaves, ids, List.map_flatMap]
      refine List.Sublist.cons _ ?_
      exact List.Sublist.flatMap_right _ fun child _ => ih child

/-- The leaf a descent ends at when `slot` chooses the child. -/
def reach (slot : List Key → Nat) : (height : Nat) → Tree height → Option Leaf
  | 0, leaf => some leaf
  | height + 1, branch =>
      (Branch.children branch)[slot (Branch.keys branch)]?.bind (reach slot height)

/-- Always taking the first child ends at the first leaf. -/
theorem reach_first :
    ∀ (height : Nat) (tree : Tree height), Shaped order limit height tree →
      reach (fun _ => 0) height tree = (leaves height tree).head? := by
  intro height
  induction height with
  | zero => intro leaf _; rfl
  | succ height ih =>
      rintro branch ⟨shaped, children⟩
      obtain ⟨left, child, right, split, count⟩ := shaped.child_cut (Nat.zero_le _)
      obtain rfl := List.eq_nil_of_length_eq_zero count
      have childShaped := children child (by simp [split])
      have filled := leaves_ne_nil height child childShaped
      simp only [List.nil_append] at split
      simp only [reach, leaves, split, List.getElem?_cons_zero, Option.bind_some,
        List.flatMap_cons, ih child childShaped]
      rw [List.head?_append_of_ne_nil _ filled]

/-- The separators handed up by an insertion land in the slots their children
came from. -/
def Lands (order : Nat) (key : Key) (value : Nat) :
    (height : Nat) → Tree height → Nat → Prop
  | 0, _, _ => True
  | height + 1, branch, fresh =>
      ∀ child, (Branch.children branch)[childSlot (Branch.keys branch) key]? = some child →
        (∀ sep ∈ (insert order key value height child fresh).1.seps,
          partitionPoint (fun k => k ≤ sep) (Branch.keys branch) =
            childSlot (Branch.keys branch) key) ∧
        Lands order key value height child fresh

/-- Leaves below the children of a branch, the first one first. -/
private theorem head_flatMap {height : Nat} {first : Tree height} {rest : List (Tree height)}
    (shaped : Shaped order limit height first) :
    ((first :: rest).flatMap (leaves height)).head? = (leaves height first).head? := by
  have filled := leaves_ne_nil height first shaped
  rw [List.flatMap_cons, List.head?_append_of_ne_nil _ filled]

/-- Grafting keeps the first child, or puts the first grown part in its place. -/
theorem graft_head {Child : Type} {branch : Branch Child} {left right : List Child}
    {child : Child} (split : branch.children = left ++ child :: right) (grown : Grown Child) :
    (branch.graft left.length grown).children.head? = (left ++ grown.trees ++ right).head? := by
  cases grown with
  | whole part => simp [Branch.graft, split, Grown.trees]
  | split first sep second =>
      simp only [Branch.graft, split, set_cut, Grown.trees]
      cases left <;> simp

/-- An insertion settles one leaf; the other leaves are untouched. -/
theorem insert_leaves (wide : 2 ≤ order) (short : key.length ≤ limit) :
    ∀ (height : Nat) (tree : Tree height) (fresh : Nat), Shaped order limit height tree →
      ∃ before leaf after, leaves height tree = before ++ leaf :: after ∧
        reach (fun keys => childSlot keys key) height tree = some leaf ∧
        let settled := before ++ ((leaf.add key value).settle order fresh).1.trees ++ after
        let grown := (insert order key value height tree fresh).1.trees.flatMap (leaves height)
        grown.Perm settled ∧ grown.head? = settled.head? ∧
          (Lands order key value height tree fresh → grown = settled) := by
  intro height
  induction height with
  | zero =>
      intro leaf fresh _
      refine ⟨[], leaf, [], rfl, rfl, ?_⟩
      have single : ∀ parts : List Leaf, parts.flatMap (leaves 0) = parts := by
        intro parts
        simp [leaves]
      simp [insert, single]
  | succ height ih =>
      rintro branch fresh ⟨shaped, children⟩
      obtain ⟨left, child, right, split, count, result⟩ :=
        insert_branch key value shaped fresh
      have childShaped := children child (by simp [split])
      obtain ⟨before, leaf, after, inChild, reached, perm, head, exact'⟩ :=
        ih child fresh childShaped
      have partsShaped := (insert_shaped value wide short height child fresh childShaped).1
      have whole : leaves (height + 1) branch =
          (left.flatMap (leaves height) ++ before) ++ leaf ::
            (after ++ right.flatMap (leaves height)) := by
        simp [leaves, split, inChild]
      refine ⟨_, leaf, _, whole, by simp [reach, split, ← count, reached], ?_⟩
      rw [result]
      have lands : Lands order key value (height + 1) branch fresh →
          (∀ sep ∈ (insert order key value height child fresh).1.seps,
            partitionPoint (fun k => k ≤ sep) branch.keys = left.length) ∧
          Lands order key value height child fresh := by
        intro landed
        rw [count]
        exact landed child (by rw [split, ← count, getElem?_cut])
      generalize insert order key value height child fresh = inserted at *
      obtain ⟨parts, next⟩ := inserted
      have flattened : ((branch.graft left.length parts).settle order next).1.trees.flatMap
          (leaves (height + 1)) =
            (branch.graft left.length parts).children.flatMap (leaves height) := by
        rw [← Branch.settle_children next, List.flatMap_assoc]
        rfl
      have regrouped : ∀ middle : List Leaf,
          left.flatMap (leaves height) ++ before ++ middle ++
              (after ++ right.flatMap (leaves height)) =
            left.flatMap (leaves height) ++ (before ++ middle ++ after) ++
              right.flatMap (leaves height) := by
        intro middle
        simp only [List.append_assoc]
      simp only [flattened, regrouped]
      refine ⟨?_, ?_, ?_⟩
      · have grafted := (Branch.graft_children_perm split shaped.fanout parts).flatMap_right
          (leaves height)
        simp only [List.flatMap_append] at grafted
        exact grafted.trans ((perm.append_left _).append_right _)
      · have first := graft_head split parts
        cases left with
        | nil =>
            obtain ⟨part, rest, trees⟩ := Grown.trees_cons parts
            have partShaped := partsShaped part (by simp [trees])
            obtain ⟨others, grafted⟩ : ∃ others,
                (branch.graft 0 parts).children = part :: others := by
              have := first
              simp only [List.length_nil, trees, List.nil_append, List.cons_append,
                List.head?_cons, List.head?_eq_some_iff] at this
              exact this
            simp only [List.length_nil, grafted, head_flatMap partShaped]
            rw [trees, head_flatMap partShaped] at head
            have filled : before ++ ((leaf.add key value).settle order fresh).1.trees ++ after ≠ [] := by
              intro empty
              rw [empty, List.head?_nil, List.head?_eq_none_iff] at head
              exact leaves_ne_nil height part partShaped head
            simp only [List.flatMap_nil, List.nil_append]
            rw [List.head?_append_of_ne_nil _ filled, head]
        | cons outer left =>
            have outerShaped := children outer (by simp [split])
            obtain ⟨others, grafted⟩ : ∃ others,
                (branch.graft (outer :: left).length parts).children = outer :: others := by
              have := first
              simp only [List.cons_append, List.head?_cons, List.head?_eq_some_iff] at this
              exact this
            have filled := leaves_ne_nil height outer outerShaped
            rw [grafted, head_flatMap outerShaped]
            simp only [List.flatMap_cons, List.append_assoc]
            rw [List.head?_append_of_ne_nil _ filled]
      · intro landed
        obtain ⟨here, below⟩ := lands landed
        rw [Branch.graft_children_eq split here]
        simp only [List.flatMap_append, exact' below]

end Tree

end ChuSQL.Storage.BTree
