import ChuSQL.Storage.BTree.Scan

/-! What an index file holds between two operations, and what insertion and
deletion make of it. -/

set_option autoImplicit false

namespace ChuSQL.Storage.BTree

open Library

/-- Nothing, or a tree with its leaves in the order of the leaf chain. -/
inductive Content where
  | empty
  | tree (height : Nat) (root : Tree height) (chain : List Leaf)

namespace Content

def rootId : Content → Nat
  | empty => 0
  | tree height root _ => Tree.id height root

def leaves : Content → List Leaf
  | empty => []
  | tree height root _ => Tree.leaves height root

def chain : Content → List Leaf
  | empty => []
  | tree _ _ chain => chain

/-- Entries in the order of the leaf chain. -/
def entries (content : Content) : List (Key × Nat) := content.chain.flatMap Leaf.entries

/-- The tree is sorted and the chain runs from left to right. -/
def Ordered : Content → Prop
  | empty => True
  | tree height root chain =>
      (Tree.inorder height root).Pairwise (· ≤ ·) ∧ chain = Tree.leaves height root

/-- The pages hold the tree and the chain. -/
def StoredIn (disk : DiskBTree) : Content → Prop
  | empty => True
  | tree height root chain =>
      Stored disk.file.pages height root ∧
        Tree.Shaped disk.order (keyLimit disk.file.pageSize disk.order) height root ∧
        Placed disk.file.pages.length (Tree.ids height root) ∧
        chain.Perm (Tree.leaves height root) ∧
        ∃ first, (Tree.leaves height root).head? = some first ∧ Linked first.id chain

end Content

/-- The header page names the root, and the rest of the pages hold the tree. -/
structure Holds (disk : DiskBTree) (content : Content) : Prop where
  layout : Layout disk.file.pageSize disk.order
  header : ∃ maxKey, legacyKeyBytes ≤ maxKey ∧ maxKey ≤ keyLimit disk.file.pageSize disk.order ∧
    disk.file.pages[metaPage]? =
      some (.header disk.file.pageSize maxKey content.rootId disk.order)
  body : content.StoredIn disk

section Height

/-- A tree uses more pages than it has levels. -/
theorem height_lt_ids {order limit : Nat} :
    ∀ (height : Nat) (tree : Tree height), Tree.Shaped order limit height tree →
      height < (Tree.ids height tree).length := by
  intro height
  induction height with
  | zero => intro leaf _; simp [Tree.ids]
  | succ height ih =>
      rintro branch ⟨shaped, children⟩
      obtain ⟨left, child, right, split, _⟩ := shaped.child_cut (Nat.zero_le _)
      have below := ih child (children child (by simp [split]))
      simp only [Tree.ids, split, List.flatMap_append, List.flatMap_cons, List.length_cons,
        List.length_append]
      omega

theorem Placed.length_lt {bound : Nat} {ids : List Nat} (placed : Placed bound ids)
    (positive : 0 < bound) : ids.length < bound := by
  have within : ids ⊆ List.range' 1 (bound - 1) := by
    intro id member
    have above := placed.positive id member
    have below := placed.below id member
    rw [List.mem_range'_1]
    omega
  have := (List.subperm_of_subset placed.nodup within).length_le
  rw [List.length_range'] at this
  omega

end Height

namespace Holds

variable {disk : DiskBTree}

theorem limit_le (disk : DiskBTree) : keyLimit disk.file.pageSize disk.order ≤ maxKeyBytes :=
  keyLimit_le _ _

theorem pages_pos {content : Content} (holds : Holds disk content) :
    0 < disk.file.pages.length := by
  obtain ⟨_, _, _, found⟩ := holds.header
  exact lt_of_le_of_lt (Nat.zero_le _) (List.getElem?_eq_some_iff.mp found).1

theorem root_eq {content : Content} (holds : Holds disk content) :
    disk.root = .ok (match content with
      | .empty => none
      | .tree height root _ => some (Tree.id height root)) := by
  obtain ⟨_, _, _, found⟩ := holds.header
  simp only [DiskBTree.root, PageFile.withPage_of_getElem? found, bind, Except.bind, id]
  cases content with
  | empty => rfl
  | tree height root chain =>
      have positive := holds.body.2.2.1.positive _ (Tree.id_mem_ids height root)
      simp [Content.rootId, Nat.pos_iff_ne_zero.mp positive]

theorem fuel_enough {height : Nat} {root : Tree height} {chain : List Leaf}
    (holds : Holds disk (.tree height root chain)) : height < disk.fuel := by
  obtain ⟨_, shaped, placed, _⟩ := holds.body
  have := height_lt_ids height root shaped
  have := placed.length_lt holds.pages_pos
  unfold DiskBTree.fuel
  omega

/-- Every leaf of the chain can be read. -/
theorem chain_readable {height : Nat} {root : Tree height} {chain : List Leaf}
    (holds : Holds disk (.tree height root chain)) :
    chain.length ≤ disk.fuel ∧ ∀ leaf ∈ chain, 0 < leaf.id ∧ Stored disk.file.pages 0 leaf ∧
      Leaf.Shaped disk.order (keyLimit disk.file.pageSize disk.order) leaf := by
  obtain ⟨stored, shaped, placed, perm, _⟩ := holds.body
  have sub := Tree.leaf_ids_sublist height root
  refine ⟨?_, fun leaf member => ?_⟩
  · have length := sub.length_le
    have := placed.length_lt holds.pages_pos
    rw [List.length_map, ← perm.length_eq] at length
    unfold DiskBTree.fuel
    omega
  · have inTree := perm.mem_iff.mp member
    exact ⟨placed.positive _ (sub.subset (List.mem_map_of_mem inTree)),
      Tree.leaf_stored height root stored leaf inTree,
      Tree.leaves_shaped height root shaped leaf inTree⟩

/-! ### Reading -/

theorem scan_empty (holds : Holds disk .empty) (lo hi : Bound) : disk.scan lo hi = .ok [] := by
  simp [DiskBTree.scan, holds.root_eq, bind, Except.bind]

/-- A scan without bounds lists the chain. -/
theorem iterAll_eq {content : Content} (holds : Holds disk content) :
    disk.iterAll = .ok content.entries := by
  cases content with
  | empty => exact holds.scan_empty none none
  | tree height root chain =>
      obtain ⟨enough, readable⟩ := holds.chain_readable
      obtain ⟨stored, shaped, placed, _, first, head, linked⟩ := holds.body
      obtain ⟨before, leaf, after, leaves, reached, start, _⟩ :=
        scanStart_stored none (limit_le disk) height root disk.fuel holds.fuel_enough stored
          shaped placed.positive
      obtain rfl := start rfl
      obtain rfl : leaf = first := by simpa [leaves] using head
      simp only [Option.any_none, Bool.false_eq_true, ↓reduceIte] at reached
      simp only [DiskBTree.iterAll, DiskBTree.scan, holds.root_eq, reached, bind, Except.bind,
        scanChain_linked (limit_le disk) chain leaf.id disk.fuel linked enough readable,
        scanLeaves_open, Content.entries, Content.chain]

/-- A scan of an ordered tree lists the entries in bounds, sorted by key. -/
theorem scan_eq {content : Content} (holds : Holds disk content) (ordered : content.Ordered)
    (lo hi : Bound) :
    disk.scan lo hi = .ok (content.entries.filter (inBounds lo hi)) ∧
      (content.entries.map (·.1)).Pairwise (· ≤ ·) := by
  cases content with
  | empty => exact ⟨holds.scan_empty lo hi, by simp [Content.entries, Content.chain]⟩
  | tree height root chain =>
      obtain ⟨enough, readable⟩ := holds.chain_readable
      obtain ⟨stored, shaped, placed, _, first, head, linked⟩ := holds.body
      obtain ⟨sorted, rfl⟩ := ordered
      have keysSorted := sorted.sublist (Tree.leaf_keys_sublist height root)
      refine ⟨?_, keysSorted⟩
      obtain ⟨before, leaf, after, leaves, reached, leftmost, low⟩ :=
        scanStart_stored lo (limit_le disk) height root disk.fuel holds.fuel_enough stored
          shaped placed.positive
      have suffix := Linked.suffix (leaves ▸ linked)
      have keep : ∀ (start : Nat) (skipped kept : List Leaf),
          Tree.leaves height root = skipped ++ kept → Linked start kept →
          (∀ entry ∈ skipped.flatMap Leaf.entries, inBounds lo hi entry = false) →
          disk.scanChain lo hi disk.fuel start =
            .ok ((Content.tree height root (Tree.leaves height root)).entries.filter
              (inBounds lo hi)) := by
        intro start skipped kept split linkedHere outside
        have part : kept.length ≤ disk.fuel := by
          rw [split, List.length_append] at enough
          omega
        rw [scanChain_linked (limit_le disk) kept start disk.fuel linkedHere part
          fun other member => readable other (by rw [split]; exact List.mem_append_right _ member)]
        have keptSorted := keysSorted
        rw [split, List.flatMap_append, List.map_append] at keptSorted
        rw [scanLeaves_sorted (List.pairwise_append.mp keptSorted).2.1]
        have nothing : (skipped.flatMap Leaf.entries).filter (inBounds lo hi) = [] :=
          List.filter_eq_nil_iff.mpr fun entry member => by simp [outside entry member]
        simp only [Content.entries, Content.chain, split, List.flatMap_append, List.filter_append,
          nothing, List.nil_append]
      have beforeLow : ∀ entry ∈ before.flatMap Leaf.entries, inBounds lo hi entry = false := by
        intro entry member
        cases lo with
        | none => simp [leftmost rfl] at member
        | some start => simp [inBounds, low sorted start rfl entry member]
      simp only [DiskBTree.scan, holds.root_eq, reached, bind, Except.bind]
      split
      · next exhausted =>
        refine keep leaf.next (before ++ [leaf]) after (by simp [leaves]) suffix.2 ?_
        intro entry member
        obtain ⟨start, rfl, every⟩ := (Option.any_eq_true _ _).mp exhausted
        rw [List.flatMap_append] at member
        rcases List.mem_append.mp member with earlier | here
        · exact beforeLow entry earlier
        · have below := List.all_eq_true.mp every entry (by simpa using here)
          simp only [decide_eq_true_eq] at below
          simp [inBounds, below]
      · exact keep leaf.id before (leaf :: after) leaves suffix beforeLow

/-- `get_all` lists the values of one key in ascending order. -/
theorem getAll_eq {content : Content} (holds : Holds disk content) (ordered : content.Ordered)
    (key : Key) :
    disk.getAll key = .ok (((content.entries.filter fun entry => entry.1 = key).map (·.2)).insertionSort
      (· ≤ ·)) := by
  obtain ⟨scanned, _⟩ := holds.scan_eq ordered (some key) (some key)
  have same : ∀ entry : Key × Nat, inBounds (some key) (some key) entry = decide (entry.1 = key) := by
    intro entry
    rw [Bool.eq_iff_iff]
    simp only [inBounds, Option.any_some, Bool.and_eq_true, Bool.not_eq_true',
      decide_eq_false_iff_not, gt_iff_lt, not_lt, decide_eq_true_eq]
    exact ⟨fun within => le_antisymm within.2 within.1, fun equal => ⟨equal.ge, equal.le⟩⟩
  simp only [DiskBTree.getAll, scanned, bind, Except.bind, funext same]

end Holds

end ChuSQL.Storage.BTree
