import ChuSQL.Storage.BTree.Pages

/-! The page procedures `insert_rec` and `delete_rec` on a stored tree do what
insertion and deletion do to the tree, and touch no page outside of it. -/

set_option autoImplicit false

namespace ChuSQL.Storage.BTree

open Library

def DiskBTree.withPages (disk : DiskBTree) (pages : List IndexPage) : DiskBTree :=
  { disk with file := { disk.file with pages } }

/-- Pages outside a set are as before. -/
def Frames (pages changed : List IndexPage) (ids : List Nat) : Prop :=
  ∀ id < pages.length, id ∉ ids → changed[id]? = pages[id]?

theorem Frames.refl (pages : List IndexPage) (ids : List Nat) : Frames pages pages ids :=
  fun _ _ _ => rfl

theorem Frames.trans {first second third : List IndexPage} {inner outer ids : List Nat}
    (grows : first.length ≤ second.length) (before : Frames first second inner)
    (after : Frames second third outer) (innerIn : inner ⊆ ids) (outerIn : outer ⊆ ids) :
    Frames first third ids := by
  intro id bounded outside
  rw [after id (by omega) fun member => outside (outerIn member),
    before id bounded fun member => outside (innerIn member)]

/-- A stored tree depends on its own pages only. -/
theorem Stored.congr {pages changed : List IndexPage} :
    ∀ (height : Nat) (tree : Tree height),
      (∀ id ∈ Tree.ids height tree, changed[id]? = pages[id]?) →
      Stored pages height tree → Stored changed height tree := by
  intro height
  induction height with
  | zero =>
      intro leaf same stored
      have here := same (Leaf.id leaf) (by simp [Tree.ids])
      exact here.trans stored
  | succ height ih =>
      rintro branch same ⟨image, children⟩
      refine ⟨(same (Branch.id branch) (by simp [Tree.ids])).trans image, fun child member => ?_⟩
      refine ih child (fun id inside => same id ?_) (children child member)
      exact List.mem_cons_of_mem _ (List.mem_flatMap.mpr ⟨child, member, inside⟩)

theorem Stored.mono {pages changed : List IndexPage} {touched : List Nat} {height : Nat}
    {tree : Tree height} (stored : Stored pages height tree)
    (frames : Frames pages changed touched)
    (bounded : ∀ id ∈ Tree.ids height tree, id < pages.length)
    (apart : ∀ id ∈ Tree.ids height tree, id ∉ touched) : Stored changed height tree :=
  Stored.congr height tree (fun id member => frames id (bounded id member) (apart id member)) stored

theorem Tree.leaf_stored {pages : List IndexPage} :
    ∀ (height : Nat) (tree : Tree height), Stored pages height tree →
      ∀ leaf ∈ Tree.leaves height tree, Stored pages 0 leaf := by
  intro height
  induction height with
  | zero =>
      intro leaf stored part member
      rw [List.mem_singleton.mp member]
      exact stored
  | succ height ih =>
      intro branch stored leaf member
      obtain ⟨child, inside, member⟩ := List.mem_flatMap.mp member
      exact ih child (stored.2 child inside) leaf member

/-- What `insert_rec` answers for a grown subtree. -/
def Grown.answer {height : Nat} : Grown (Tree height) → Option (Key × Nat)
  | .whole _ => none
  | .split _ sep right => some (sep, Tree.id height right)

section Node

variable {disk : DiskBTree} {limit : Nat}

theorem load_image {id : Nat} {page : IndexPage} {node : Node}
    (found : disk.file.pages[id]? = some page) (read : getNode page = .ok node) :
    disk.load id = .ok node := by
  simp [DiskBTree.load, PageFile.withPage_of_getElem? found, bind, Except.bind, read]

theorem store_image {id : Nat} {old page : IndexPage} {node : Node}
    (found : disk.file.pages[id]? = some old)
    (written : putNode disk.file.pageSize node = .ok page) :
    disk.store id node = .ok (disk.withPages (disk.file.pages.set id page)) := by
  simp [DiskBTree.store, PageFile.updatePage, found, written, bind, Except.bind,
    DiskBTree.withPages]

theorem alloc_image {page : IndexPage} {node : Node}
    (written : putNode disk.file.pageSize node = .ok page) :
    disk.alloc node = .ok (disk.file.pages.length,
      disk.withPages (disk.file.pages ++ [page])) := by
  simp [DiskBTree.alloc, PageFile.appendPage, PageFile.updatePage, written, bind,
    Except.bind, DiskBTree.withPages]

theorem settleNode_fits {id : Nat} {old page : IndexPage} {node : Node}
    (found : disk.file.pages[id]? = some old) (count : node.keys.length ≤ maxKeys disk.order)
    (written : putNode disk.file.pageSize node = .ok page) :
    disk.settleNode id node = .ok (none, disk.withPages (disk.file.pages.set id page)) := by
  simp [DiskBTree.settleNode, count, store_image found written, bind, Except.bind]

theorem settleNode_over {id : Nat} {old leftPage rightPage : IndexPage}
    {node left right : Node} {sep : Key}
    (found : disk.file.pages[id]? = some old) (count : ¬ node.keys.length ≤ maxKeys disk.order)
    (cut : splitNode node = (sep, left, right))
    (rightWritten : putNode disk.file.pageSize right = .ok rightPage)
    (leftWritten : putNode disk.file.pageSize (left.relink disk.file.pages.length) = .ok leftPage) :
    disk.settleNode id node = .ok (some (sep, disk.file.pages.length),
      disk.withPages ((disk.file.pages ++ [rightPage]).set id leftPage)) := by
  have inside : id < disk.file.pages.length := (List.getElem?_eq_some_iff.mp found).1
  have stillFound : (disk.withPages (disk.file.pages ++ [rightPage])).file.pages[id]? = some old := by
    simpa [DiskBTree.withPages, List.getElem?_append_left inside] using found
  have stored := store_image stillFound leftWritten
  simp only [DiskBTree.settleNode, count, ↓reduceIte, cut, alloc_image rightWritten, bind,
    Except.bind]
  rw [stored]
  rfl

end Node

section Settle

variable {disk : DiskBTree}

/-- Pages after a split: the left half in place, the right half appended. -/
theorem split_pages {pages : List IndexPage} {id : Nat} (inside : id < pages.length)
    (leftPage rightPage : IndexPage) :
    ((pages ++ [rightPage]).set id leftPage).length = pages.length + 1 ∧
      Frames pages ((pages ++ [rightPage]).set id leftPage) [id] ∧
      ((pages ++ [rightPage]).set id leftPage)[id]? = some leftPage ∧
      ((pages ++ [rightPage]).set id leftPage)[pages.length]? = some rightPage := by
  refine ⟨by simp, ?_, ?_, ?_⟩
  · intro other bounded outside
    rw [List.getElem?_set_ne (by simpa [eq_comm] using outside),
      List.getElem?_append_left bounded]
  · rw [List.getElem?_set_self (by simp; omega)]
  · rw [List.getElem?_set_ne (by omega)]
    simp

/-- Writing a leaf back is settling it. -/
theorem settleNode_leaf (layout : Layout disk.file.pageSize disk.order) {leaf : Leaf}
    (shaped : leaf.Shaped (disk.order + 1) (keyLimit disk.file.pageSize disk.order))
    {old : IndexPage} (found : disk.file.pages[leaf.id]? = some old) :
    ∃ pages, disk.settleNode leaf.id leaf.node =
        .ok (@Grown.answer 0 (leaf.settle disk.order disk.file.pages.length).1,
          disk.withPages pages) ∧
      pages.length = (leaf.settle disk.order disk.file.pages.length).2 ∧
      Frames disk.file.pages pages [leaf.id] ∧
      ∀ part ∈ (leaf.settle disk.order disk.file.pages.length).1.trees,
        Stored pages 0 part := by
  have wide : 2 ≤ disk.order := le_trans (by decide) layout.wide
  have inside : leaf.id < disk.file.pages.length := (List.getElem?_eq_some_iff.mp found).1
  obtain ⟨parts, _⟩ := Leaf.settle_shaped wide shaped disk.file.pages.length
  by_cases fits : leaf.entries.length ≤ maxKeys disk.order
  · have whole : leaf.settle disk.order disk.file.pages.length =
        (.whole leaf, disk.file.pages.length) := by simp [Leaf.settle, fits]
    rw [whole] at parts ⊢
    have written := putNode_leaf layout (parts leaf (by simp [Grown.trees]))
    refine ⟨_, settleNode_fits found (by simpa [Leaf.node] using fits) written, by simp, ?_, ?_⟩
    · intro id _ outside
      exact List.getElem?_set_ne (by simpa [eq_comm] using outside)
    · intro part member
      obtain rfl : part = leaf := by simpa [Grown.trees] using member
      simp [Stored, Leaf.image, inside]
  · obtain ⟨left, sep, right, cut, splits⟩ : ∃ left sep right,
        leaf.settle disk.order disk.file.pages.length =
            (.split left sep right, disk.file.pages.length + 1) ∧
          ∃ first, splitNode leaf.node = (sep, first, right.node) ∧
            first.relink disk.file.pages.length = left.node ∧ left.id = leaf.id ∧
            right.id = disk.file.pages.length := by
      simp [Leaf.settle, fits, splitNode, Leaf.node, Node.relink]
    obtain ⟨first, halves, relinked, sameId, freshId⟩ := splits
    rw [cut] at parts ⊢
    simp only [Grown.trees, List.mem_cons, List.not_mem_nil, or_false, forall_eq_or_imp,
      forall_eq] at parts ⊢
    have leftWritten := putNode_leaf layout parts.1
    have rightWritten := putNode_leaf layout parts.2
    obtain ⟨length, frames, atLeft, atRight⟩ := split_pages inside left.image right.image
    refine ⟨_, ?_, length, frames, ?_, ?_⟩
    · rw [settleNode_over found (by simpa [Leaf.node] using fits) halves rightWritten
        (relinked ▸ leftWritten)]
      simp [Grown.answer, Tree.id, freshId]
    · unfold Stored
      rw [sameId]
      exact atLeft
    · unfold Stored
      rw [freshId]
      exact atRight

variable (disk) in
/-- Writing a branch back is settling it. -/
theorem settleNode_branch (layout : Layout disk.file.pageSize disk.order) {height : Nat}
    {branch : Branch (Tree height)}
    (shaped : branch.Shaped (disk.order + 1) (keyLimit disk.file.pageSize disk.order))
    {old : IndexPage} (found : disk.file.pages[branch.id]? = some old) :
    ∃ pages, disk.settleNode branch.id
          (branchNode branch.keys (branch.children.map (Tree.id height))) =
        .ok (@Grown.answer (height + 1)
            (branch.settle disk.order disk.file.pages.length).1,
          disk.withPages pages) ∧
      pages.length = (branch.settle disk.order disk.file.pages.length).2 ∧
      Frames disk.file.pages pages [branch.id] ∧
      ∀ part ∈ (branch.settle disk.order disk.file.pages.length).1.trees,
        pages[part.id]? = some (branchImage part.keys (part.children.map (Tree.id height))) := by
  have wide : 2 ≤ disk.order := le_trans (by decide) layout.wide
  have inside : branch.id < disk.file.pages.length := (List.getElem?_eq_some_iff.mp found).1
  obtain ⟨parts, _⟩ := Branch.settle_shaped wide shaped disk.file.pages.length
  by_cases fits : branch.keys.length ≤ maxKeys disk.order
  · have whole : branch.settle disk.order disk.file.pages.length =
        (.whole branch, disk.file.pages.length) := by simp [Branch.settle, fits]
    rw [whole] at parts ⊢
    have written := putNode_branch layout (parts branch (by simp [Grown.trees]))
      (branch.children.map (Tree.id height))
    refine ⟨_, settleNode_fits found fits written, by simp, ?_, ?_⟩
    · intro id _ outside
      exact List.getElem?_set_ne (by simpa [eq_comm] using outside)
    · intro part member
      obtain rfl : part = branch := by simpa [Grown.trees] using member
      simp [inside]
  · obtain ⟨left, sep, right, cut, halves, sameId, freshId⟩ : ∃ left sep right,
        branch.settle disk.order disk.file.pages.length =
            (.split left sep right, disk.file.pages.length + 1) ∧
          splitNode (branchNode branch.keys (branch.children.map (Tree.id height))) =
            (sep, branchNode left.keys (left.children.map (Tree.id height)),
              branchNode right.keys (right.children.map (Tree.id height))) ∧
          left.id = branch.id ∧ right.id = disk.file.pages.length := by
      have middle : (branch.keys.take (branch.keys.length / 2 + 1)).dropLast =
          branch.keys.take (branch.keys.length / 2) := by
        rw [List.dropLast_eq_take, List.length_take, List.take_take]
        congr 1
        omega
      simp [Branch.settle, fits, splitNode, branchNode, middle]
    rw [cut] at parts ⊢
    simp only [Grown.trees, List.mem_cons, List.not_mem_nil, or_false, forall_eq_or_imp,
      forall_eq] at parts ⊢
    have leftWritten := putNode_branch layout parts.1 (left.children.map (Tree.id height))
    have rightWritten := putNode_branch layout parts.2 (right.children.map (Tree.id height))
    obtain ⟨length, frames, atLeft, atRight⟩ := split_pages inside
      (branchImage left.keys (left.children.map (Tree.id height)))
      (branchImage right.keys (right.children.map (Tree.id height)))
    refine ⟨_, ?_, length, frames, ?_, ?_⟩
    · rw [settleNode_over found fits halves rightWritten leftWritten]
      simp [Grown.answer, Tree.id, freshId]
    · rwa [sameId]
    · rwa [freshId]

end Settle

/-! ### Insertion -/

theorem Placed.of_sublist {bound : Nat} {ids fewer : List Nat} (placed : Placed bound ids)
    (sub : fewer.Sublist ids) : Placed bound fewer :=
  ⟨placed.nodup.sublist sub, fun id member => placed.positive id (sub.subset member),
    fun id member => placed.below id (sub.subset member)⟩

theorem Placed.of_perm {bound : Nat} {ids others : List Nat} (placed : Placed bound ids)
    (perm : ids.Perm others) : Placed bound others :=
  ⟨perm.nodup_iff.mp placed.nodup, fun id member => placed.positive id (perm.mem_iff.mpr member),
    fun id member => placed.below id (perm.mem_iff.mpr member)⟩

theorem Tree.child_ids_sublist {height : Nat} {branch : Branch (Tree height)}
    {child : Tree height} (inside : child ∈ branch.children) :
    (Tree.ids height child).Sublist (Tree.ids (height + 1) branch) := by
  refine List.Sublist.cons _ ?_
  rw [List.flatMap_def]
  exact List.sublist_flatten_of_mem (List.mem_map_of_mem inside)

theorem Tree.id_mem_ids : ∀ (height : Nat) (tree : Tree height),
    Tree.id height tree ∈ Tree.ids height tree
  | 0, _ => by simp [Tree.id, Tree.ids]
  | _ + 1, _ => by simp [Tree.id, Tree.ids]

/-- A subtree keeps its page, its grown parts use its pages and fresh ones. -/
theorem Tree.insert_placed {order limit height : Nat} (key : Key) (value : Nat)
    {tree : Tree height} {bound : Nat} (shaped : Tree.Shaped order limit height tree)
    {outer : List Nat} (placed : Placed bound (outer ++ Tree.ids height tree)) (nonzero : 0 < bound) :
    Placed (Tree.insert order key value height tree bound).2
      (outer ++ (Tree.insert order key value height tree bound).1.trees.flatMap
        (Tree.ids height)) := by
  have grows := Tree.fresh_le_insert order key value height tree bound
  have perm := (Tree.insert_ids key value height tree bound shaped).append_left
    outer
  generalize (Tree.insert order key value height tree bound).2 = next at grows perm ⊢
  rw [← List.append_assoc] at perm
  have fresh : ∀ id ∈ List.range' bound (next - bound), bound ≤ id ∧ id < next := by
    intro id member
    have := List.mem_range'_1.mp member
    omega
  refine ⟨?_, ?_, ?_⟩
  · rw [perm.nodup_iff, List.nodup_append]
    refine ⟨placed.nodup, List.nodup_range', ?_⟩
    intro id member id' member' same
    have := placed.below id member
    have := fresh id' member'
    omega
  · intro id member
    rcases List.mem_append.mp (perm.mem_iff.mp member) with old | new
    · exact placed.positive id old
    · have := fresh id new
      omega
  · intro id member
    rcases List.mem_append.mp (perm.mem_iff.mp member) with old | new
    · have := placed.below id old
      omega
    · exact (fresh id new).2

theorem load_leaf {disk : DiskBTree} {order limit : Nat} {leaf : Leaf}
    (bounded : limit ≤ maxKeyBytes) (stored : Stored disk.file.pages 0 leaf)
    (shaped : leaf.Shaped order limit) : disk.load leaf.id = .ok leaf.node :=
  load_image stored (getNode_leaf bounded shaped)

theorem load_branch {disk : DiskBTree} {height order limit : Nat} {branch : Branch (Tree height)}
    (bounded : limit ≤ maxKeyBytes) (stored : Stored disk.file.pages (height + 1) branch)
    (shaped : branch.Shaped order limit)
    (placed : ∀ id ∈ Tree.ids (height + 1) branch, 0 < id) :
    disk.load branch.id =
      .ok (branchNode branch.keys (branch.children.map (Tree.id height))) := by
  refine load_image stored.1 (getNode_branch bounded shaped (by simpa using shaped.fanout) ?_)
  intro id member
  obtain ⟨child, inside, rfl⟩ := List.mem_map.mp member
  refine placed _ (List.mem_cons_of_mem _ (List.mem_flatMap.mpr ⟨child, inside, ?_⟩))
  exact Tree.id_mem_ids height child

/-- The separator and page handed up are put into the node as `graft` does. -/
theorem graft_node {height : Nat} {branch : Branch (Tree height)} {left right : List (Tree height)}
    {child : Tree height} (split : branch.children = left ++ child :: right)
    {grown : Grown (Tree height)}
    (sameId : grown.trees.head?.map (Tree.id height) = some (Tree.id height child)) :
    (match grown.answer with
      | none => branchNode branch.keys (branch.children.map (Tree.id height))
      | some (sep, rightId) =>
          let slot := partitionPoint (fun k => k ≤ sep) branch.keys
          branchNode (branch.keys.insertIdx slot sep)
            ((branch.children.map (Tree.id height)).insertIdx (slot + 1) rightId)) =
      branchNode (branch.graft left.length grown).keys
        ((branch.graft left.length grown).children.map (Tree.id height)) := by
  cases grown with
  | whole part =>
      simp only [Grown.trees, List.head?_cons, Option.map_some, Option.some.injEq] at sameId
      simp [Grown.answer, Branch.graft, split, sameId]
  | split first sep second =>
      simp only [Grown.trees, List.head?_cons, Option.map_some, Option.some.injEq] at sameId
      simp only [Grown.answer, Branch.graft, split, set_cut, List.map_insertIdx,
        List.map_append, List.map_cons, sameId]

/-- One level of `insert_rec` above a child whose insertion is known. -/
theorem insertRec_branch {disk inner : DiskBTree} {height fuel id : Nat} {key : Key} {value : Nat}
    {branch : Branch (Tree height)} {left right : List (Tree height)} {child : Tree height}
    (split : branch.children = left ++ child :: right)
    (count : left.length = childSlot branch.keys key)
    (loaded : disk.load id = .ok (branchNode branch.keys (branch.children.map (Tree.id height))))
    {grown : Grown (Tree height)}
    (inserted : DiskBTree.insertRec fuel disk (Tree.id height child) key value =
      .ok (grown.answer, inner))
    (sameId : grown.trees.head?.map (Tree.id height) = some (Tree.id height child)) :
    DiskBTree.insertRec (fuel + 1) disk id key value =
      inner.settleNode id (branchNode (branch.graft left.length grown).keys
        ((branch.graft left.length grown).children.map (Tree.id height))) := by
  have selected : DiskBTree.childAt
      (branchNode branch.keys (branch.children.map (Tree.id height)))
      (childSlot branch.keys key) = .ok (Tree.id height child) := by
    simp [DiskBTree.childAt, branchNode, split, ← count]
  rw [← graft_node split sameId]
  simp only [branchNode] at loaded selected
  simp only [DiskBTree.insertRec, loaded, selected, inserted, branchNode, bind, Except.bind]
  cases grown with
  | whole part => rfl
  | split first sep second => rfl

theorem insertRec_stored {order limit : Nat} {key : Key} {value : Nat}
    (short : key.length ≤ limit) (bounded : limit ≤ maxKeyBytes) :
    ∀ (height : Nat) (tree : Tree height) (disk : DiskBTree) (fuel : Nat), height < fuel →
      Layout disk.file.pageSize disk.order → disk.order = order →
      limit = keyLimit disk.file.pageSize disk.order →
      Stored disk.file.pages height tree → Tree.Shaped order limit height tree →
      Placed disk.file.pages.length (Tree.ids height tree) →
      ∃ pages, DiskBTree.insertRec fuel disk (Tree.id height tree) key value =
          .ok ((Tree.insert order key value height tree disk.file.pages.length).1.answer,
            disk.withPages pages) ∧
        pages.length = (Tree.insert order key value height tree disk.file.pages.length).2 ∧
        Frames disk.file.pages pages (Tree.ids height tree) ∧
        ∀ part ∈ (Tree.insert order key value height tree disk.file.pages.length).1.trees,
          Stored pages height part := by
  intro height
  induction height with
  | zero =>
      intro leaf disk fuel enough layout sameOrder sameLimit stored shaped placed
      subst sameOrder sameLimit
      obtain ⟨fuel, rfl⟩ : ∃ less, fuel = less + 1 := ⟨fuel - 1, by omega⟩
      have wide : 2 ≤ disk.order := le_trans (by decide) layout.wide
      have added := Leaf.Shaped.add shaped wide short value
      obtain ⟨pages, settled, rest⟩ := settleNode_leaf layout added stored
      refine ⟨pages, ?_, rest⟩
      refine Eq.trans ?_ settled
      simp only [DiskBTree.insertRec, Tree.id, load_leaf bounded stored shaped, bind, Except.bind,
        Leaf.node, Leaf.add, List.map_insertIdx]
  | succ height ih =>
      intro branch disk fuel enough layout sameOrder sameLimit stored shaped placed
      obtain ⟨fuel, rfl⟩ : ∃ less, fuel = less + 1 := ⟨fuel - 1, by omega⟩
      obtain ⟨branchShaped, children⟩ := shaped
      obtain ⟨left, child, right, split, count, result⟩ :=
        Tree.insert_branch key value branchShaped disk.file.pages.length
      have childShaped := children child (by simp [split])
      have ids : Tree.ids (height + 1) branch = Branch.id branch ::
          (left.flatMap (Tree.ids height) ++ Tree.ids height child ++
            right.flatMap (Tree.ids height)) := by
        simp [Tree.ids, split]
      have childPlaced : Placed disk.file.pages.length (Tree.ids height child) := by
        refine placed.of_sublist ?_
        rw [ids]
        exact ((List.sublist_append_right _ _).trans (List.sublist_append_left _ _)).cons _
      obtain ⟨pages, inserted, length, frames, parts⟩ :=
        ih child disk fuel (by omega) layout sameOrder sameLimit
          (stored.2 child (by simp [split])) childShaped childPlaced
      have wide : 2 ≤ order := by
        have := layout.wide
        omega
      have nonzero : 0 < disk.file.pages.length :=
        lt_of_le_of_lt (Nat.zero_le _) (placed.below _ (Tree.id_mem_ids _ branch))
      have regrouped : Placed disk.file.pages.length
          ((Branch.id branch :: (left.flatMap (Tree.ids height) ++
            right.flatMap (Tree.ids height))) ++ Tree.ids height child) := by
        refine placed.of_perm ?_
        rw [ids, List.cons_append, List.append_assoc, List.append_assoc]
        exact (List.Perm.append_left _ List.perm_append_comm).cons _
      have grownPlaced :=
        Tree.insert_placed key value childShaped regrouped nonzero
      have apart := List.nodup_append.mp regrouped.nodup
      have grownApart := List.nodup_append.mp grownPlaced.nodup
      have sepShort :=
        (Tree.insert_shaped value wide short height child disk.file.pages.length
          childShaped).2
      have sameId := Tree.insert_head_id key value height child
        disk.file.pages.length childShaped
      have selected : (Branch.children branch)[childSlot (Branch.keys branch) key]? = some child := by
        rw [split, ← count, getElem?_cut]
      have grows := Tree.fresh_le_insert order key value height child
        disk.file.pages.length
      rw [result]
      generalize Tree.insert order key value height child disk.file.pages.length = outcome at *
      obtain ⟨grown, next⟩ := outcome
      simp only at inserted length parts grownPlaced grownApart sepShort sameId grows ⊢
      have found := (frames (Branch.id branch) (placed.below _ (Tree.id_mem_ids _ branch))
        fun member => apart.2.2 _ List.mem_cons_self _ member rfl).trans stored.1
      have grafted := branchShaped.graft wide left.length sepShort
      have graftedId : (Branch.graft branch left.length grown).id = Branch.id branch := by
        cases grown <;> rfl
      subst sameOrder sameLimit length
      obtain ⟨final, settled, finalLength, finalFrames, images⟩ :=
        settleNode_branch (disk.withPages pages) layout grafted (by rw [graftedId]; exact found)
      rw [graftedId] at settled finalFrames
      refine ⟨final, ?_, finalLength, ?_, ?_⟩
      · exact (insertRec_branch split count
          (load_branch bounded stored branchShaped placed.positive) inserted sameId).trans settled
      · refine frames.trans grows finalFrames ?_ ?_
        · rw [ids]
          intro id member
          simp [member]
        · simp [ids]
      · intro part member
        refine ⟨images part member, fun grandchild inside => ?_⟩
        have kept := (Branch.graft_children_perm split branchShaped.fanout grown).mem_iff.mp
          (Branch.settle_children_subset member inside)
        have untouched : Stored pages height grandchild ∧
            (∀ id ∈ Tree.ids height grandchild, id < pages.length) ∧
            ∀ id ∈ Tree.ids height grandchild, id ≠ Branch.id branch := by
          have sibling : ∀ other ∈ left ++ right, Stored pages height other ∧
              (∀ id ∈ Tree.ids height other, id < pages.length) ∧
              ∀ id ∈ Tree.ids height other, id ≠ Branch.id branch := by
            intro other among
            have member : other ∈ Branch.children branch := by
              rw [split]
              rcases List.mem_append.mp among with before | after
              · simp [before]
              · simp [after]
            have around : ∀ id ∈ Tree.ids height other, id ∈ left.flatMap (Tree.ids height) ++
                right.flatMap (Tree.ids height) := by
              intro id inIds
              rw [← List.flatMap_append]
              exact List.mem_flatMap.mpr ⟨other, among, inIds⟩
            have below : ∀ id ∈ Tree.ids height other, id < disk.file.pages.length :=
              fun id inIds => regrouped.below id
                (List.mem_append_left _ (List.mem_cons_of_mem _ (around id inIds)))
            refine ⟨(stored.2 other member).mono frames below fun id inIds inChild => ?_,
              fun id inIds => lt_of_lt_of_le (below id inIds) grows, fun id inIds same => ?_⟩
            · exact apart.2.2 id (List.mem_cons_of_mem _ (around id inIds)) id inChild rfl
            · exact (List.nodup_cons.mp apart.1).1 (same ▸ around id inIds)
          rcases List.mem_append.mp kept with kept | after
          · rcases List.mem_append.mp kept with before | grew
            · exact sibling grandchild (List.mem_append_left _ before)
            · refine ⟨parts grandchild grew, fun id inIds => ?_, fun id inIds same => ?_⟩
              · exact grownPlaced.below id (List.mem_append_right _
                  (List.mem_flatMap.mpr ⟨grandchild, grew, inIds⟩))
              · exact grownApart.2.2 id (same ▸ List.mem_cons_self) id
                  (List.mem_flatMap.mpr ⟨grandchild, grew, inIds⟩) rfl
          · exact sibling grandchild (List.mem_append_right _ after)
        refine untouched.1.mono finalFrames untouched.2.1 fun id inIds => ?_
        simpa using untouched.2.2 id inIds

/-! ### Deletion -/

/-- Pages after a deletion below one subtree. -/
def Deleted (disk : DiskBTree) {height : Nat} (result : Option (Tree height))
    (pages : List IndexPage) : Prop :=
  match result with
  | none => pages = disk.file.pages
  | some changed =>
      pages.length = disk.file.pages.length ∧
        Frames disk.file.pages pages (Tree.ids height changed) ∧ Stored pages height changed

theorem deleteFirst_stored {disk : DiskBTree} {height : Nat}
    (delete : DiskBTree → PageId → Except IoError (Bool × DiskBTree))
    {change : Tree height → Option (Tree height)} (children : List (Tree height))
    (each : ∀ child ∈ children, ∃ pages, delete disk (Tree.id height child) =
        .ok ((change child).isSome, disk.withPages pages) ∧ Deleted disk (change child) pages)
    (position : Nat) :
    ∃ pages, DiskBTree.deleteFirst delete disk (children.map (Tree.id height)) =
        .ok ((Tree.deleteChild change position children).isSome, disk.withPages pages) ∧
      Deleted disk ((Tree.deleteChild change position children).map (·.2)) pages := by
  induction children generalizing position with
  | nil => exact ⟨disk.file.pages, rfl, rfl⟩
  | cons child rest ih =>
      obtain ⟨pages, deleted, outcome⟩ := each child List.mem_cons_self
      cases attempt : change child with
      | some changed =>
          rw [attempt] at deleted outcome
          refine ⟨pages, ?_, ?_⟩
          · simp [DiskBTree.deleteFirst, deleted, Tree.deleteChild, attempt, bind, Except.bind]
          · simpa [Tree.deleteChild, attempt] using outcome
      | none =>
          rw [attempt] at deleted outcome
          obtain rfl : pages = disk.file.pages := outcome
          obtain ⟨pages, remaining, outcome⟩ :=
            ih (fun other member => each other (List.mem_cons_of_mem _ member)) (position + 1)
          refine ⟨pages, ?_, ?_⟩
          · simp only [DiskBTree.deleteFirst, List.map_cons, deleted, Option.isSome_none, bind,
              Except.bind, Tree.deleteChild, attempt]
            exact remaining
          · simpa [Tree.deleteChild, attempt] using outcome

theorem pair_at {entries : List (Key × Nat)} {slot : Nat} (key : Key) (value : Nat) :
    (entries.map (·.1))[slot]? = some key ∧ (entries.map (·.2))[slot]? = some value ↔
      entries[slot]? = some (key, value) := by
  simp only [List.getElem?_map]
  cases entries[slot]? <;> simp [Prod.ext_iff]

theorem deleteRec_stored {order limit : Nat} (key : Key) (value : Nat)
    (bounded : limit ≤ maxKeyBytes) :
    ∀ (height : Nat) (tree : Tree height) (disk : DiskBTree) (fuel : Nat), height < fuel →
      Layout disk.file.pageSize disk.order → disk.order = order →
      limit = keyLimit disk.file.pageSize disk.order →
      Stored disk.file.pages height tree → Tree.Shaped order limit height tree →
      Placed disk.file.pages.length (Tree.ids height tree) →
      ∃ pages, DiskBTree.deleteRec fuel disk (Tree.id height tree) key value =
          .ok ((Tree.delete key value height tree).isSome, disk.withPages pages) ∧
        Deleted disk (Tree.delete key value height tree) pages := by
  intro height
  induction height with
  | zero =>
      intro leaf disk fuel enough layout sameOrder sameLimit stored shaped placed
      subst sameOrder sameLimit
      obtain ⟨fuel, rfl⟩ : ∃ less, fuel = less + 1 := ⟨fuel - 1, by omega⟩
      have loaded := load_leaf bounded stored shaped
      by_cases present : (Leaf.entries leaf)[leafSlot ((Leaf.entries leaf).map (·.1))
          ((Leaf.entries leaf).map (·.2)) key value]? = some (key, value)
      · obtain ⟨changed, result, changedIs⟩ : ∃ changed : Leaf,
            Tree.delete key value 0 leaf = some changed ∧
              changed = { leaf with
                entries := (Leaf.entries leaf).eraseIdx (leafSlot ((Leaf.entries leaf).map (·.1))
                  ((Leaf.entries leaf).map (·.2)) key value) } := by
          simp only [Tree.delete, present, ↓reduceIte, Option.some.injEq, exists_eq_left']
        have written := putNode_leaf layout (Tree.delete_shaped 0 leaf _ shaped result)
        have inside := (List.getElem?_eq_some_iff.mp stored).1
        have sameId : changed.id = Leaf.id leaf := by rw [changedIs]
        rw [result]
        refine ⟨disk.file.pages.set (Leaf.id leaf) changed.image, ?_, by simp, ?_, ?_⟩
        · have rewritten := store_image stored written
          simp only [changedIs, Leaf.node] at rewritten
          simp only [DiskBTree.deleteRec, Tree.id, loaded, bind, Except.bind, Leaf.node,
            (pair_at key value).mpr present, and_self, ↓reduceIte, List.eraseIdx_map, rewritten,
            Option.isSome_some, changedIs]
        · intro id _ outside
          exact List.getElem?_set_ne (by simpa [Tree.ids, sameId, eq_comm] using outside)
        · simp only [Stored, sameId, List.getElem?_set_self inside]
          rfl
      · have result : Tree.delete key value 0 leaf = none := by
          simp only [Tree.delete, present, ↓reduceIte]
        rw [result]
        refine ⟨disk.file.pages, ?_, rfl⟩
        have absent := (pair_at key value).not.mpr present
        simp only [DiskBTree.deleteRec, Tree.id, loaded, bind, Except.bind, Leaf.node, absent,
          ↓reduceIte]
        rfl
  | succ height ih =>
      intro branch disk fuel enough layout sameOrder sameLimit stored shaped placed
      obtain ⟨fuel, rfl⟩ : ∃ less, fuel = less + 1 := ⟨fuel - 1, by omega⟩
      obtain ⟨branchShaped, children⟩ := shaped
      have loaded := load_branch bounded stored branchShaped placed.positive
      obtain ⟨pages, deleted, outcome⟩ := deleteFirst_stored
        (fun tree child => DiskBTree.deleteRec fuel tree child key value)
        (Tree.window branch key)
        (by
          intro child member
          have inside : child ∈ Branch.children branch :=
            List.mem_of_mem_drop (List.mem_of_mem_take member)
          refine ih child disk fuel (by omega) layout sameOrder sameLimit (stored.2 child inside)
            (children child inside) (placed.of_sublist ?_)
          exact Tree.child_ids_sublist inside)
        (partitionPoint (fun k => k < key) (Branch.keys branch))
      have descended : DiskBTree.deleteRec (fuel + 1) disk (Tree.id (height + 1) branch) key value =
          DiskBTree.deleteFirst (fun tree child => DiskBTree.deleteRec fuel tree child key value)
            disk ((Tree.window branch key).map (Tree.id height)) := by
        simp only [branchNode] at loaded
        simp only [DiskBTree.deleteRec, Tree.id, loaded, bind, Except.bind, Tree.window,
          List.map_take, List.map_drop]
      refine ⟨pages, ?_, ?_⟩
      · rw [descended, deleted]
        simp [Tree.delete]
      · simp only [Tree.delete]
        cases found : Tree.deleteChild (Tree.delete key value height)
            (partitionPoint (fun k => k < key) (Branch.keys branch)) (Tree.window branch key) with
        | none =>
            rw [found] at outcome
            exact outcome
        | some result =>
            obtain ⟨place, child'⟩ := result
            rw [found] at outcome
            obtain ⟨length, frames, changed⟩ := outcome
            obtain ⟨left, child, right, split, rfl, below⟩ :=
              Tree.deleteChild_branch branchShaped found
            have member : child ∈ Branch.children branch := by simp [split]
            obtain ⟨sameId, sameIds⟩ :=
              Tree.delete_ids height child child' (children child member) below
            simp only [sameIds] at frames
            have result : (Branch.children branch).set left.length child' =
                left ++ child' :: right := by rw [split, set_cut]
            have ids : Tree.ids (height + 1) branch = Branch.id branch ::
                (left.flatMap (Tree.ids height) ++ (Tree.ids height child ++
                  right.flatMap (Tree.ids height))) := by
              simp [Tree.ids, split]
            have distinct := placed.nodup
            rw [ids, List.nodup_cons, List.nodup_append, List.nodup_append] at distinct
            simp only [Option.map_some, result]
            refine ⟨length, fun id bound outside => frames id bound fun inside => outside ?_, ?_, ?_⟩
            · simp [Tree.ids, sameIds, inside]
            · have own := frames (Branch.id branch) (placed.below _ (Tree.id_mem_ids _ branch))
                fun inside => distinct.1 (by simp [inside])
              refine own.trans (stored.1.trans ?_)
              simp [split, sameId]
            · intro other among
              have sibling : ∀ other ∈ left ++ right, Stored pages height other := by
                intro other among
                have inBranch : other ∈ Branch.children branch := by
                  rw [split]
                  rcases List.mem_append.mp among with before | after
                  · simp [before]
                  · simp [after]
                refine (stored.2 other inBranch).mono frames (fun id inIds =>
                  placed.below id ((Tree.child_ids_sublist inBranch).subset inIds)) ?_
                intro id inOther inChild
                rcases List.mem_append.mp among with before | after
                · exact distinct.2.2.2 id (List.mem_flatMap.mpr ⟨other, before, inOther⟩) id
                    (List.mem_append_left _ inChild) rfl
                · exact distinct.2.2.1.2.2 id inChild id
                    (List.mem_flatMap.mpr ⟨other, after, inOther⟩) rfl
              rcases List.mem_append.mp among with before | among
              · exact sibling other (List.mem_append_left _ before)
              · rcases List.mem_cons.mp among with rfl | after
                · exact changed
                · exact sibling other (List.mem_append_right _ after)

end ChuSQL.Storage.BTree
