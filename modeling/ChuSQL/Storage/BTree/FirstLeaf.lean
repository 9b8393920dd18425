import ChuSQL.Storage.BTree.Refinement

/-! The emptiness test looks at the first leaf only. It is right as long as the
first leaf is not empty beside other entries; this module says which steps keep
that, and proves the test right on runs of such steps. Separators may land
anywhere. -/

set_option autoImplicit false

namespace ChuSQL.Storage.BTree

open Library

namespace DiskBTree

/-- The leaf page below a page when `slot` chooses the children. -/
def reach (tree : DiskBTree) (slot : List Key → Nat) : Nat → PageId → Except IoError PageId
  | 0, _ => .error .fuel
  | fuel + 1, id => do
      let node ← tree.load id
      match node.kind with
      | .leaf => .ok id
      | .internal => do
          let child ← childAt node (slot node.keys)
          reach tree slot fuel child

/-- The leaf an insertion of the key goes to, if there is a tree. -/
def targetLeaf (tree : DiskBTree) (key : Key) : Except IoError (Option PageId) := do
  match ← tree.root with
  | none => .ok none
  | some id => do
      let leaf ← tree.reach (fun keys => childSlot keys key) tree.fuel id
      .ok (some leaf)

/-- The leftmost leaf, if there is a tree. -/
def firstLeaf (tree : DiskBTree) : Except IoError (Option PageId) := do
  match ← tree.root with
  | none => .ok none
  | some id => do
      let leaf ← tree.reach (fun _ => 0) tree.fuel id
      .ok (some leaf)

/-- Pairs in the leftmost leaf. -/
def firstEntries (tree : DiskBTree) : Except IoError (List (Key × Nat)) := do
  match ← tree.firstLeaf with
  | none => .ok []
  | some id => do
      let node ← tree.load id
      .ok (node.keys.zip node.values)

end DiskBTree

/-- An insertion does not pass by an empty first leaf, and a deletion does not take the
last pair of the first leaf while there are pairs elsewhere. -/
def Op.KeepsFirstLeaf (tree : DiskBTree) : Op → Prop
  | insert key _ => tree.firstEntries = .ok [] → tree.targetLeaf key = tree.firstLeaf
  | delete key value =>
      tree.firstEntries = .ok [(key, value)] → tree.iterAll = .ok [(key, value)]

instance (tree : DiskBTree) : (op : Op) → Decidable (op.KeepsFirstLeaf tree)
  | .insert key _ =>
      inferInstanceAs (Decidable (tree.firstEntries = .ok [] → tree.targetLeaf key = tree.firstLeaf))
  | .delete key value =>
      inferInstanceAs (Decidable
        (tree.firstEntries = .ok [(key, value)] → tree.iterAll = .ok [(key, value)]))

theorem reach_stored {disk : DiskBTree} {order limit : Nat} (bounded : limit ≤ maxKeyBytes)
    {slot : List Key → Nat} (inside : ∀ keys, slot keys ≤ keys.length) :
    ∀ (height : Nat) (tree : Tree height) (fuel : Nat), height < fuel →
      Stored disk.file.pages height tree → Tree.Shaped order limit height tree →
      (∀ id ∈ Tree.ids height tree, 0 < id) →
      ∃ leaf, Tree.reach slot height tree = some leaf ∧ leaf ∈ Tree.leaves height tree ∧
        disk.reach slot fuel (Tree.id height tree) = .ok leaf.id := by
  intro height
  induction height with
  | zero =>
      intro leaf fuel enough stored shaped _
      obtain ⟨fuel, rfl⟩ : ∃ less, fuel = less + 1 := ⟨fuel - 1, by omega⟩
      have loaded := load_leaf bounded stored shaped
      refine ⟨leaf, rfl, by simp [Tree.leaves], ?_⟩
      simp only [DiskBTree.reach, Tree.id, loaded, bind, Except.bind, Leaf.node]
  | succ height ih =>
      intro branch fuel enough stored shaped positive
      obtain ⟨fuel, rfl⟩ : ∃ less, fuel = less + 1 := ⟨fuel - 1, by omega⟩
      obtain ⟨branchShaped, children⟩ := shaped
      have loaded := load_branch bounded stored branchShaped positive
      obtain ⟨left, child, right, split, count⟩ :=
        branchShaped.child_cut (inside (Branch.keys branch))
      have member : child ∈ Branch.children branch := by simp [split]
      obtain ⟨leaf, found, among, reached⟩ := ih child fuel (by omega) (stored.2 child member)
        (children child member) fun id inChild =>
          positive id ((Tree.child_ids_sublist member).subset inChild)
      have selected : DiskBTree.childAt (branchNode (Branch.keys branch)
          ((Branch.children branch).map (Tree.id height))) (slot (Branch.keys branch)) =
            .ok (Tree.id height child) := by
        simp [DiskBTree.childAt, branchNode, split, ← count]
      refine ⟨leaf, ?_, List.mem_flatMap.mpr ⟨child, member, among⟩, ?_⟩
      · simp [Tree.reach, split, ← count, found]
      · change disk.reach slot (fuel + 1) (Branch.id branch) = _
        simp only [branchNode] at loaded selected
        simp only [DiskBTree.reach, loaded, bind, Except.bind, selected, reached]

/-- The emptiness test walks to the leftmost leaf. -/
theorem isEmptyFrom_eq (disk : DiskBTree) :
    ∀ (fuel : Nat) (id : PageId), disk.isEmptyFrom fuel id = (do
      let leaf ← disk.reach (fun _ => 0) fuel id
      let node ← disk.load leaf
      .ok node.keys.isEmpty) := by
  intro fuel
  induction fuel with
  | zero => intro id; rfl
  | succ fuel ih =>
      intro id
      simp only [DiskBTree.isEmptyFrom, DiskBTree.reach, bind, Except.bind]
      cases loaded : disk.load id with
      | error error => rfl
      | ok node =>
          cases kind : node.kind with
          | leaf => simp [loaded, kind]
          | internal =>
              simp only [kind]
              cases DiskBTree.childAt node 0 with
              | error error => rfl
              | ok child => simpa only [bind, Except.bind] using ih child

section Holds

variable {disk : DiskBTree}

theorem Holds.firstLeaf_eq {height : Nat} {root : Tree height} {chain : List Leaf}
    (holds : Holds disk (.tree height root chain)) :
    ∃ first, (Tree.leaves height root).head? = some first ∧
      disk.firstLeaf = .ok (some first.id) ∧ disk.firstEntries = .ok first.entries ∧
      disk.isEmpty = .ok first.entries.isEmpty := by
  have rooted := holds.root_eq
  have enough := holds.fuel_enough
  obtain ⟨stored, shaped, placed, perm, _⟩ := holds.body
  obtain ⟨first, found, among, reached⟩ := reach_stored (keyLimit_le _ _)
    (fun _ => Nat.zero_le _) height root disk.fuel enough stored shaped placed.positive
  have loaded := load_leaf (keyLimit_le _ _) (Tree.leaf_stored height root stored first among)
    (Tree.leaves_shaped height root shaped first among)
  have located : disk.firstLeaf = .ok (some first.id) := by
    simp only [DiskBTree.firstLeaf, rooted, bind, Except.bind, reached]
  refine ⟨first, (Tree.reach_first height root shaped).symm.trans found, located, ?_, ?_⟩
  · simp only [DiskBTree.firstEntries, located, bind, Except.bind, loaded, Leaf.node, zip_fst_snd]
  · simp only [DiskBTree.isEmpty, rooted, bind, Except.bind, isEmptyFrom_eq, reached, loaded,
      Leaf.node, List.isEmpty_map]

theorem Holds.targetLeaf_eq {height : Nat} {root : Tree height} {chain : List Leaf}
    (holds : Holds disk (.tree height root chain)) (key : Key) :
    ∃ target, Tree.reach (fun keys => childSlot keys key) height root = some target ∧
      target ∈ Tree.leaves height root ∧ disk.targetLeaf key = .ok (some target.id) := by
  have rooted := holds.root_eq
  have enough := holds.fuel_enough
  obtain ⟨stored, shaped, placed, perm, _⟩ := holds.body
  obtain ⟨target, found, among, reached⟩ := reach_stored
    (keyLimit_le _ _) (fun keys => childSlot_le keys key) height root disk.fuel enough stored shaped
    placed.positive
  refine ⟨target, found, among, ?_⟩
  simp only [DiskBTree.targetLeaf, rooted, bind, Except.bind, reached]

/-- Leaves are told apart by their pages. -/
theorem leaf_eq_of_id {height : Nat} {root : Tree height} {bound : Nat}
    (placed : Placed bound (Tree.ids height root)) {first second : Leaf}
    (firstIn : first ∈ Tree.leaves height root) (secondIn : second ∈ Tree.leaves height root)
    (same : first.id = second.id) : first = second :=
  List.inj_on_of_nodup_map (placed.nodup.sublist (Tree.leaf_ids_sublist height root)) firstIn
    secondIn same

/-- On a content whose first leaf is empty only with nothing elsewhere, the
emptiness test is right. -/
theorem Holds.isEmpty_iff {content : Content} (holds : Holds disk content)
    (filled : content.FirstFilled) :
    ∃ answer, disk.isEmpty = .ok answer ∧ (answer = true ↔ content.entries = []) := by
  cases content with
  | empty =>
      refine ⟨true, ?_, by simp [Content.entries, Content.chain]⟩
      simp [DiskBTree.isEmpty, holds.root_eq, bind, Except.bind]
  | tree height root chain =>
      obtain ⟨first, head, _, _, answered⟩ := holds.firstLeaf_eq
      obtain ⟨_, _, _, perm, _⟩ := holds.body
      refine ⟨_, answered, ?_⟩
      rw [List.isEmpty_iff]
      constructor
      · exact filled first head
      · intro none
        have inChain : first ∈ chain := perm.mem_iff.mpr (List.mem_of_head? head)
        exact List.flatMap_eq_nil_iff.mp none first inChain

end Holds

/-- A file of fixed layout whose first leaf is empty only with nothing elsewhere. -/
def Filled (pageSize order : Nat) (disk : DiskBTree) : Prop :=
  disk.file.pageSize = pageSize ∧ disk.order = order ∧
    ∃ content, Holds disk content ∧ content.FirstFilled

theorem Filled.isEmpty {pageSize order : Nat} {disk : DiskBTree}
    (filled : Filled pageSize order disk) :
    ∃ answer entries, disk.isEmpty = .ok answer ∧ disk.iterAll = .ok entries ∧
      (answer = true ↔ entries = []) := by
  obtain ⟨_, _, content, holds, first⟩ := filled
  obtain ⟨answer, answered, exactly⟩ := holds.isEmpty_iff first
  exact ⟨answer, content.entries, answered, holds.iterAll_eq, exactly⟩

theorem Filled.step {pageSize order : Nat} {disk : DiskBTree} (filled : Filled pageSize order disk)
    (op : Op) (short : op.key.length ≤ keyLimit pageSize order) (keeps : op.KeepsFirstLeaf disk) :
    ∃ next, op.apply disk = .ok next ∧ Filled pageSize order next := by
  obtain ⟨rfl, rfl, content, holds, first⟩ := filled
  cases op with
  | insert key value =>
      obtain ⟨pages, inserted, after, holds', changed⟩ := insert_holds holds short value
      refine ⟨_, inserted, rfl, rfl, after, holds', changed.filled first ?_⟩
      intro head isHead none
      cases content with
      | empty => simp [Content.leaves] at isHead
      | tree height root chain =>
          obtain ⟨head', isHead', located, listed, _⟩ := holds.firstLeaf_eq
          obtain ⟨target, found, among, targeted⟩ := holds.targetLeaf_eq key
          obtain rfl : head = head' := Option.some.inj (isHead.symm.trans isHead')
          have meets := keeps (by rw [listed, none])
          rw [targeted, located, Except.ok.injEq, Option.some.injEq] at meets
          obtain rfl := leaf_eq_of_id holds.body.2.2.1 among (List.mem_of_head? isHead) meets
          exact found
  | delete key value =>
      obtain ⟨pages, found, deleted, after, holds', removed⟩ := delete_holds holds key value
      refine ⟨disk.withPages pages, ?_, rfl, rfl, after, holds', removed.filled first ?_⟩
      · simp only [Op.apply, deleted, bind, Except.bind]
      · intro head isHead lone
        have listing := holds.iterAll_eq
        cases content with
        | empty => simp [Content.leaves] at isHead
        | tree height root chain =>
            obtain ⟨head', isHead', _, listed, _⟩ := holds.firstLeaf_eq
            obtain rfl : head = head' := Option.some.inj (isHead.symm.trans isHead')
            have all := keeps (by rw [listed, lone])
            exact Except.ok.inj (listing.symm.trans all)

/-- A file that a run of first-leaf-keeping operations made of a new one. -/
def Reached (pageSize order : Nat) (disk : DiskBTree) : Prop :=
  ∃ start ops, DiskBTree.create pageSize order = .ok start ∧
    (∀ op ∈ ops, op.key.length ≤ keyLimit pageSize order) ∧
    Meets Op.apply Op.KeepsFirstLeaf start ops ∧
    run Op.apply start ops = .ok disk

theorem Reached.filled {pageSize order : Nat} (accepted : validateLayout pageSize order = .ok ())
    {disk : DiskBTree} (reached : Reached pageSize order disk) : Filled pageSize order disk := by
  obtain ⟨start, ops, created, short, keeps, ran⟩ := reached
  obtain ⟨start', created', holds, size, width⟩ :=
    create_holds (Layout.of_validateLayout accepted)
  obtain rfl : start' = start := Except.ok.inj (created'.symm.trans created)
  have fresh : Filled pageSize order start' :=
    ⟨size, width, .empty, holds, fun _ head => by simp [Content.leaves] at head⟩
  obtain ⟨final, ran', filled⟩ := run_refines (fun disk (_ : Unit) => Filled pageSize order disk)
    (fun abstract _ => abstract) (fun _ _ action filled short keeps => filled.step action short keeps)
    ops start' () fresh short keeps
  obtain rfl : final = disk := Except.ok.inj (ran'.symm.trans ran)
  exact filled

end ChuSQL.Storage.BTree
