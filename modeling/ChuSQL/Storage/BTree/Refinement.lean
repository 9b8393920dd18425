import ChuSQL.Storage.BTree.Update

/-! The index as a sorted multimap. An insertion is *straddling* when some node
on its way is cut at a key that equals the separator to the right of that node;
`insert_rec` then files the new half one slot too far. Runs without straddling
insertions refine a multiset of pairs. -/

set_option autoImplicit false

namespace ChuSQL.Storage.BTree

open Library

inductive Op where
  | insert (key : Key) (value : Nat)
  | delete (key : Key) (value : Nat)
deriving Repr, DecidableEq

namespace Op

def key : Op → Key
  | insert key _ => key
  | delete key _ => key

def apply (tree : DiskBTree) : Op → Except IoError DiskBTree
  | insert key value => tree.insert key value
  | delete key value => do
      let (_, tree) ← tree.delete key value
      .ok tree

/-- What the operation does to the multiset of pairs. -/
def effect (pairs : Multiset (Key × Nat)) : Op → Multiset (Key × Nat)
  | insert key value => (key, value) ::ₘ pairs
  | delete key value => pairs.erase (key, value)

end Op

/-- The pairs inserted and not deleted. -/
def contents (ops : List Op) : Multiset (Key × Nat) := ops.foldl Op.effect 0

/-- A key inside closed bounds. -/
def Within (lo hi : Bound) (key : Key) : Prop :=
  (∀ start ∈ lo, start ≤ key) ∧ ∀ stop ∈ hi, key ≤ stop

instance (lo hi : Bound) (key : Key) : Decidable (Within lo hi key) := by
  unfold Within
  infer_instance

/-- The index answers like a sorted multimap with these pairs. -/
structure Refines (tree : DiskBTree) (pairs : Multiset (Key × Nat)) : Prop where
  scans : ∀ lo hi, ∃ out, tree.scan lo hi = .ok out ∧
    (out : Multiset (Key × Nat)) = pairs.filter (fun pair => Within lo hi pair.1) ∧
    (out.map (·.1)).Pairwise (· ≤ ·)
  lists : ∀ key, ∃ values, tree.getAll key = .ok values ∧
    (values : Multiset Nat) = (pairs.filter fun pair => pair.1 = key).map (·.2) ∧
    values.Pairwise (· ≤ ·)

namespace DiskBTree

/-- Are all nodes from a page to the leaf of the key full? -/
def overflows (tree : DiskBTree) (key : Key) : Nat → PageId → Except IoError Bool
  | 0, _ => .error .fuel
  | fuel + 1, id => do
      let node ← tree.load id
      if node.keys.length < maxKeys tree.order then .ok false
      else match node.kind with
        | .leaf => .ok true
        | .internal => do
            let child ← childAt node (childSlot node.keys key)
            overflows tree key fuel child

/-- Below a page, is some node on the way of the key going to be cut at a key
that equals the separator to its right? -/
def straddlesFrom (tree : DiskBTree) (key : Key) : Nat → PageId → Except IoError Bool
  | 0, _ => .error .fuel
  | fuel + 1, id => do
      let node ← tree.load id
      match node.kind with
      | .leaf => .ok false
      | .internal => do
          let slot := childSlot node.keys key
          let childId ← childAt node slot
          let below ← straddlesFrom tree key fuel childId
          let child ← tree.load childId
          let full ← tree.overflows key fuel childId
          .ok (below || full && node.keys[slot]?.any fun sep =>
            child.keys[tree.order / 2 - 1]? == some sep)

def straddles (tree : DiskBTree) (key : Key) : Except IoError Bool := do
  match ← tree.root with
  | none => .ok false
  | some id => straddlesFrom tree key tree.fuel id

/-- An index file created empty. -/
def create (pageSize order : Nat) : Except IoError DiskBTree := openFile ⟨pageSize, []⟩ order

end DiskBTree

/-- The step does not straddle. -/
def Op.Steady (tree : DiskBTree) : Op → Prop
  | insert key _ => tree.straddles key = .ok false
  | delete _ _ => True

instance (tree : DiskBTree) : (op : Op) → Decidable (op.Steady tree)
  | .insert key _ => inferInstanceAs (Decidable (tree.straddles key = .ok false))
  | .delete _ _ => inferInstanceAs (Decidable True)

/-! ### The condition on pages and on trees -/

theorem overflows_stored {disk : DiskBTree} {order limit : Nat} (key : Key)
    (sameOrder : disk.order = order) (bounded : limit ≤ maxKeyBytes) :
    ∀ (height : Nat) (tree : Tree height) (fuel : Nat), height < fuel →
      Stored disk.file.pages height tree → Tree.Shaped order limit height tree →
      (∀ id ∈ Tree.ids height tree, 0 < id) →
      disk.overflows key fuel (Tree.id height tree) = .ok (Tree.overflows order key height tree) := by
  intro height
  induction height with
  | zero =>
      intro leaf fuel enough stored shaped _
      obtain ⟨fuel, rfl⟩ : ∃ less, fuel = less + 1 := ⟨fuel - 1, by omega⟩
      have loaded := load_leaf bounded stored shaped
      simp only [DiskBTree.overflows, Tree.id, loaded, bind, Except.bind, Leaf.node,
        List.length_map, sameOrder, Tree.overflows]
      split
      · next less => simp [less]
      · next full => simp [Nat.le_of_not_lt full]
  | succ height ih =>
      intro branch fuel enough stored shaped positive
      obtain ⟨fuel, rfl⟩ : ∃ less, fuel = less + 1 := ⟨fuel - 1, by omega⟩
      obtain ⟨branchShaped, children⟩ := shaped
      have loaded := load_branch bounded stored branchShaped positive
      obtain ⟨left, child, right, split, count⟩ :=
        branchShaped.child_cut (childSlot_le (Branch.keys branch) key)
      have member : child ∈ Branch.children branch := by simp [split]
      have below := ih child fuel (by omega) (stored.2 child member) (children child member)
        fun id inChild => positive id ((Tree.child_ids_sublist member).subset inChild)
      have selected : DiskBTree.childAt (branchNode (Branch.keys branch)
          ((Branch.children branch).map (Tree.id height))) (childSlot (Branch.keys branch) key) =
            .ok (Tree.id height child) := by
        simp [DiskBTree.childAt, branchNode, split, ← count]
      have chosen : (Branch.children branch)[childSlot (Branch.keys branch) key]? = some child := by
        rw [split, ← count, getElem?_cut]
      simp only [branchNode] at loaded selected
      change disk.overflows key (fuel + 1) (Branch.id branch) = _
      simp only [DiskBTree.overflows, loaded, bind, Except.bind, sameOrder, selected, below,
        Tree.overflows, chosen, Option.any_some]
      split
      · next less => simp [less]
      · next full => simp [Nat.le_of_not_lt full]

theorem load_root {disk : DiskBTree} {order limit height : Nat} {tree : Tree height}
    (bounded : limit ≤ maxKeyBytes) (stored : Stored disk.file.pages height tree)
    (shaped : Tree.Shaped order limit height tree) (positive : ∀ id ∈ Tree.ids height tree, 0 < id) :
    ∃ node, disk.load (Tree.id height tree) = .ok node ∧ node.keys = Tree.rootKeys height tree := by
  cases height with
  | zero => exact ⟨_, load_leaf bounded stored shaped, rfl⟩
  | succ height => exact ⟨_, load_branch bounded stored shaped.1 positive, rfl⟩

theorem straddlesFrom_stored {disk : DiskBTree} {order limit : Nat} {key : Key}
    (sameOrder : disk.order = order) (bounded : limit ≤ maxKeyBytes) :
    ∀ (height : Nat) (tree : Tree height) (fuel : Nat), height < fuel →
      Stored disk.file.pages height tree → Tree.Shaped order limit height tree →
      (∀ id ∈ Tree.ids height tree, 0 < id) →
      disk.straddlesFrom key fuel (Tree.id height tree) =
        .ok (Tree.straddles order key height tree) := by
  intro height
  induction height with
  | zero =>
      intro leaf fuel enough stored shaped _
      obtain ⟨fuel, rfl⟩ : ∃ less, fuel = less + 1 := ⟨fuel - 1, by omega⟩
      have loaded := load_leaf bounded stored shaped
      simp only [DiskBTree.straddlesFrom, Tree.id, loaded, bind, Except.bind, Leaf.node,
        Tree.straddles]
  | succ height ih =>
      intro branch fuel enough stored shaped positive
      obtain ⟨fuel, rfl⟩ : ∃ less, fuel = less + 1 := ⟨fuel - 1, by omega⟩
      obtain ⟨branchShaped, children⟩ := shaped
      have loaded := load_branch bounded stored branchShaped positive
      obtain ⟨left, child, right, split, count⟩ :=
        branchShaped.child_cut (childSlot_le (Branch.keys branch) key)
      have member : child ∈ Branch.children branch := by simp [split]
      have childPositive := fun id inChild =>
        positive id ((Tree.child_ids_sublist member).subset inChild)
      have below := ih child fuel (by omega) (stored.2 child member) (children child member)
        childPositive
      have full := overflows_stored key sameOrder bounded height child fuel (by omega)
        (stored.2 child member) (children child member) childPositive
      obtain ⟨node, childLoaded, childKeys⟩ :=
        load_root bounded (stored.2 child member) (children child member) childPositive
      have selected : DiskBTree.childAt (branchNode (Branch.keys branch)
          ((Branch.children branch).map (Tree.id height))) (childSlot (Branch.keys branch) key) =
            .ok (Tree.id height child) := by
        simp [DiskBTree.childAt, branchNode, split, ← count]
      have chosen : (Branch.children branch)[childSlot (Branch.keys branch) key]? = some child := by
        rw [split, ← count, getElem?_cut]
      simp only [branchNode] at loaded selected
      change disk.straddlesFrom key (fuel + 1) (Branch.id branch) = _
      simp only [DiskBTree.straddlesFrom, loaded, bind, Except.bind, sameOrder, selected, below,
        full, childLoaded, childKeys, Tree.straddles, chosen, Option.any_some]

theorem Holds.straddles_eq {disk : DiskBTree} {content : Content} (holds : Holds disk content)
    (key : Key) : disk.straddles key = .ok (content.straddles disk.order key) := by
  have rooted := holds.root_eq
  cases content with
  | empty => simp [DiskBTree.straddles, rooted, bind, Except.bind, Content.straddles]
  | tree height root chain =>
      have enough := holds.fuel_enough
      obtain ⟨stored, shaped, placed, _⟩ := holds.body
      simp only [DiskBTree.straddles, rooted, bind, Except.bind, Content.straddles]
      exact straddlesFrom_stored rfl (keyLimit_le _ _) height root disk.fuel enough stored shaped
        placed.positive

/-! ### Runs -/

/-- A new index file holds nothing. -/
theorem create_holds {pageSize order : Nat} (layout : Layout pageSize order) :
    ∃ disk, DiskBTree.create pageSize order = .ok disk ∧ Holds disk .empty ∧
      disk.file.pageSize = pageSize ∧ disk.order = order := by
  have narrow := layout.narrow
  have limit := keyLimit_le pageSize order
  have least := legacyKeyBytes_le_keyLimit layout.fits
  obtain ⟨wide, sized, fits⟩ := layout
  simp only [maxKeyBytes] at limit
  simp only [maxKeys] at narrow
  simp only [maxPageSize] at sized
  have size : pageSize % 2 ^ 32 = pageSize := Nat.mod_eq_of_lt (by omega)
  have key : keyLimit pageSize order % 2 ^ 16 = keyLimit pageSize order :=
    Nat.mod_eq_of_lt (by omega)
  have width : order % 2 ^ 16 = order := Nat.mod_eq_of_lt (by omega)
  refine ⟨⟨⟨pageSize, [.header pageSize (keyLimit pageSize order) 0 order]⟩, order⟩, ?_,
    ⟨⟨wide, sized, fits⟩, ⟨_, least, le_refl _, rfl⟩, trivial⟩, rfl, rfl⟩
  have written : writeMeta pageSize order 0 = .header pageSize (keyLimit pageSize order) 0 order := by
    simp only [writeMeta, size, key, width]
  simp [DiskBTree.create, DiskBTree.openFile, fits, PageFile.writePage, written]

/-- An ordered file with these entries, of fixed page size and order. -/
def Sorted (pageSize order : Nat) (disk : DiskBTree) (pairs : Multiset (Key × Nat)) : Prop :=
  disk.file.pageSize = pageSize ∧ disk.order = order ∧
    ∃ content, Holds disk content ∧ content.Ordered ∧
      (content.entries : Multiset (Key × Nat)) = pairs

theorem Sorted.refines {pageSize order : Nat} {disk : DiskBTree} {pairs : Multiset (Key × Nat)}
    (sorted : Sorted pageSize order disk pairs) : Refines disk pairs := by
  obtain ⟨_, _, content, holds, ordered, rfl⟩ := sorted
  refine ⟨fun lo hi => ?_, fun key => ?_⟩
  · obtain ⟨scanned, keysSorted⟩ := holds.scan_eq ordered lo hi
    refine ⟨_, scanned, ?_, keysSorted.sublist (List.filter_sublist.map _)⟩
    have same : ∀ entry : Key × Nat, inBounds lo hi entry = decide (Within lo hi entry.1) := by
      intro entry
      rw [Bool.eq_iff_iff]
      cases lo <;> cases hi <;> simp [inBounds, Within]
    simp only [funext same, Multiset.filter_coe]
  · refine ⟨_, holds.getAll_eq ordered key, ?_, List.pairwise_insertionSort _ _⟩
    rw [Multiset.filter_coe, Multiset.map_coe, Multiset.coe_eq_coe]
    exact List.perm_insertionSort _ _

/-- The answer of a deletion tells whether the pair was there. -/
theorem Sorted.delete {pageSize order : Nat} {disk : DiskBTree} {pairs : Multiset (Key × Nat)}
    (sorted : Sorted pageSize order disk pairs) (key : Key) (value : Nat) :
    ∃ found next, disk.delete key value = .ok (found, next) ∧
      (found = true ↔ (key, value) ∈ pairs) ∧
      Sorted pageSize order next (pairs.erase (key, value)) := by
  obtain ⟨rfl, rfl, content, holds, ordered, rfl⟩ := sorted
  obtain ⟨pages, found, deleted, after, holds', removed⟩ := delete_holds holds key value
  refine ⟨found, _, deleted, ?_, rfl, rfl, after, holds', removed.ordered ordered, ?_⟩
  · cases found with
    | true => simpa using (removed.taken rfl).mem_iff.mpr List.mem_cons_self
    | false => simpa using removed.complete ordered rfl
  · cases found with
    | true =>
        rw [Multiset.coe_eq_coe.mpr (removed.taken rfl), ← Multiset.cons_coe,
          Multiset.erase_cons_head]
    | false =>
        rw [removed.kept rfl, Multiset.erase_of_notMem]
        exact removed.complete ordered rfl

/-- One step keeps the file ordered and does its effect. -/
theorem Sorted.step {pageSize order : Nat} {disk : DiskBTree} {pairs : Multiset (Key × Nat)}
    (sorted : Sorted pageSize order disk pairs) {op : Op}
    (short : op.key.length ≤ keyLimit pageSize order) (steady : op.Steady disk) :
    ∃ next, op.apply disk = .ok next ∧ Sorted pageSize order next (op.effect pairs) := by
  cases op with
  | insert key value =>
      obtain ⟨rfl, rfl, content, holds, ordered, rfl⟩ := sorted
      obtain ⟨pages, inserted, after, holds', changed⟩ := insert_holds holds short value
      have apart : content.straddles disk.order key = false := by
        have := holds.straddles_eq key
        rw [show disk.straddles key = .ok false from steady, Except.ok.injEq] at this
        exact this.symm
      refine ⟨_, inserted, rfl, rfl, after, holds', changed.ordered ordered apart, ?_⟩
      exact Multiset.coe_eq_coe.mpr changed.entries
  | delete key value =>
      obtain ⟨found, next, deleted, _, sorted'⟩ := sorted.delete key value
      exact ⟨next, by simp only [Op.apply, deleted, bind, Except.bind], sorted'⟩

/-- A run of steady operations on a new index file leaves exactly the pairs
inserted and not deleted, for scans, lookups and the next deletion. -/
theorem steady_run_refines {pageSize order : Nat}
    (accepted : validateLayout pageSize order = .ok ()) (ops : List Op)
    (short : ∀ op ∈ ops, op.key.length ≤ keyLimit pageSize order)
    (steady : ∀ tree, DiskBTree.create pageSize order = .ok tree →
      Meets Op.apply Op.Steady tree ops) :
    ∃ tree, (do
        let tree ← DiskBTree.create pageSize order
        run Op.apply tree ops) = .ok tree ∧
      Refines tree (contents ops) ∧
      ∀ key value, ∃ found next, tree.delete key value = .ok (found, next) ∧
        (found = true ↔ (key, value) ∈ contents ops) ∧
        Refines next ((contents ops).erase (key, value)) := by
  obtain ⟨tree, created, holds, size, width⟩ :=
    create_holds (Layout.of_validateLayout accepted)
  have start : Sorted pageSize order tree 0 :=
    ⟨size, width, .empty, holds, trivial, rfl⟩
  obtain ⟨final, ran, sorted⟩ := run_refines _ Op.effect
    (fun _ _ _ sorted short steady => sorted.step short steady) ops tree 0 start short
    (steady tree created)
  refine ⟨final, ?_, sorted.refines, fun key value => ?_⟩
  · simp only [created, bind, Except.bind, ran]
  · obtain ⟨found, next, deleted, present, sorted'⟩ := sorted.delete key value
    exact ⟨found, next, deleted, present, sorted'.refines⟩

theorem steady_run_refines_pair :
    ∃ tree, (do
        let tree ← DiskBTree.create 4096 4
        run Op.apply tree [.insert [5] 0, .insert [5] 1]) = .ok tree ∧
      Refines tree (contents [.insert [5] 0, .insert [5] 1]) ∧
      ∀ key value, ∃ found next, tree.delete key value = .ok (found, next) ∧
        (found = true ↔ (key, value) ∈ contents [.insert [5] 0, .insert [5] 1]) ∧
        Refines next ((contents [.insert [5] 0, .insert [5] 1]).erase (key, value)) :=
  steady_run_refines (by decide) _ (by decide) fun tree created => by
    have : DiskBTree.create 4096 4 = .ok ⟨⟨4096, [.header 4096 128 0 4]⟩, 4⟩ := by decide +kernel
    obtain rfl := Except.ok.inj (created.symm.trans this)
    decide +kernel

/-- Seven insertions at order 4 after which a scan is out of order: the left leaf
is cut at 5, which is also the separator to its right, so its new half is filed
behind the right neighbour, and 7 lands there. -/
theorem straddling_run_unsorted :
    let ops : List Op := [.insert [5] 0, .insert [5] 1, .insert [5] 2, .insert [6] 3,
      .insert [3] 4, .insert [4] 5, .insert [7] 6]
    validateLayout defaultPageSize defaultBtreeOrder = .ok () ∧
      (∀ op ∈ ops, op.key.length ≤ keyLimit defaultPageSize defaultBtreeOrder) ∧
      ∃ tree, (do
          let tree ← DiskBTree.create defaultPageSize defaultBtreeOrder
          run Op.apply tree ops) = .ok tree ∧
        ¬ Refines tree (contents ops) := by
  intro ops
  refine ⟨by decide, by decide, ?_⟩
  have scanned : (do
      let tree ← DiskBTree.create defaultPageSize defaultBtreeOrder
      let tree ← run Op.apply tree ops
      tree.scan none none) =
        .ok [([3], 4), ([4], 5), ([5], 0), ([5], 1), ([7], 6), ([5], 2), ([6], 3)] := by
    decide +kernel
  cases created : DiskBTree.create defaultPageSize defaultBtreeOrder with
  | error error => simp [created, bind, Except.bind] at scanned
  | ok tree =>
      cases ran : run Op.apply tree ops with
      | error error => simp [created, ran, bind, Except.bind] at scanned
      | ok final =>
          refine ⟨final, by simp [ran, bind, Except.bind], fun refines => ?_⟩
          simp only [created, ran, bind, Except.bind] at scanned
          obtain ⟨out, listed, _, sorted⟩ := refines.scans none none
          obtain rfl := Except.ok.inj (scanned.symm.trans listed)
          revert sorted
          decide

end ChuSQL.Storage.BTree
