import ChuSQL.Storage.BTree.Invariant

/-! Insertion and deletion on index files: both succeed on what an index file
holds, and change the entries by one pair. -/

set_option autoImplicit false

namespace ChuSQL.Storage.BTree

open Library

namespace Content

/-- The leaf an insertion of the key ends at. -/
def target (key : Key) : Content → Option Leaf
  | empty => none
  | tree height root _ => Tree.reach (fun keys => childSlot keys key) height root

def straddles (order : Nat) (key : Key) : Content → Bool
  | empty => false
  | tree height root _ => Tree.straddles order key height root

/-- An empty first leaf means that there are no entries. -/
def FirstFilled (content : Content) : Prop :=
  ∀ first, content.leaves.head? = some first → first.entries = [] → content.entries = []

end Content

section Chain

variable {order limit : Nat} {key : Key} {value : Nat}

/-- The settled halves of a leaf that got one more entry are not empty on the left. -/
theorem settle_head_filled (wide : 3 ≤ order) {leaf : Leaf} (fresh : Nat)
    (filled : leaf.entries ≠ []) {first : Leaf}
    (head : (leaf.settle order fresh).1.trees.head? = some first) : first.entries ≠ [] := by
  unfold Leaf.settle at head
  split at head
  · simp only [Grown.trees, List.head?_cons, Option.some.injEq] at head
    exact head ▸ filled
  · next crowded =>
    simp only [maxKeys] at crowded
    simp only [Grown.trees, List.head?_cons, Option.some.injEq] at head
    subst head
    intro none
    have := congrArg List.length none
    simp only [List.length_take, List.length_nil] at this
    omega

/-- How an insertion changes the chain of a tree. -/
theorem insert_chain (wide : 3 ≤ order) (short : key.length ≤ limit) {height : Nat}
    {tree : Tree height} (fresh : Nat) (shaped : Tree.Shaped order limit height tree)
    {chain : List Leaf} (perm : chain.Perm (Tree.leaves height tree)) {first : Leaf}
    (head : (Tree.leaves height tree).head? = some first) (linked : Linked first.id chain)
    (distinct : ((Tree.leaves height tree).map Leaf.id).Nodup) :
    let grown := (Tree.insert order key value height tree fresh).1.trees.flatMap
      (Tree.leaves height)
    ∃ changed, changed.Perm grown ∧
      (∃ first', grown.head? = some first' ∧ Linked first'.id changed) ∧
      (changed.flatMap Leaf.entries).Perm ((key, value) :: chain.flatMap Leaf.entries) ∧
      (chain = Tree.leaves height tree → Tree.Lands order key value height tree fresh →
        changed = grown) ∧
      (∀ first', grown.head? = some first' → first'.entries = [] →
        first' = first ∧ Tree.reach (fun keys => childSlot keys key) height tree ≠ some first) := by
  intro grown
  obtain ⟨before, leaf, after, leaves, reached, grownPerm, grownHead, exact'⟩ :=
    Tree.insert_leaves (by omega) short height tree fresh shaped
  have leafShaped := Tree.leaves_shaped height tree shaped leaf (by simp [leaves])
  obtain ⟨low, high, split, same⟩ : ∃ low high, chain = low ++ leaf :: high ∧
      (chain = Tree.leaves height tree → low = before ∧ high = after) := by
    by_cases straight : chain = Tree.leaves height tree
    · exact ⟨before, after, straight.trans leaves, fun _ => ⟨rfl, rfl⟩⟩
    · obtain ⟨low, high, split⟩ := List.append_of_mem (perm.mem_iff.mpr
        (show leaf ∈ Tree.leaves height tree by simp [leaves]))
      exact ⟨low, high, split, fun equal => absurd equal straight⟩
  have added := Leaf.add_perm leafShaped.sorted key value
  have addedFilled : (leaf.add key value).entries ≠ [] := by
    intro none
    simp [none] at added
  have addedLinked : Linked first.id (low ++ leaf.add key value :: high) :=
    @Linked.change low high leaf (leaf.add key value) rfl rfl _ (split ▸ linked)
  obtain ⟨part, rest, parts⟩ := Grown.trees_cons ((leaf.add key value).settle order fresh).1
  have partId : part.id = leaf.id := by
    have := Leaf.settle_head_id order (leaf.add key value) fresh
    simp only [parts, List.head?_cons, Option.map_some, Option.some.injEq] at this
    exact this
  have around : (low ++ high).Perm (before ++ after) := by
    have := perm
    rw [split, leaves] at this
    exact List.Perm.cons_inv (List.perm_middle.symm.trans (this.trans List.perm_middle))
  refine ⟨low ++ ((leaf.add key value).settle order fresh).1.trees ++ high, ?_, ?_, ?_, ?_, ?_⟩
  · exact (perm_around around _).trans grownPerm.symm
  · have relinked := Linked.settle order fresh addedLinked
    cases before with
    | nil =>
        obtain rfl : leaf = first := by simpa [leaves] using head
        refine ⟨part, by simpa [parts] using grownHead, ?_⟩
        rwa [partId]
    | cons outer before =>
        obtain rfl : outer = first := by simpa [leaves] using head
        exact ⟨outer, by simpa using grownHead, relinked⟩
  · have entries := Leaf.settle_entries order (leaf.add key value) fresh
    simp only [split, List.flatMap_append, List.flatMap_cons, entries]
    refine ((added.append_left _).append_right _).trans ?_
    simp only [List.append_assoc, List.cons_append]
    exact List.perm_middle
  · intro straight landed
    obtain ⟨rfl, rfl⟩ := same straight
    exact (exact' landed).symm
  · intro first' newHead empty
    cases before with
    | nil =>
        obtain rfl : part = first' := by
          rw [newHead] at grownHead
          simpa [parts, eq_comm] using grownHead
        exact absurd empty (settle_head_filled wide fresh addedFilled (by simp [parts]))
    | cons outer before =>
        obtain rfl : outer = first := by simpa [leaves] using head
        obtain rfl : first' = outer := by
          rw [newHead] at grownHead
          simpa using grownHead
        refine ⟨rfl, fun meets => ?_⟩
        obtain rfl : leaf = first' := Option.some.inj (reached.symm.trans meets)
        simp [leaves] at distinct

end Chain

section Pages

variable {disk : DiskBTree}

/-- Rewriting the header keeps what the other pages hold. -/
theorem Content.StoredIn.withHeader {content : Content} (stored : content.StoredIn disk)
    (page : IndexPage) :
    content.StoredIn (disk.withPages (disk.file.pages.set metaPage page)) := by
  cases content with
  | empty => trivial
  | tree height root chain =>
      obtain ⟨stored, shaped, placed, rest⟩ := stored
      refine ⟨Stored.congr height root (fun id member => ?_) stored, shaped, ?_, rest⟩
      · exact List.getElem?_set_ne (Nat.ne_of_lt (placed.positive id member))
      · simpa [DiskBTree.withPages] using placed

/-- Raising the key limit changes the header only. -/
theorem raiseKeyLimit_holds {content : Content} (holds : Holds disk content) (key : Key) :
    ∃ pages, disk.raiseKeyLimit key = .ok (disk.withPages pages) ∧
      pages.length = disk.file.pages.length ∧ Holds (disk.withPages pages) content := by
  obtain ⟨layout, ⟨maxKey, least, most, found⟩, body⟩ := holds
  have inside := (List.getElem?_eq_some_iff.mp found).1
  have unchanged : Holds (disk.withPages disk.file.pages) content :=
    ⟨layout, ⟨maxKey, least, most, found⟩, body⟩
  by_cases long : key.length > legacyKeyBytes
  · by_cases same : maxKey = keyLimit disk.file.pageSize disk.order
    · refine ⟨disk.file.pages, ?_, rfl, unchanged⟩
      simp [DiskBTree.raiseKeyLimit, long, PageFile.withPage_of_getElem? found, bind, Except.bind,
        same, DiskBTree.withPages]
    · have limit := keyLimit_le disk.file.pageSize disk.order
      have small : keyLimit disk.file.pageSize disk.order % 2 ^ 16 =
          keyLimit disk.file.pageSize disk.order := by
        simp only [maxKeyBytes] at limit
        exact Nat.mod_eq_of_lt (by omega)
      refine ⟨disk.file.pages.set metaPage (.header disk.file.pageSize
        (keyLimit disk.file.pageSize disk.order) content.rootId disk.order), ?_, List.length_set,
        layout, ⟨_, le_trans least most, le_refl _, ?_⟩, body.withHeader _⟩
      · simp only [DiskBTree.raiseKeyLimit, long, ↓reduceIte, PageFile.withPage_of_getElem? found,
          bind, Except.bind, id, same, ne_eq, not_false_eq_true, PageFile.writePage,
          PageFile.numPages, inside, small]
        rfl
      · simp [DiskBTree.withPages, inside]
  · refine ⟨disk.file.pages, ?_, rfl, unchanged⟩
    simp [DiskBTree.raiseKeyLimit, long, DiskBTree.withPages]

theorem setRoot_image {pageSize maxKey order root : Nat}
    (found : disk.file.pages[metaPage]? = some (.header pageSize maxKey root order))
    (changed : Option Nat) :
    disk.setRoot changed = .ok (disk.withPages
      (disk.file.pages.set metaPage (.header pageSize maxKey (changed.getD 0) order))) := by
  simp [DiskBTree.setRoot, PageFile.updatePage, found, bind, Except.bind, DiskBTree.withPages]

theorem checkKey_ok {pageSize order : Nat} {key : Key} (short : key.length ≤ keyLimit pageSize order) :
    DiskBTree.checkKey key pageSize order = .ok () := by
  simp [DiskBTree.checkKey, short]

/-- What an insertion makes of the content. -/
structure Content.Inserted (order : Nat) (key : Key) (value : Nat) (before after : Content) :
    Prop where
  entries : after.entries.Perm ((key, value) :: before.entries)
  ordered : before.Ordered → before.straddles order key = false → after.Ordered
  filled : before.FirstFilled →
    (∀ first, before.leaves.head? = some first → first.entries = [] →
      before.target key = some first) → after.FirstFilled

/-- The first insertion makes a tree of one leaf. -/
theorem insert_first (holds : Holds disk .empty) {key : Key}
    (short : key.length ≤ keyLimit disk.file.pageSize disk.order) (value : Nat) :
    ∃ pages, (do
        let (id, tree) ← disk.alloc ⟨.leaf, 0, [key], [value]⟩
        tree.setRoot (some id)) = .ok (disk.withPages pages) ∧
      ∃ after, Holds (disk.withPages pages) after ∧
        Content.Inserted disk.order key value .empty after := by
  obtain ⟨layout, ⟨maxKey, least, most, found⟩, _⟩ := holds
  have wide := layout.wide
  have inside := (List.getElem?_eq_some_iff.mp found).1
  obtain ⟨leaf, leafIs⟩ : ∃ leaf : Leaf, leaf = ⟨disk.file.pages.length, 0, [(key, value)]⟩ := ⟨_, rfl⟩
  have shaped : Leaf.Shaped disk.order (keyLimit disk.file.pageSize disk.order) leaf := by
    subst leafIs
    exact ⟨by simp only [List.length_singleton, maxKeys]; omega, by simp, by simpa using short⟩
  have written := putNode_leaf layout shaped
  have found' : (disk.withPages (disk.file.pages ++ [leaf.image])).file.pages[metaPage]? =
      some (.header disk.file.pageSize maxKey 0 disk.order) := by
    simp only [DiskBTree.withPages, List.getElem?_append_left inside]
    exact found
  have placed : Placed ((disk.file.pages ++ [leaf.image]).set metaPage
      (.header disk.file.pageSize maxKey disk.file.pages.length disk.order)).length
      (Tree.ids 0 leaf) := by
    subst leafIs
    refine ⟨by simp [Tree.ids], ?_, by simp [Tree.ids]⟩
    simp only [Tree.ids, List.mem_singleton, forall_eq]
    exact Nat.lt_of_le_of_lt (Nat.zero_le _) inside
  refine ⟨(disk.file.pages ++ [leaf.image]).set metaPage
    (.header disk.file.pageSize maxKey disk.file.pages.length disk.order), ?_,
    .tree 0 leaf [leaf], ⟨layout, ⟨maxKey, least, most, ?_⟩, ?_, shaped, placed, List.Perm.refl _, leaf, rfl, ?_⟩, ?_⟩
  · have node : leaf.node = ⟨.leaf, 0, [key], [value]⟩ := by rw [leafIs]; rfl
    rw [node] at written
    simp only [alloc_image written, setRoot_image found', bind, Except.bind, Option.getD_some]
    rfl
  · simp only [DiskBTree.withPages, Content.rootId, Tree.id, leafIs]
    exact List.getElem?_set_self (by rw [List.length_append]; omega)
  · have atLeaf : ((disk.file.pages ++ [leaf.image]).set metaPage (.header disk.file.pageSize
        maxKey disk.file.pages.length disk.order))[leaf.id]? = some leaf.image := by
      rw [List.getElem?_set_ne (by rw [leafIs]; exact Nat.ne_of_lt inside), leafIs]
      simp
    exact atLeaf
  · subst leafIs; exact ⟨rfl, rfl⟩
  · subst leafIs
    refine ⟨by simp [Content.entries, Content.chain], fun _ _ => ⟨by simp [Tree.inorder], rfl⟩, ?_⟩
    intro _ _ first head empty
    simp only [Content.leaves, Tree.leaves, List.head?_cons, Option.some.injEq] at head
    simp [← head] at empty

variable (disk) in
/-- A split root gets a new root above its halves. -/
theorem grow_root {maxKey root : Nat} (layout : Layout disk.file.pageSize disk.order)
    (found : disk.file.pages[metaPage]? =
      some (.header disk.file.pageSize maxKey root disk.order))
    {height : Nat} {left right : Tree height} {sep : Key}
    (parts : ∀ part ∈ [left, right], Stored disk.file.pages height part ∧
      Tree.Shaped disk.order (keyLimit disk.file.pageSize disk.order) height part)
    (short : sep.length ≤ keyLimit disk.file.pageSize disk.order)
    (placed : Placed disk.file.pages.length ([left, right].flatMap (Tree.ids height))) :
    ∃ pages, (do
        let (id, tree) ← disk.alloc ⟨.internal, 0, [sep], [Tree.id height left, Tree.id height right]⟩
        tree.setRoot (some id)) = .ok (disk.withPages pages) ∧
      let branch : Branch (Tree height) := ⟨disk.file.pages.length, [sep], [left, right]⟩
      pages[metaPage]? =
          some (.header disk.file.pageSize maxKey (Tree.id (height + 1) branch) disk.order) ∧
        Stored pages (height + 1) branch ∧
        Tree.Shaped disk.order (keyLimit disk.file.pageSize disk.order) (height + 1) branch ∧
        Placed pages.length (Tree.ids (height + 1) branch) := by
  have wide := layout.wide
  have inside := (List.getElem?_eq_some_iff.mp found).1
  obtain ⟨branch, branchIs⟩ : ∃ branch : Branch (Tree height),
      branch = ⟨disk.file.pages.length, [sep], [left, right]⟩ := ⟨_, rfl⟩
  have shaped : branch.Shaped disk.order (keyLimit disk.file.pageSize disk.order) := by
    subst branchIs
    exact ⟨by simp only [List.length_singleton, maxKeys]; omega, rfl, by simp, by simpa using short⟩
  have written := putNode_branch layout shaped (branch.children.map (Tree.id height))
  have found' : (disk.withPages (disk.file.pages ++
      [branchImage branch.keys (branch.children.map (Tree.id height))])).file.pages[metaPage]? =
        some (.header disk.file.pageSize maxKey root disk.order) := by
    simp only [DiskBTree.withPages, List.getElem?_append_left inside]
    exact found
  have kept : ∀ id, 0 < id → id < disk.file.pages.length →
      ((disk.file.pages ++ [branchImage branch.keys (branch.children.map (Tree.id height))]).set
        metaPage (.header disk.file.pageSize maxKey disk.file.pages.length disk.order))[id]? =
          disk.file.pages[id]? := by
    intro id positive below
    have apart : metaPage ≠ id := Nat.ne_of_lt positive
    rw [List.getElem?_set_ne apart, List.getElem?_append_left below]
  have ids : Tree.ids (height + 1) branch =
      disk.file.pages.length :: [left, right].flatMap (Tree.ids height) := by
    rw [branchIs]
    rfl
  refine ⟨(disk.file.pages ++ [branchImage branch.keys (branch.children.map (Tree.id height))]).set
    metaPage (.header disk.file.pageSize maxKey disk.file.pages.length disk.order), ?_, ?_⟩
  · have node : branchNode branch.keys (branch.children.map (Tree.id height)) =
        ⟨.internal, 0, [sep], [Tree.id height left, Tree.id height right]⟩ := by
      rw [branchIs]
      rfl
    rw [node] at written
    simp only [alloc_image written, setRoot_image found', bind, Except.bind, Option.getD_some]
    rfl
  · rw [← branchIs]
    refine ⟨?_, ⟨?_, ?_⟩, ⟨shaped, ?_⟩, ?_⟩
    · simp only [Tree.id, branchIs]
      exact List.getElem?_set_self (by rw [List.length_append]; omega)
    · rw [branchIs, List.getElem?_set_ne (Nat.ne_of_lt inside)]
      simp
    · intro child member
      have inParts : child ∈ [left, right] := by simpa [branchIs] using member
      refine Stored.congr height child (fun id inIds => kept id ?_ ?_) (parts child inParts).1
      · exact placed.positive id (List.mem_flatMap.mpr ⟨child, inParts, inIds⟩)
      · exact placed.below id (List.mem_flatMap.mpr ⟨child, inParts, inIds⟩)
    · intro child member
      exact (parts child (by simpa [branchIs] using member)).2
    · rw [ids]
      refine ⟨List.nodup_cons.mpr ⟨fun member => ?_, placed.nodup⟩, ?_, ?_⟩
      · exact lt_irrefl _ (placed.below _ member)
      · intro id member
        rcases List.mem_cons.mp member with rfl | member
        · exact lt_of_le_of_lt (Nat.zero_le _) inside
        · exact placed.positive id member
      · intro id member
        simp only [List.length_set, List.length_append, List.length_singleton]
        rcases List.mem_cons.mp member with rfl | member
        · exact Nat.lt_succ_self _
        · exact Nat.lt_succ_of_lt (placed.below id member)

/-- Insertion below an existing root. -/
theorem insert_below {height : Nat} {root : Tree height} {chain : List Leaf}
    (holds : Holds disk (.tree height root chain)) {key : Key}
    (short : key.length ≤ keyLimit disk.file.pageSize disk.order) (value : Nat) :
    ∃ pages, (do
        match ← DiskBTree.insertRec disk.fuel disk (Tree.id height root) key value with
        | (none, tree) => .ok tree
        | (some (sep, rightId), tree) => do
            let (id, tree) ← tree.alloc ⟨.internal, 0, [sep], [Tree.id height root, rightId]⟩
            tree.setRoot (some id)) = .ok (disk.withPages pages) ∧
      ∃ after, Holds (disk.withPages pages) after ∧
        Content.Inserted disk.order key value (.tree height root chain) after := by
  have enough := holds.fuel_enough
  have positive := holds.pages_pos
  obtain ⟨layout, ⟨maxKey, least, most, found⟩, stored, shaped, placed, perm, first, head, linked⟩ :=
    holds
  have wide := layout.wide
  obtain ⟨pages, inserted, length, frames, parts⟩ :=
    insertRec_stored short (keyLimit_le _ _) height root disk disk.fuel enough
      layout rfl rfl stored shaped placed
  have shapes := Tree.insert_shaped value (by omega) short height root
    disk.file.pages.length shaped
  have grownPlaced := Tree.insert_placed key value shaped
    (show Placed _ ([] ++ Tree.ids height root) from placed) positive
  have sameId := Tree.insert_head_id key value height root
    disk.file.pages.length shaped
  have distinct := placed.nodup.sublist (Tree.leaf_ids_sublist height root)
  obtain ⟨chain', perm', ⟨first', head', linked'⟩, entries, straight, filled⟩ :=
    insert_chain wide short disk.file.pages.length shaped perm head linked distinct
  have header : pages[metaPage]? =
      some (.header disk.file.pageSize maxKey (Tree.id height root) disk.order) := by
    rw [frames metaPage positive fun member => lt_irrefl 0 (placed.positive _ member)]
    exact found
  have lands : (Tree.inorder height root).Pairwise (· ≤ ·) →
      Tree.straddles disk.order key height root = false →
      Tree.Lands disk.order key value height root disk.file.pages.length := fun sorted apart =>
    (Tree.lands_of_not_straddles wide height root _ shaped sorted apart).1
  have ordered := Tree.insert_inorder key value height root
    disk.file.pages.length shaped
  have stillFilled : ∀ after : Content, after.leaves.head? = some first' → after.chain = chain' →
      (Content.tree height root chain).FirstFilled →
      (∀ first, (Content.tree height root chain).leaves.head? = some first → first.entries = [] →
        (Content.tree height root chain).target key = some first) → after.FirstFilled := by
    intro after afterHead _ before routed first'' newHead empty
    obtain rfl : first' = first'' := Option.some.inj (afterHead.symm.trans newHead)
    obtain ⟨rfl, elsewhere⟩ := filled first' head' empty
    exact absurd (routed first' head empty) elsewhere
  rw [inserted]
  generalize Tree.insert disk.order key value height root disk.file.pages.length = outcome at *
  obtain ⟨grown, next⟩ := outcome
  simp only at length parts shapes grownPlaced sameId perm' head' straight ordered lands
  subst length
  cases grown with
  | whole part =>
      simp only [Grown.trees, Grown.seps, List.head?_cons, Option.map_some, Option.some.injEq,
        List.flatMap_cons, List.flatMap_nil, List.append_nil, List.nil_append, List.mem_singleton,
        forall_eq, Tree.grownInorder, List.map_cons, List.map_nil, weave] at *
      refine ⟨pages, rfl, .tree height part chain', ⟨layout, ⟨maxKey, least, most, ?_⟩, parts,
        shapes.1, grownPlaced, perm', first', head', linked'⟩, entries, ?_, ?_⟩
      · rw [Content.rootId, sameId]
        exact header
      · rintro ⟨sorted, chained⟩ apart
        have landed := lands sorted apart
        exact ⟨(ordered sorted landed).1, straight chained landed⟩
      · exact stillFilled _ head' rfl
  | split left sep right =>
      have bodies : ∀ part ∈ [left, right], Stored pages height part ∧
          Tree.Shaped disk.order (keyLimit disk.file.pageSize disk.order) height part :=
        fun part member => ⟨parts part member, shapes.1 part member⟩
      obtain ⟨final, grew, header', stored', shaped', placed'⟩ :=
        grow_root (disk.withPages pages) layout header bodies
          (shapes.2 sep (by simp [Grown.seps])) (by simpa [Grown.trees, DiskBTree.withPages] using grownPlaced)
      have sameLeft : Tree.id height left = Tree.id height root := by
        simpa [Grown.trees] using sameId
      rw [sameLeft] at grew
      refine ⟨final, grew, .tree (height + 1) ⟨pages.length, [sep], [left, right]⟩ chain',
        ⟨layout, ⟨maxKey, least, most, header'⟩, stored', shaped', placed', ?_, first', ?_, linked'⟩,
        entries, ?_, ?_⟩
      · exact perm'
      · exact head'
      · rintro ⟨sorted, chained⟩ apart
        have landed := lands sorted apart
        exact ⟨(ordered sorted landed).1, straight chained landed⟩
      · exact stillFilled _ head' rfl

/-- Insertion of a short enough key succeeds. -/
theorem insert_holds {content : Content} (holds : Holds disk content) {key : Key}
    (short : key.length ≤ keyLimit disk.file.pageSize disk.order) (value : Nat) :
    ∃ pages, disk.insert key value = .ok (disk.withPages pages) ∧
      ∃ after, Holds (disk.withPages pages) after ∧
        content.Inserted disk.order key value after := by
  obtain ⟨raised, raising, _, holds'⟩ := raiseKeyLimit_holds holds key
  have allowed : disk.validateKey key = .ok () := checkKey_ok short
  have rooted := holds'.root_eq
  simp only [DiskBTree.insert, allowed, raising, rooted, bind, Except.bind]
  cases content with
  | empty => exact insert_first holds' short value
  | tree height root chain => exact insert_below holds' short value

/-- What a deletion makes of the content. -/
structure Content.Removed (key : Key) (value : Nat) (before after : Content) (found : Bool) :
    Prop where
  taken : found = true → before.entries.Perm ((key, value) :: after.entries)
  kept : found = false → after = before
  ordered : before.Ordered → after.Ordered
  complete : before.Ordered → found = false → (key, value) ∉ before.entries
  filled : before.FirstFilled →
    (∀ first, before.leaves.head? = some first → first.entries = [(key, value)] →
      before.entries = [(key, value)]) → after.FirstFilled

/-- A deletion that found nothing leaves everything as it was. -/
theorem Content.Removed.nothing {content : Content} {key : Key} {value : Nat}
    (absent : content.Ordered → (key, value) ∉ content.entries) :
    content.Removed key value content false :=
  ⟨nofun, fun _ => rfl, id, fun ordered _ => absent ordered, fun filled _ => filled⟩

/-- The chain after a deletion from one of its leaves. -/
theorem delete_chain {order limit height : Nat} {key : Key} {value : Nat}
    {root root' : Tree height} (shaped : Tree.Shaped order limit height root)
    (deleted : Tree.delete key value height root = some root') {chain : List Leaf}
    (perm : chain.Perm (Tree.leaves height root)) {first : Leaf}
    (head : (Tree.leaves height root).head? = some first) (linked : Linked first.id chain) :
    ∃ chain', chain'.Perm (Tree.leaves height root') ∧
      (∃ first', (Tree.leaves height root').head? = some first' ∧ Linked first'.id chain') ∧
      (Content.tree height root chain).Removed key value (.tree height root' chain') true := by
  obtain ⟨before, leaf, after, low, high, leaves, entries, leaves'⟩ :=
    Tree.delete_leaves height root root' shaped deleted
  obtain ⟨left, right, split, same⟩ : ∃ left right, chain = left ++ leaf :: right ∧
      (chain = Tree.leaves height root → left = before ∧ right = after) := by
    by_cases straight : chain = Tree.leaves height root
    · exact ⟨before, after, straight.trans leaves, fun _ => ⟨rfl, rfl⟩⟩
    · obtain ⟨left, right, split⟩ := List.append_of_mem (perm.mem_iff.mpr
        (show leaf ∈ Tree.leaves height root by simp [leaves]))
      exact ⟨left, right, split, fun equal => absurd equal straight⟩
  obtain ⟨changed, changedIs⟩ : ∃ changed : Leaf, changed = { leaf with entries := low ++ high } :=
    ⟨_, rfl⟩
  rw [← changedIs] at leaves'
  have around : (left ++ right).Perm (before ++ after) := by
    have := perm
    rw [split, leaves] at this
    exact List.Perm.cons_inv (List.perm_middle.symm.trans (this.trans List.perm_middle))
  have relinked : Linked first.id (left ++ changed :: right) :=
    Linked.change (by rw [changedIs]) (by rw [changedIs]) (split ▸ linked)
  have taken : (chain.flatMap Leaf.entries).Perm
      ((key, value) :: (left ++ changed :: right).flatMap Leaf.entries) := by
    simp only [split, List.flatMap_append, List.flatMap_cons, entries, changedIs]
    simp only [List.append_assoc, List.cons_append]
    have moved := @List.perm_middle _ (key, value) (left.flatMap Leaf.entries ++ low)
      (high ++ right.flatMap Leaf.entries)
    simpa using moved
  refine ⟨left ++ changed :: right, ?_, ?_, fun _ => taken, nofun, ?_, nofun, ?_⟩
  · rw [leaves']
    exact List.perm_middle.trans ((around.cons changed).trans List.perm_middle.symm)
  · cases before with
    | nil =>
        obtain rfl : leaf = first := by simpa [leaves] using head
        refine ⟨changed, by simp [leaves'], ?_⟩
        rw [show changed.id = leaf.id by rw [changedIs]]
        exact relinked
    | cons outer before =>
        obtain rfl : outer = first := by simpa [leaves] using head
        exact ⟨outer, by simp [leaves'], relinked⟩
  · rintro ⟨sorted, straight⟩
    obtain ⟨rfl, rfl⟩ := same straight
    exact ⟨sorted.sublist (Tree.delete_inorder_sublist height root root' shaped deleted),
      leaves'.symm⟩
  · intro filled lone first' head' empty
    cases before with
    | nil =>
        obtain rfl : leaf = first := by simpa [leaves] using head
        obtain rfl : changed = first' := by simpa [Content.leaves, leaves'] using head'
        rw [changedIs] at empty
        obtain ⟨rfl, rfl⟩ := List.append_eq_nil_iff.mp empty
        have all := lone leaf (by simp [Content.leaves, leaves]) entries
        simp only [Content.entries, Content.chain] at all
        rw [all] at taken
        exact (List.Perm.cons_inv taken).symm.eq_nil
    | cons outer before =>
        obtain rfl : outer = first' := by simpa [Content.leaves, leaves'] using head'
        have none := filled outer (by simp [Content.leaves, leaves]) empty
        simp only [Content.entries, Content.chain] at none
        rw [none] at taken
        simp at taken

/-- A deletion succeeds, whether it finds the pair or not. -/
theorem delete_holds {content : Content} (holds : Holds disk content) (key : Key) (value : Nat) :
    ∃ pages found, disk.delete key value = .ok (found, disk.withPages pages) ∧
      ∃ after, Holds (disk.withPages pages) after ∧ content.Removed key value after found := by
  have rooted := holds.root_eq
  cases content with
  | empty =>
      refine ⟨disk.file.pages, false, ?_, .empty, holds, .nothing fun _ => by
        simp [Content.entries, Content.chain]⟩
      simp [DiskBTree.delete, rooted, bind, Except.bind, DiskBTree.withPages]
  | tree height root chain =>
      have enough := holds.fuel_enough
      have positive := holds.pages_pos
      obtain ⟨layout, ⟨maxKey, least, most, header⟩, stored, shaped, placed, perm, first, head,
        linked⟩ := id holds
      obtain ⟨pages, deleted, outcome⟩ := deleteRec_stored key value
        (keyLimit_le _ _) height root disk disk.fuel enough layout rfl rfl stored shaped placed
      have ran : disk.delete key value =
          .ok ((Tree.delete key value height root).isSome, disk.withPages pages) := by
        simp only [DiskBTree.delete, rooted, bind, Except.bind, deleted]
      refine ⟨pages, _, ran, ?_⟩
      cases result : Tree.delete key value height root with
      | none =>
          rw [result] at outcome
          obtain rfl : pages = disk.file.pages := outcome
          refine ⟨_, holds, .nothing ?_⟩
          rintro ⟨sorted, chained⟩
          have absent := Tree.delete_none height root shaped sorted result
          rw [← chained] at absent
          exact absent
      | some root' =>
          rw [result] at outcome
          obtain ⟨length, frames, stored'⟩ := outcome
          obtain ⟨sameId, sameIds⟩ := Tree.delete_ids height root root' shaped result
          obtain ⟨chain', perm', newHead, removed⟩ := delete_chain shaped result perm head linked
          refine ⟨.tree height root' chain', ⟨layout, ⟨maxKey, least, most, ?_⟩, stored',
            Tree.delete_shaped height root root' shaped result, ?_, perm', newHead⟩, removed⟩
          · rw [Content.rootId, sameId]
            refine (frames metaPage positive fun member => ?_).trans header
            rw [sameIds] at member
            exact lt_irrefl 0 (placed.positive _ member)
          · rw [sameIds]
            simpa [DiskBTree.withPages, length] using placed

end Pages

end ChuSQL.Storage.BTree
