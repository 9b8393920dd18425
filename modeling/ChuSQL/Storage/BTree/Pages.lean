import ChuSQL.Storage.BTree.Straddle

/-! Nodes on pages. A shaped leaf or branch survives the trip through its page
image, and the page procedures for one node do to its page what `settle` does
to the node. -/

set_option autoImplicit false

namespace ChuSQL.Storage.BTree

open Library

/-- What the configuration check leaves of the layout options. -/
structure Layout (pageSize order : Nat) : Prop where
  wide : 3 ≤ order
  sized : pageSize ≤ maxPageSize
  fits : fitsInPage pageSize order = true

theorem Layout.of_validateLayout {pageSize order : Nat}
    (accepted : validateLayout pageSize order = .ok ()) : Layout pageSize order := by
  obtain ⟨wide, sized, fits⟩ := validateLayout_ok accepted
  exact ⟨wide, sized, fits⟩

/-- The order is small: a page has room for a few hundred cells only. -/
theorem Layout.narrow {pageSize order : Nat} (layout : Layout pageSize order) :
    maxKeys order < 1000 := by
  obtain ⟨_, sized, fits⟩ := layout
  simp only [fitsInPage, Bool.and_eq_true, decide_eq_true_eq] at fits
  simp only [maxKeys, header, slotSize, maxCellBytes, cellFixed, legacyKeyBytes,
    maxPageSize] at fits sized ⊢
  omega

def Leaf.node (leaf : Leaf) : Node :=
  ⟨.leaf, leaf.next, leaf.entries.map (·.1), leaf.entries.map (·.2)⟩

def branchNode (keys : List Key) (children : List Nat) : Node :=
  ⟨.internal, 0, keys, children⟩

def Leaf.image (leaf : Leaf) : IndexPage := .cells .leaf leaf.next leaf.entries

section Codec

variable {pageSize order : Nat}

/-- Keys of allowed length and number fit into one page. -/
theorem nodeBytes_fits (fits : fitsInPage pageSize order = true) (node : Node)
    (count : node.keys.length ≤ maxKeys order)
    (short : ∀ key ∈ node.keys, key.length ≤ keyLimit pageSize order) :
    nodeBytes node ≤ pageSize := by
  have cells : (node.keys.map cellBytes).sum ≤
      node.keys.length * (cellFixed + keyLimit pageSize order) := by
    have each := List.sum_le_card_nsmul (node.keys.map cellBytes)
      (cellFixed + keyLimit pageSize order) (by
        intro bytes member
        obtain ⟨key, inside, rfl⟩ := List.mem_map.mp member
        exact Nat.add_le_add_left (short key inside) _)
    simpa using each
  have full := keyLimit_fits fits
  have scaled := Nat.mul_le_mul_right (slotSize + cellFixed + keyLimit pageSize order) count
  have spread : node.keys.length * (slotSize + cellFixed + keyLimit pageSize order) =
      node.keys.length * slotSize +
        node.keys.length * (cellFixed + keyLimit pageSize order) := by ring
  simp only [nodeBytes]
  omega

theorem nodeBytes_le (layout : Layout pageSize order) (node : Node)
    (count : node.keys.length ≤ maxKeys order)
    (short : ∀ key ∈ node.keys, key.length ≤ keyLimit pageSize order) :
    nodeBytes node ≤ pageSize := nodeBytes_fits layout.fits node count short

theorem putNode_leaf (layout : Layout pageSize order) {leaf : Leaf}
    (shaped : leaf.Shaped order (keyLimit pageSize order)) :
    putNode pageSize leaf.node = .ok leaf.image := by
  have count : leaf.node.keys.length ≤ maxKeys order := by simpa [Leaf.node] using shaped.count
  have bytes := nodeBytes_le layout _ count (by
    intro key member
    obtain ⟨entry, inside, rfl⟩ := List.mem_map.mp member
    exact shaped.short entry inside)
  have bounded := layout.narrow
  simp only [putNode]
  rw [if_neg (by omega)]
  simp [Leaf.node, Leaf.image, zip_fst_snd]

theorem putNode_branch (layout : Layout pageSize order) {Child : Type} {branch : Branch Child}
    (shaped : branch.Shaped order (keyLimit pageSize order)) (children : List Nat) :
    putNode pageSize (branchNode branch.keys children) =
      .ok (branchImage branch.keys children) := by
  have bytes := nodeBytes_le layout (branchNode branch.keys children)
    shaped.count shaped.short
  have bounded := layout.narrow
  have count := shaped.count
  simp only [putNode]
  rw [if_neg (by simp only [branchNode] at *; omega)]
  rfl

theorem adjacent_sorted {keys : List Key} (sorted : keys.Pairwise (· ≤ ·)) :
    (keys.zip keys.tail).any (fun pair => pair.1 > pair.2) = false := by
  induction keys with
  | nil => rfl
  | cons first rest ih =>
      obtain ⟨before, sorted⟩ := List.pairwise_cons.mp sorted
      cases rest with
      | nil => rfl
      | cons second rest =>
          have ordered := before second List.mem_cons_self
          simpa [List.any_cons, ordered] using ih sorted

theorem getNode_leaf {limit : Nat} (bounded : limit ≤ maxKeyBytes) {leaf : Leaf}
    (shaped : leaf.Shaped order limit) : getNode leaf.image = .ok leaf.node := by
  have long : leaf.entries.any (fun cell => cell.1.length > maxKeyBytes) = false := by
    rw [List.any_eq_false]
    intro entry member
    have := shaped.short entry member
    simp only [gt_iff_lt, decide_eq_true_eq]
    omega
  simp only [getNode, Leaf.image, long, adjacent_sorted (keys_sorted shaped.sorted)]
  rfl

/-- The cells and the trailer of an internal page give the children back. -/
theorem zip_getLast {keys : List Key} {children : List Nat}
    (fanout : children.length = keys.length + 1) :
    (keys.zip children).map (·.1) = keys ∧
      (keys.zip children).map (·.2) ++ [children.getLast?.getD 0] = children := by
  rcases List.eq_nil_or_concat children with rfl | ⟨front, last, rfl⟩
  · simp at fanout
  · have same : keys.length = front.length := by simp at fanout; omega
    have zipped : keys.zip (front ++ [last]) = keys.zip front := by
      have : (keys ++ []).zip (front ++ [last]) = keys.zip front ++ [].zip [last] := zip_cut same
      simpa using this
    rw [List.concat_eq_append, zipped]
    exact ⟨List.map_fst_zip same.le, by simp [List.map_snd_zip same.ge]⟩

theorem getNode_branch {limit : Nat} (bounded : limit ≤ maxKeyBytes) {Child : Type}
    {branch : Branch Child} (shaped : branch.Shaped order limit) {children : List Nat}
    (fanout : children.length = branch.keys.length + 1) (positive : ∀ child ∈ children, 0 < child) :
    getNode (branchImage branch.keys children) = .ok (branchNode branch.keys children) := by
  obtain ⟨keys, values⟩ := zip_getLast fanout
  have long : (branch.keys.zip children).any (fun cell => cell.1.length > maxKeyBytes) = false := by
    rw [List.any_eq_false]
    intro entry member
    have := shaped.short entry.1 (List.of_mem_zip member).1
    simp only [gt_iff_lt, decide_eq_true_eq]
    omega
  have nonzero : children.contains metaPage = false := by
    rw [List.contains_eq_mem, decide_eq_false_iff_not]
    intro member
    exact absurd (positive metaPage member) (lt_irrefl 0)
  simp only [getNode, branchImage, keys, values, long, adjacent_sorted shaped.sorted, nonzero]
  rfl

end Codec

end ChuSQL.Storage.BTree
