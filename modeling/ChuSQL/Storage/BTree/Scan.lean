import ChuSQL.Storage.BTree.Simulation

/-! Scans on stored trees: where the descent ends, and what following the
chain collects. -/

set_option autoImplicit false

namespace ChuSQL.Storage.BTree

open Library
open DiskBTree (scanCells scanSlot)

/-- An entry with its key inside the bounds. -/
def inBounds (lo hi : Bound) (entry : Key × Nat) : Bool :=
  !lo.any (fun start => entry.1 < start) && !hi.any (fun stop => entry.1 > stop)

/-- What a scan collects from a chain of leaves. -/
def scanLeaves (lo hi : Bound) : List Leaf → List (Key × Nat)
  | [] => []
  | leaf :: rest =>
      match scanCells lo hi leaf.entries with
      | (out, true) => out
      | (out, false) => out ++ scanLeaves lo hi rest

/-- A chain is read to its end when there is fuel for each of its leaves. -/
theorem scanChain_linked {disk : DiskBTree} {lo hi : Bound} {order limit : Nat}
    (bounded : limit ≤ maxKeyBytes) :
    ∀ (chain : List Leaf) (start fuel : Nat), Linked start chain → chain.length ≤ fuel →
      (∀ leaf ∈ chain, 0 < leaf.id ∧ Stored disk.file.pages 0 leaf ∧ Leaf.Shaped order limit leaf) →
      disk.scanChain lo hi fuel start = .ok (scanLeaves lo hi chain) := by
  intro chain
  induction chain with
  | nil =>
      intro start fuel linked _ _
      obtain rfl : start = 0 := linked
      cases fuel <;> rfl
  | cons leaf rest ih =>
      rintro start fuel ⟨same, linked⟩ enough each
      obtain ⟨positive, stored, shaped⟩ := each leaf List.mem_cons_self
      obtain ⟨fuel, rfl⟩ : ∃ less, fuel = less + 1 := by
        simp only [List.length_cons] at enough
        exact ⟨fuel - 1, by omega⟩
      obtain ⟨page, rfl⟩ : ∃ page, start = page + 1 := ⟨start - 1, by omega⟩
      have remaining := ih leaf.next fuel linked (by simpa using enough)
        fun other member => each other (List.mem_cons_of_mem _ member)
      have loaded := load_leaf bounded stored shaped
      rw [same] at loaded
      simp only [DiskBTree.scanChain, loaded, bind, Except.bind, Leaf.node, zip_fst_snd, remaining,
        scanLeaves]
      cases scanCells lo hi leaf.entries with
      | mk out passed => cases passed <;> rfl

/-! ### What is collected -/

theorem scanCells_open (entries : List (Key × Nat)) : scanCells none none entries = (entries, false) := by
  induction entries with
  | nil => rfl
  | cons entry rest ih => simp [scanCells, ih]

/-- A scan without bounds collects every entry of the chain. -/
theorem scanLeaves_open (chain : List Leaf) :
    scanLeaves none none chain = chain.flatMap Leaf.entries := by
  induction chain with
  | nil => rfl
  | cons leaf rest ih => simp [scanLeaves, scanCells_open, ih]

/-- On sorted keys the cells inside the bounds are kept, and a passed upper
bound leaves nothing to find behind it. -/
theorem scanCells_sorted (lo hi : Bound) {entries : List (Key × Nat)}
    (sorted : (entries.map (·.1)).Pairwise (· ≤ ·)) :
    (scanCells lo hi entries).1 = entries.filter (inBounds lo hi) ∧
      ((scanCells lo hi entries).2 = true →
        ∃ entry ∈ entries, ∃ stop, hi = some stop ∧ stop < entry.1) := by
  induction entries with
  | nil => simp [scanCells]
  | cons entry rest ih =>
      obtain ⟨least, sorted⟩ := List.pairwise_cons.mp sorted
      obtain ⟨kept, passes⟩ := ih sorted
      have later : (scanCells lo hi rest).2 = true →
          ∃ entry' ∈ entry :: rest, ∃ stop, hi = some stop ∧ stop < entry'.1 := by
        intro passed
        obtain ⟨other, member, found⟩ := passes passed
        exact ⟨other, List.mem_cons_of_mem _ member, found⟩
      unfold scanCells
      split
      · next low =>
        exact ⟨by simp [kept, inBounds, low], later⟩
      · next low =>
        split
        · next high =>
          obtain ⟨stop, rfl, beyond⟩ := (Option.any_eq_true _ _).mp high
          simp only [gt_iff_lt, decide_eq_true_eq] at beyond
          refine ⟨?_, fun _ => ⟨entry, List.mem_cons_self, stop, rfl, beyond⟩⟩
          symm
          rw [List.filter_eq_nil_iff]
          intro other member
          have above : stop < other.1 := by
            rcases List.mem_cons.mp member with rfl | member
            · exact beyond
            · exact lt_of_lt_of_le beyond (least other.1 (List.mem_map_of_mem member))
          simp [inBounds, above]
        · next high =>
          exact ⟨by simp [kept, inBounds, low, high], later⟩

/-- A scan of a key-sorted chain collects exactly the entries in bounds. -/
theorem scanLeaves_sorted {lo hi : Bound} {chain : List Leaf}
    (sorted : ((chain.flatMap Leaf.entries).map (·.1)).Pairwise (· ≤ ·)) :
    scanLeaves lo hi chain = (chain.flatMap Leaf.entries).filter (inBounds lo hi) := by
  induction chain with
  | nil => rfl
  | cons leaf rest ih =>
      simp only [List.flatMap_cons, List.map_append] at sorted
      obtain ⟨leafSorted, restSorted, across⟩ := List.pairwise_append.mp sorted
      obtain ⟨kept, passes⟩ := scanCells_sorted lo hi leafSorted
      simp only [scanLeaves, List.flatMap_cons, List.filter_append]
      cases result : scanCells lo hi leaf.entries with
      | mk out passed =>
          simp only [result] at kept passes
          subst kept
          cases passed with
          | false => simp [ih restSorted]
          | true =>
              obtain ⟨entry, member, stop, rfl, beyond⟩ := passes rfl
              have nothing : (rest.flatMap Leaf.entries).filter (inBounds lo (some stop)) = [] := by
                rw [List.filter_eq_nil_iff]
                intro other among
                have above := lt_of_lt_of_le beyond (across entry.1 (List.mem_map_of_mem member)
                  other.1 (List.mem_map_of_mem among))
                simp [inBounds, above]
              simp [nothing]

/-! ### Where a scan starts -/

/-- The descent of a scan ends at a leaf; in a sorted tree the leaves to its
left only hold keys below the lower bound. -/
theorem scanStart_stored {disk : DiskBTree} (lo : Bound) {order limit : Nat}
    (bounded : limit ≤ maxKeyBytes) :
    ∀ (height : Nat) (tree : Tree height) (fuel : Nat), height < fuel →
      Stored disk.file.pages height tree → Tree.Shaped order limit height tree →
      (∀ id ∈ Tree.ids height tree, 0 < id) →
      ∃ before leaf after, Tree.leaves height tree = before ++ leaf :: after ∧
        disk.scanStart lo fuel (Tree.id height tree) =
          .ok (if lo.any (fun start => leaf.entries.all fun entry => entry.1 < start)
            then leaf.next else leaf.id) ∧
        (lo = none → before = []) ∧
        ((Tree.inorder height tree).Pairwise (· ≤ ·) → ∀ start, lo = some start →
          ∀ entry ∈ before.flatMap Leaf.entries, entry.1 < start) := by
  intro height
  induction height with
  | zero =>
      intro leaf fuel enough stored shaped positive
      obtain ⟨fuel, rfl⟩ : ∃ less, fuel = less + 1 := ⟨fuel - 1, by omega⟩
      refine ⟨[], leaf, [], rfl, ?_, fun _ => rfl, by simp⟩
      have loaded := load_leaf bounded stored shaped
      simp only [DiskBTree.scanStart, Tree.id, loaded, bind, Except.bind, Leaf.node]
      cases lo with
      | none => rfl
      | some start =>
          obtain ⟨left, right, split, count, below, above⟩ :=
            partitionPoint_lt_cut (keys_sorted shaped.sorted) start
              (fun k => decide (k < start)) (by simp)
          have exhausted : (Leaf.entries leaf).all (fun entry => entry.1 < start) =
              !decide (partitionPoint (fun k => k < start) ((Leaf.entries leaf).map (·.1)) <
                ((Leaf.entries leaf).map (·.1)).length) := by
            rw [Bool.eq_iff_iff]
            simp only [List.all_eq_true, decide_eq_true_eq, Bool.not_eq_true', decide_eq_false_iff_not]
            rw [count, split, List.length_append]
            constructor
            · intro every inside
              obtain ⟨k, inRight⟩ := List.exists_mem_of_length_pos (l := right) (by omega)
              have inKeys : k ∈ (Leaf.entries leaf).map (·.1) := by simp [split, inRight]
              obtain ⟨entry, member, rfl⟩ := List.mem_map.mp inKeys
              exact absurd (every entry member) (not_lt_of_ge (above entry.1 inRight))
            · intro outside entry member
              have inKeys := List.mem_map_of_mem (f := (·.1)) member
              rw [split, List.eq_nil_of_length_eq_zero (show right.length = 0 by omega),
                List.append_nil] at inKeys
              exact below entry.1 inKeys
          simp only [Option.any_some, exhausted]
          by_cases inside : partitionPoint (fun k => decide (k < start))
              ((Leaf.entries leaf).map (·.1)) < ((Leaf.entries leaf).map (·.1)).length
          · simp only [inside, decide_true, ↓reduceIte, Bool.not_true, Bool.false_eq_true]
          · simp only [inside, decide_false, ↓reduceIte, Bool.not_false]
  | succ height ih =>
      intro branch fuel enough stored shaped positive
      obtain ⟨fuel, rfl⟩ : ∃ less, fuel = less + 1 := ⟨fuel - 1, by omega⟩
      obtain ⟨branchShaped, children⟩ := shaped
      have loaded := load_branch bounded stored branchShaped positive
      have inside : scanSlot lo (Branch.keys branch) ≤ (Branch.keys branch).length := by
        cases lo with
        | none => exact Nat.zero_le _
        | some start => exact partitionPoint_le _ _
      obtain ⟨left, child, right, split, count⟩ := branchShaped.child_cut inside
      have member : child ∈ Branch.children branch := by simp [split]
      obtain ⟨before, leaf, after, leaves, reached, first, low⟩ :=
        ih child fuel (by omega) (stored.2 child member) (children child member)
          fun id inChild => positive id ((Tree.child_ids_sublist member).subset inChild)
      have selected : DiskBTree.childAt (branchNode (Branch.keys branch)
          ((Branch.children branch).map (Tree.id height))) (scanSlot lo (Branch.keys branch)) =
            .ok (Tree.id height child) := by
        simp [DiskBTree.childAt, branchNode, split, ← count]
      refine ⟨left.flatMap (Tree.leaves height) ++ before, leaf,
        after ++ right.flatMap (Tree.leaves height), ?_, ?_, ?_, ?_⟩
      · simp [Tree.leaves, split, leaves]
      · rw [← reached]
        simp only [branchNode] at loaded selected
        simp only [DiskBTree.scanStart, Tree.id, loaded, bind, Except.bind, selected]
      · intro open'
        subst open'
        obtain rfl : left = [] := List.eq_nil_of_length_eq_zero count
        simpa using first rfl
      · intro sorted start bound entry among
        subst bound
        rw [List.flatMap_append] at among
        rcases List.mem_append.mp among with inLeft | inChild
        · obtain ⟨lowKeys, highKeys, keys, place, below, _⟩ :=
            partitionPoint_lt_cut branchShaped.sorted start
              (fun k => decide (k < start)) (by simp)
          have same : (left.map (Tree.inorder height)).length = lowKeys.length := by
            rw [List.length_map, count]
            exact place
          simp only [Tree.inorder, split, keys, List.map_append] at sorted
          rw [weave_append same] at sorted
          refine weave_bounded same (List.pairwise_append.mp sorted).1
            (fun _ _ => lt_of_le_of_lt) below entry.1 ?_
          exact (Tree.children_leaf_keys_sublist left lowKeys).subset (List.mem_map_of_mem inLeft)
        · exact low (sorted.sublist (sublist_weave (List.mem_map_of_mem member) _)) start rfl
            entry inChild

end ChuSQL.Storage.BTree
