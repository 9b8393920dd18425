import ChuSQL.Storage.BTree.Basic

/-! The tree an index file stores, indexed by its height, and the insertion
and deletion that the page procedures perform on it. Page ids stay part of the
tree, so that storing it on pages is a predicate and not a choice. -/

set_option autoImplicit false

namespace ChuSQL.Storage.BTree

open Library

structure Leaf where
  id : Nat
  next : Nat
  entries : List (Key × Nat)
deriving Repr, DecidableEq

structure Branch (Child : Type) where
  id : Nat
  keys : List Key
  children : List Child

/-- Trees of one height. -/
@[reducible] def Tree : Nat → Type
  | 0 => Leaf
  | height + 1 => Branch (Tree height)

/-- What an insertion makes of a subtree. -/
inductive Grown (Subtree : Type) where
  | whole (tree : Subtree)
  | split (left : Subtree) (sep : Key) (right : Subtree)

def Grown.trees {Subtree : Type} : Grown Subtree → List Subtree
  | .whole tree => [tree]
  | .split left _ right => [left, right]

def Grown.seps {Subtree : Type} : Grown Subtree → List Key
  | .whole _ => []
  | .split _ sep _ => [sep]

theorem Grown.trees_cons {Subtree : Type} (grown : Grown Subtree) :
    ∃ first rest, grown.trees = first :: rest := by
  cases grown <;> simp [Grown.trees]

/-- Keys and children of a branch from left to right. -/
def weave : List (List Key) → List Key → List Key
  | [], keys => keys
  | child :: rest, [] => child ++ weave rest []
  | child :: rest, key :: keys => child ++ key :: weave rest keys

namespace Tree

def id : (height : Nat) → Tree height → Nat
  | 0, leaf => Leaf.id leaf
  | _ + 1, branch => Branch.id branch

/-- Pages the tree occupies. -/
def ids : (height : Nat) → Tree height → List Nat
  | 0, leaf => [Leaf.id leaf]
  | height + 1, branch =>
      Branch.id branch :: (Branch.children branch).flatMap (ids height)

/-- Leaves from left to right. -/
def leaves : (height : Nat) → Tree height → List Leaf
  | 0, leaf => [leaf]
  | height + 1, branch => (Branch.children branch).flatMap (leaves height)

/-- Every key of the tree, separators included, from left to right. -/
def inorder : (height : Nat) → Tree height → List Key
  | 0, leaf => (Leaf.entries leaf).map (·.1)
  | height + 1, branch =>
      weave ((Branch.children branch).map (inorder height)) (Branch.keys branch)

end Tree

/-- Order of the entries inside one leaf: by key, equal keys by value. -/
def EntryLe (first second : Key × Nat) : Prop :=
  first.1 < second.1 ∨ first.1 = second.1 ∧ first.2 ≤ second.2

/-- Local shape of a leaf under an order and a key limit. -/
structure Leaf.Shaped (order limit : Nat) (leaf : Leaf) : Prop where
  count : leaf.entries.length ≤ maxKeys order
  sorted : leaf.entries.Pairwise EntryLe
  short : ∀ entry ∈ leaf.entries, entry.1.length ≤ limit

/-- Local shape of a branch. -/
structure Branch.Shaped {Child : Type} (order limit : Nat) (branch : Branch Child) : Prop where
  count : branch.keys.length ≤ maxKeys order
  fanout : branch.children.length = branch.keys.length + 1
  sorted : branch.keys.Pairwise (· ≤ ·)
  short : ∀ key ∈ branch.keys, key.length ≤ limit

namespace Tree

def Shaped (order limit : Nat) : (height : Nat) → Tree height → Prop
  | 0, leaf => Leaf.Shaped order limit leaf
  | height + 1, branch =>
      Branch.Shaped order limit branch ∧ ∀ child ∈ Branch.children branch, Shaped order limit height child

end Tree

/-- Page image of a branch. -/
def branchImage (keys : List Key) (children : List Nat) : IndexPage :=
  .cells .internal (children.getLast?.getD 0) (keys.zip children)

/-- The pages hold the tree, every node at its own page. -/
def Stored (pages : List IndexPage) : (height : Nat) → Tree height → Prop
  | 0, leaf => pages[Leaf.id leaf]? = some (.cells .leaf (Leaf.next leaf) (Leaf.entries leaf))
  | height + 1, branch =>
      pages[Branch.id branch]? = some
          (branchImage (Branch.keys branch) ((Branch.children branch).map (Tree.id height))) ∧
        ∀ child ∈ Branch.children branch, Stored pages height child

/-- Pages below a bound, none of them the header page, each used once. -/
structure Placed (bound : Nat) (ids : List Nat) : Prop where
  nodup : ids.Nodup
  positive : ∀ id ∈ ids, 0 < id
  below : ∀ id ∈ ids, id < bound

namespace Leaf

/-- Put a pair where `leafSlot` says. -/
def add (leaf : Leaf) (key : Key) (value : Nat) : Leaf :=
  { leaf with
    entries := leaf.entries.insertIdx
      (leafSlot (leaf.entries.map (·.1)) (leaf.entries.map (·.2)) key value) (key, value) }

/-- Keep a leaf whole or cut it in the middle, the right half on page `fresh`. -/
def settle (order : Nat) (leaf : Leaf) (fresh : Nat) : Grown Leaf × Nat :=
  if leaf.entries.length ≤ maxKeys order then (.whole leaf, fresh)
  else
    let mid := leaf.entries.length / 2
    (.split { leaf with next := fresh, entries := leaf.entries.take mid }
      (((leaf.entries.map (·.1)).getD mid []))
      { id := fresh, next := leaf.next, entries := leaf.entries.drop mid }, fresh + 1)

end Leaf

namespace Branch

variable {Child : Type}

/-- Put a grown child back. A new separator goes where its own value says. -/
def graft (branch : Branch Child) (slot : Nat) : Grown Child → Branch Child
  | .whole child => { branch with children := branch.children.set slot child }
  | .split left sep right =>
      let place := partitionPoint (fun k => k ≤ sep) branch.keys
      { branch with
        keys := branch.keys.insertIdx place sep
        children := (branch.children.set slot left).insertIdx (place + 1) right }

def settle (order : Nat) (branch : Branch Child) (fresh : Nat) :
    Grown (Branch Child) × Nat :=
  if branch.keys.length ≤ maxKeys order then (.whole branch, fresh)
  else
    let mid := branch.keys.length / 2
    (.split
      { branch with
        keys := branch.keys.take mid
        children := branch.children.take (mid + 1) }
      (branch.keys.getD mid [])
      { id := fresh
        keys := branch.keys.drop (mid + 1)
        children := branch.children.drop (mid + 1) }, fresh + 1)

end Branch

namespace Tree

/-- Insertion below a subtree; new nodes take pages from `fresh` on. -/
def insert (order : Nat) (key : Key) (value : Nat) :
    (height : Nat) → Tree height → Nat → Grown (Tree height) × Nat
  | 0, leaf, fresh => Leaf.settle order (Leaf.add leaf key value) fresh
  | height + 1, branch, fresh =>
      let slot := childSlot (Branch.keys branch) key
      match (Branch.children branch)[slot]? with
      | none => (.whole branch, fresh)
      | some child =>
          let (grown, fresh) := insert order key value height child fresh
          Branch.settle order (Branch.graft branch slot grown) fresh

/-- The first child whose deletion succeeds, with its position. -/
def deleteChild {Child : Type} (delete : Child → Option Child) :
    Nat → List Child → Option (Nat × Child)
  | _, [] => none
  | position, child :: rest =>
      match delete child with
      | some changed => some (position, changed)
      | none => deleteChild delete (position + 1) rest

/-- Children a deletion looks at. -/
def window {Child : Type} (branch : Branch Child) (key : Key) : List Child :=
  let first := partitionPoint (fun k => k < key) branch.keys
  let last := childSlot branch.keys key
  (branch.children.drop first).take (last + 1 - first)

/-- Deletion below a subtree; `none` when no leaf looked at has the pair. -/
def delete (key : Key) (value : Nat) : (height : Nat) → Tree height → Option (Tree height)
  | 0, leaf =>
      let entries := Leaf.entries leaf
      let slot := leafSlot (entries.map (·.1)) (entries.map (·.2)) key value
      if entries[slot]? = some (key, value) then
        some { leaf with entries := entries.eraseIdx slot }
      else none
  | height + 1, branch =>
      (deleteChild (delete key value height)
        (partitionPoint (fun k => k < key) (Branch.keys branch)) (window branch key)).map
        fun (position, child) =>
          { branch with children := (Branch.children branch).set position child }

end Tree

end ChuSQL.Storage.BTree
