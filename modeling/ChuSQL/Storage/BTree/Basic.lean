import ChuSQL.Storage.Page

/-! The on-disk B+ tree: variable-length byte keys, duplicate keys allowed,
leaves linked for range scans. A page is kept as what its header, slot array
and cells say; the byte layout of those fields is below this model. -/

set_option autoImplicit false

namespace ChuSQL.Storage

open Library

abbrev Key := Bytes

namespace BTree

def metaPage : PageId := 0

inductive NodeKind where
  | leaf
  | internal
deriving Repr, DecidableEq

/-- Content of an index page: the file header, or a node whose last child or
next leaf stands in the trailer. -/
inductive IndexPage where
  | header (pageSize maxKey : Nat) (root : PageId) (order : Nat)
  | cells (kind : NodeKind) (trailer : PageId) (cells : List (Key × Nat))
deriving Repr, DecidableEq

/-- All bytes zero: a leaf without cells and without a successor. -/
def IndexPage.zero : IndexPage := .cells .leaf 0 []

/-- A node: leaves hold row positions, internal nodes hold child pages. -/
structure Node where
  kind : NodeKind
  next : PageId
  keys : List Key
  values : List Nat
deriving Repr, DecidableEq

def writeMeta (pageSize order : Nat) (root : PageId) : IndexPage :=
  .header (pageSize % 2 ^ 32) (keyLimit pageSize order % 2 ^ 16) root (order % 2 ^ 16)

def checkMeta (page : IndexPage) (pageSize order : Nat) : Except IoError Unit :=
  match page with
  | .cells .. => .error ⟨.invalidData, "not a chusql index file (bad magic)"⟩
  | .header storedPage storedKey _ storedOrder =>
      if storedPage ≠ pageSize ∨ storedOrder ≠ order then
        .error ⟨.invalidData, s!"index file was built with page.size={storedPage} btree.order={storedOrder}, config says page.size={pageSize} btree.order={order}"⟩
      else if storedKey < legacyKeyBytes ∨ storedKey > keyLimit pageSize order then
        .error ⟨.invalidData, "unsupported index key limit"⟩
      else .ok ()

/-- Bytes one cell takes. -/
def cellBytes (key : Key) : Nat := cellFixed + key.length

/-- Bytes a node takes. -/
def nodeBytes (node : Node) : Nat :=
  header + node.keys.length * slotSize + (node.keys.map cellBytes).sum

/-- Write a node into a page. An internal node has one child more than keys;
the last one stands in the trailer, where a leaf keeps its successor. -/
def putNode (pageSize : Nat) (node : Node) : Except IoError IndexPage :=
  if node.keys.length > 2 ^ 16 - 1 ∨ nodeBytes node > pageSize then
    .error ⟨.invalidInput, "index node does not fit in a page"⟩
  else
    let trailer := match node.kind with
      | .internal => node.values.getLast?.getD 0
      | .leaf => node.next
    .ok (.cells node.kind trailer (node.keys.zip node.values))

/-- Read a node from a page. -/
def getNode : IndexPage → Except IoError Node
  | .header .. => .error ⟨.invalidData, "invalid index node kind or slot count"⟩
  | .cells kind trailer cells =>
      let keys := cells.map (·.1)
      if cells.any (fun cell => cell.1.length > maxKeyBytes) then
        .error ⟨.invalidData, "invalid index key length"⟩
      else if (keys.zip keys.tail).any (fun pair => pair.1 > pair.2) then
        .error ⟨.invalidData, "index keys are not sorted"⟩
      else match kind with
        | .internal =>
            let values := cells.map (·.2) ++ [trailer]
            if values.contains metaPage then
              .error ⟨.invalidData, "invalid index child page"⟩
            else .ok ⟨.internal, 0, keys, values⟩
        | .leaf => .ok ⟨.leaf, trailer, keys, cells.map (·.2)⟩

/-- Insert position in a leaf: equal keys are ordered by value. -/
def leafSlot (keys : List Key) (values : List Nat) (key : Key) (value : Nat) : Nat :=
  let start := partitionPoint (fun k => k < key) keys
  start + partitionPoint (fun entry => entry.1 == key && entry.2 < value)
    ((keys.zip values).drop start)

/-- The child an internal node sends a key to. -/
def childSlot (keys : List Key) (key : Key) : Nat :=
  partitionPoint (fun k => k ≤ key) keys

/-- Cut a node: the key handed up, the left half and the right half. -/
def splitNode (node : Node) : Key × Node × Node :=
  let mid := node.keys.length / 2
  let sep := node.keys.getD mid []
  match node.kind with
  | .leaf =>
      (sep,
        { node with keys := node.keys.take mid, values := node.values.take mid },
        ⟨.leaf, node.next, node.keys.drop mid, node.values.drop mid⟩)
  | .internal =>
      (sep,
        { node with
          keys := (node.keys.take (mid + 1)).dropLast
          values := node.values.take (mid + 1) },
        ⟨.internal, 0, node.keys.drop (mid + 1), node.values.drop (mid + 1)⟩)

/-- A left half that is a leaf is followed by its right half. -/
def Node.relink (left : Node) (rightId : PageId) : Node :=
  match left.kind with
  | .leaf => { left with next := rightId }
  | .internal => left

structure DiskBTree where
  file : PageFile IndexPage
  order : Nat
deriving Repr, DecidableEq

/-- A scan bound: `none` leaves the side open, keys equal to it are inside. -/
abbrev Bound := Option Key

namespace DiskBTree

/-- `open`: an empty file gets a header, any other file must carry one that
agrees with the configuration. -/
def openFile (file : PageFile IndexPage) (order : Nat) : Except IoError DiskBTree :=
  if !fitsInPage file.pageSize order then
    .error ⟨.invalidInput, s!"btree order {order} does not fit in a {file.pageSize}-byte page (max {maxOrder file.pageSize})"⟩
  else if file.numPages = 0 then
    .ok ⟨file.writePage metaPage (writeMeta file.pageSize order 0), order⟩
  else do
    let page ← file.withPage metaPage id
    checkMeta page file.pageSize order
    .ok ⟨file, order⟩

def checkKey (key : Key) (pageSize order : Nat) : Except IoError Unit :=
  let limit := keyLimit pageSize order
  if key.length > limit then
    .error ⟨.invalidInput, s!"index key is {key.length} bytes, at most {limit} are supported"⟩
  else .ok ()

def validateKey (tree : DiskBTree) (key : Key) : Except IoError Unit :=
  checkKey key tree.file.pageSize tree.order

/-- Root page; `none` for the empty tree. -/
def root (tree : DiskBTree) : Except IoError (Option PageId) := do
  let page ← tree.file.withPage metaPage id
  match page with
  | .header _ _ root _ => .ok (if root = 0 then none else some root)
  | .cells .. => .error ⟨.invalidData, "not a chusql index file (bad magic)"⟩

def setRoot (tree : DiskBTree) (root : Option PageId) : Except IoError DiskBTree := do
  let file ← tree.file.updatePage metaPage fun page =>
    match page with
    | .header pageSize maxKey _ order => .ok (.header pageSize maxKey (root.getD 0) order)
    | .cells .. => .error ⟨.invalidData, "not a chusql index file (bad magic)"⟩
  .ok { tree with file }

/-- Append a page for a new node. -/
def alloc (tree : DiskBTree) (node : Node) : Except IoError (PageId × DiskBTree) := do
  let (id, file) := tree.file.appendPage .zero
  let file ← file.updatePage id fun _ => putNode file.pageSize node
  .ok (id, { tree with file })

def load (tree : DiskBTree) (id : PageId) : Except IoError Node := do
  let page ← tree.file.withPage id fun page => page
  getNode page

def store (tree : DiskBTree) (id : PageId) (node : Node) : Except IoError DiskBTree := do
  let file ← tree.file.updatePage id fun _ => putNode tree.file.pageSize node
  .ok { tree with file }

/-- Drop every page but a fresh header. -/
def clear (tree : DiskBTree) : DiskBTree :=
  { tree with
    file := tree.file.truncate.writePage metaPage
      (writeMeta tree.file.pageSize tree.order 0) }

/-- Page-to-page descents visit every page at most once. -/
def fuel (tree : DiskBTree) : Nat := tree.file.pages.length

def childAt (node : Node) (slot : Nat) : Except IoError PageId :=
  match node.values[slot]? with
  | none => .error (.ofMessage "index out of bounds")
  | some child => .ok child

/-- Leftmost leaf below a page has no keys. -/
def isEmptyFrom (tree : DiskBTree) : Nat → PageId → Except IoError Bool
  | 0, _ => .error .fuel
  | fuel + 1, id => do
      let node ← tree.load id
      match node.kind with
      | .leaf => .ok node.keys.isEmpty
      | .internal => do
          let child ← childAt node 0
          isEmptyFrom tree fuel child

/-- Is the tree empty? Only the leftmost leaf is looked at. -/
def isEmpty (tree : DiskBTree) : Except IoError Bool := do
  match ← tree.root with
  | none => .ok true
  | some id => isEmptyFrom tree tree.fuel id

/-- Raise the stored key limit before the first long key is written. -/
def raiseKeyLimit (tree : DiskBTree) (key : Key) : Except IoError DiskBTree :=
  if key.length > legacyKeyBytes then do
    let limit := keyLimit tree.file.pageSize tree.order
    let page ← tree.file.withPage metaPage id
    match page with
    | .header pageSize maxKey root order =>
        if maxKey ≠ limit then
          let raised := IndexPage.header pageSize (limit % 2 ^ 16) root order
          .ok { tree with file := tree.file.writePage metaPage raised }
        else .ok tree
    | .cells .. => .error ⟨.invalidData, "not a chusql index file (bad magic)"⟩
  else .ok tree

/-- Last part of `insert_rec`: write the node back, or cut it when it holds too
many keys. -/
def settleNode (tree : DiskBTree) (id : PageId) (node : Node) :
    Except IoError (Option (Key × PageId) × DiskBTree) :=
  if node.keys.length ≤ maxKeys tree.order then do
    let tree ← tree.store id node
    .ok (none, tree)
  else do
    let (sep, left, right) := splitNode node
    let (rightId, tree) ← tree.alloc right
    let tree ← tree.store id (left.relink rightId)
    .ok (some (sep, rightId), tree)

/-- Insert below a page. A node that overflows hands its middle key and its
new right half to the caller. -/
def insertRec : Nat → DiskBTree → PageId → Key → Nat →
    Except IoError (Option (Key × PageId) × DiskBTree)
  | 0, _, _, _, _ => .error .fuel
  | fuel + 1, tree, id, key, value => do
      let node ← tree.load id
      let (node, tree) ← match node.kind with
        | .leaf =>
            let slot := leafSlot node.keys node.values key value
            .ok ({ node with
              keys := node.keys.insertIdx slot key
              values := node.values.insertIdx slot value }, tree)
        | .internal => do
            let child ← childAt node (childSlot node.keys key)
            let (split, tree) ← insertRec fuel tree child key value
            match split with
            | none => .ok (node, tree)
            | some (sep, rightId) =>
                -- the separator is placed by its own value, not by the child slot
                let slot := partitionPoint (fun k => k ≤ sep) node.keys
                .ok ({ node with
                  keys := node.keys.insertIdx slot sep
                  values := node.values.insertIdx (slot + 1) rightId }, tree)
      settleNode tree id node

/-- Insert one pair; keys may repeat. -/
def insert (tree : DiskBTree) (key : Key) (value : Nat) : Except IoError DiskBTree := do
  tree.validateKey key
  let tree ← tree.raiseKeyLimit key
  match ← tree.root with
  | none => do
      let (id, tree) ← tree.alloc ⟨.leaf, 0, [key], [value]⟩
      tree.setRoot (some id)
  | some root => do
      match ← insertRec tree.fuel tree root key value with
      | (none, tree) => .ok tree
      | (some (sep, rightId), tree) => do
          let (id, tree) ← tree.alloc ⟨.internal, 0, [sep], [root, rightId]⟩
          tree.setRoot (some id)

/-- Try the children one after another until one of them deletes the pair. -/
def deleteFirst (delete : DiskBTree → PageId → Except IoError (Bool × DiskBTree)) :
    DiskBTree → List PageId → Except IoError (Bool × DiskBTree)
  | tree, [] => .ok (false, tree)
  | tree, child :: rest => do
      match ← delete tree child with
      | (true, tree) => .ok (true, tree)
      | (false, tree) => deleteFirst delete tree rest

def deleteRec : Nat → DiskBTree → PageId → Key → Nat → Except IoError (Bool × DiskBTree)
  | 0, _, _, _, _ => .error .fuel
  | fuel + 1, tree, id, key, value => do
      let node ← tree.load id
      match node.kind with
      | .leaf =>
          let slot := leafSlot node.keys node.values key value
          if node.keys[slot]? = some key ∧ node.values[slot]? = some value then do
            let tree ← tree.store id { node with
              keys := node.keys.eraseIdx slot
              values := node.values.eraseIdx slot }
            .ok (true, tree)
          else .ok (false, tree)
      | .internal =>
          let first := partitionPoint (fun k => k < key) node.keys
          let last := childSlot node.keys key
          deleteFirst (fun tree child => deleteRec fuel tree child key value) tree
            ((node.values.drop first).take (last + 1 - first))

/-- Delete one pair; tells whether it was there. -/
def delete (tree : DiskBTree) (key : Key) (value : Nat) : Except IoError (Bool × DiskBTree) := do
  match ← tree.root with
  | none => .ok (false, tree)
  | some root => deleteRec tree.fuel tree root key value

/-- The child a scan descends to. -/
def scanSlot (lo : Bound) (keys : List Key) : Nat :=
  match lo with
  | none => 0
  | some start => partitionPoint (fun k => k < start) keys

/-- The leaf a scan starts from. -/
def scanStart (tree : DiskBTree) (lo : Bound) : Nat → PageId → Except IoError PageId
  | 0, _ => .error .fuel
  | fuel + 1, id => do
      let node ← tree.load id
      match node.kind with
      | .leaf =>
          match lo with
          | none => .ok id
          | some start =>
              let slot := partitionPoint (fun k => k < start) node.keys
              .ok (if slot < node.keys.length then id else node.next)
      | .internal => do
          let child ← childAt node (scanSlot lo node.keys)
          scanStart tree lo fuel child

/-- Entries of one leaf inside the bounds, and whether the upper bound was
passed. -/
def scanCells (lo hi : Bound) : List (Key × Nat) → List (Key × Nat) × Bool
  | [] => ([], false)
  | entry :: rest =>
      if lo.any (fun start => entry.1 < start) then scanCells lo hi rest
      else if hi.any (fun stop => entry.1 > stop) then ([], true)
      else
        let (out, passed) := scanCells lo hi rest
        (entry :: out, passed)

/-- Follow the leaf chain; page 0 ends it. -/
def scanChain (tree : DiskBTree) (lo hi : Bound) :
    Nat → PageId → Except IoError (List (Key × Nat))
  | _, 0 => .ok []
  | 0, _ + 1 => .error .fuel
  | fuel + 1, id => do
      let node ← tree.load id
      match scanCells lo hi (node.keys.zip node.values) with
      | (out, true) => .ok out
      | (out, false) => do
          let more ← scanChain tree lo hi fuel node.next
          .ok (out ++ more)

/-- Range scan over closed bounds. -/
def scan (tree : DiskBTree) (lo hi : Bound) : Except IoError (List (Key × Nat)) := do
  match ← tree.root with
  | none => .ok []
  | some root => do
      let start ← scanStart tree lo tree.fuel root
      scanChain tree lo hi tree.fuel start

def iterAll (tree : DiskBTree) : Except IoError (List (Key × Nat)) := tree.scan none none

/-- All positions of a key, in ascending order. -/
def getAll (tree : DiskBTree) (key : Key) : Except IoError (List Nat) := do
  let found ← tree.scan (some key) (some key)
  .ok ((found.map (·.2)).insertionSort (· ≤ ·))

/-- First position of a key. -/
def get (tree : DiskBTree) (key : Key) : Except IoError (Option Nat) := do
  let positions ← tree.getAll key
  .ok positions.head?

end DiskBTree

end BTree

end ChuSQL.Storage
