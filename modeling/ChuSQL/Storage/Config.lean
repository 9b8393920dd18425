import ChuSQL.Library

/-! Layout options of the storage engine and the check every loaded
configuration passes. -/

set_option autoImplicit false

namespace ChuSQL.Storage

def defaultPageSize : Nat := 4096
def defaultBtreeOrder : Nat := 4
def minPageSize : Nat := 512
def maxPageSize : Nat := 65536
def minBtreeOrder : Nat := 3

namespace BTree

def header : Nat := 11
def slotSize : Nat := 2
def cellFixed : Nat := 2 + 8

/-- Upper bound of the key length. -/
def maxKeyBytes : Nat := 128
def legacyKeyBytes : Nat := 64

/-- How many keys a node holds at most. -/
def maxKeys (order : Nat) : Nat := order - 1

def maxCellBytes : Nat := cellFixed + legacyKeyBytes

def fitsInPage (pageSize order : Nat) : Bool :=
  2 ≤ order && header + maxKeys order * (slotSize + maxCellBytes) ≤ pageSize

def maxOrder (pageSize : Nat) : Nat :=
  (pageSize - header) / (slotSize + maxCellBytes) + 1

/-- Effective key length for a page size and an order. -/
def keyLimit (pageSize order : Nat) : Nat :=
  if order < 2 then 0
  else min ((pageSize - header) / (order - 1) - (slotSize + cellFixed)) maxKeyBytes

/-- A full node of longest keys fits its page: the limit was derived from
the room a cell has. -/
theorem keyLimit_fits {pageSize order : Nat} (fits : fitsInPage pageSize order = true) :
    header + maxKeys order * (slotSize + cellFixed + keyLimit pageSize order) ≤ pageSize := by
  simp only [fitsInPage, Bool.and_eq_true, decide_eq_true_eq] at fits
  simp only [maxKeys, header, slotSize, maxCellBytes, cellFixed, legacyKeyBytes] at fits
  obtain ⟨wide, room⟩ := fits
  have quotient : (pageSize - 11) / (order - 1) * (order - 1) ≤ pageSize - 11 :=
    Nat.div_mul_le_self _ _
  have enough : 76 ≤ (pageSize - 11) / (order - 1) := by
    rw [Nat.le_div_iff_mul_le (by omega)]
    omega
  have bounded : keyLimit pageSize order + 12 ≤ (pageSize - 11) / (order - 1) := by
    have narrow : ¬ order < 2 := by omega
    simp only [keyLimit, narrow, ↓reduceIte, header, slotSize, cellFixed]
    generalize (pageSize - 11) / (order - 1) = quotient at *
    omega
  have product : (order - 1) * (keyLimit pageSize order + 12) ≤ pageSize - 11 :=
    le_trans (Nat.mul_le_mul_left _ bounded) (by rw [Nat.mul_comm]; exact quotient)
  have positive : 11 ≤ pageSize := by omega
  simp only [header, maxKeys, slotSize, cellFixed]
  rw [show 2 + (2 + 8) + keyLimit pageSize order = keyLimit pageSize order + 12 by omega]
  omega

/-- Every accepted layout has room for the keys of older files. -/
theorem legacyKeyBytes_le_keyLimit {pageSize order : Nat} (fits : fitsInPage pageSize order = true) :
    legacyKeyBytes ≤ keyLimit pageSize order := by
  simp only [fitsInPage, Bool.and_eq_true, decide_eq_true_eq] at fits
  simp only [maxKeys, header, slotSize, maxCellBytes, cellFixed, legacyKeyBytes] at fits
  obtain ⟨wide, room⟩ := fits
  have narrow : ¬ order < 2 := by omega
  have enough : 76 ≤ (pageSize - 11) / (order - 1) := by
    rw [Nat.le_div_iff_mul_le (by omega)]
    omega
  simp only [keyLimit, narrow, ↓reduceIte, header, slotSize, cellFixed, legacyKeyBytes, maxKeyBytes]
  generalize (pageSize - 11) / (order - 1) = quotient at *
  omega

theorem keyLimit_le (pageSize order : Nat) : keyLimit pageSize order ≤ maxKeyBytes := by
  unfold keyLimit
  split
  · exact Nat.zero_le _
  · exact Nat.min_le_right _ _

end BTree

def isPowerOfTwo (value : Nat) : Bool := value != 0 && value &&& (value - 1) == 0

/-- Check that the layout options agree with each other. -/
def validateLayout (pageSize btreeOrder : Nat) : Except String Unit :=
  if !(minPageSize ≤ pageSize && pageSize ≤ maxPageSize) || !isPowerOfTwo pageSize then
    .error s!"page.size must be a power of two between {minPageSize} and {maxPageSize}, got {pageSize}"
  else if btreeOrder < minBtreeOrder then
    .error s!"btree.order must be at least {minBtreeOrder}, got {btreeOrder}"
  else if !BTree.fitsInPage pageSize btreeOrder then
    .error s!"btree.order {btreeOrder} does not fit in a {pageSize}-byte page (max {BTree.maxOrder pageSize})"
  else .ok ()

theorem validateLayout_ok {pageSize btreeOrder : Nat}
    (accepted : validateLayout pageSize btreeOrder = .ok ()) :
    3 ≤ btreeOrder ∧ pageSize ≤ maxPageSize ∧
      BTree.fitsInPage pageSize btreeOrder = true := by
  unfold validateLayout at accepted
  split at accepted
  · cases accepted
  · next sized =>
    split at accepted
    · cases accepted
    · next wide =>
      split at accepted
      · cases accepted
      · next fits =>
        have fitting : BTree.fitsInPage pageSize btreeOrder = true := by simpa using fits
        simp only [Bool.or_eq_true, Bool.not_eq_true', not_or, Bool.not_eq_false,
          Bool.and_eq_true, decide_eq_true_eq] at sized
        simp only [minBtreeOrder] at wide
        exact ⟨by omega, sized.1.2, fitting⟩

/-- The built-in defaults pass their own check. -/
theorem validateLayout_default : validateLayout defaultPageSize defaultBtreeOrder = .ok () := by
  decide

end ChuSQL.Storage
