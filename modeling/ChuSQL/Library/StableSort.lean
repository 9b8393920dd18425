import Mathlib.Data.List.Sort
import Mathlib.Data.Set.Basic

/-! Comparisons that order some items, stable sorting by them, and cutting a sorted list
before it is merged. -/

set_option autoImplicit false

namespace Library

universe u v

/-! ### Comparisons -/

/-- A comparison that is a total preorder of some items. -/
structure ComparesOn {Item : Type u} (order : Item → Item → Ordering) (items : Set Item) : Prop where
  opposite : ∀ a ∈ items, ∀ b ∈ items, order b a = (order a b).swap
  transitive : ∀ a ∈ items, ∀ b ∈ items, ∀ c ∈ items, (order a b).isLE → (order b c).isLE → (order a c).isLE

namespace ComparesOn

variable {Item : Type u} {Other : Type v} {order second : Item → Item → Ordering} {items : Set Item}

theorem mono (compares : ComparesOn order items) {fewer : Set Item} (within : fewer ⊆ items) :
    ComparesOn order fewer where
  opposite a left b right := compares.opposite a (within left) b (within right)
  transitive a one b two c three := compares.transitive a (within one) b (within two) c (within three)

theorem congr (compares : ComparesOn order items) (same : ∀ a ∈ items, ∀ b ∈ items, second a b = order a b) :
    ComparesOn second items where
  opposite a left b right := by
    rw [same b right a left, same a left b right]
    exact compares.opposite a left b right
  transitive a one b two c three := by
    rw [same a one b two, same b two c three, same a one c three]
    exact compares.transitive a one b two c three

theorem total (compares : ComparesOn order items) {a b : Item} (left : a ∈ items) (right : b ∈ items)
    (after : order a b = .gt) : (order b a).isLE := by
  rw [compares.opposite a left b right, after]
  rfl

/-- The opposite comparison. -/
theorem swap (compares : ComparesOn order items) : ComparesOn (fun a b => (order a b).swap) items where
  opposite a left b right := by rw [compares.opposite a left b right]
  transitive a one b two c three first next := by
    rw [← compares.opposite a one b two] at first
    rw [← compares.opposite b two c three] at next
    rw [← compares.opposite a one c three]
    exact compares.transitive c three b two a one next first

/-- Items compared by an image of theirs. -/
theorem image {image : Other → Item} {others : Set Other} (compares : ComparesOn order items)
    (within : ∀ other ∈ others, image other ∈ items) :
    ComparesOn (fun a b => order (image a) (image b)) others where
  opposite a left b right := compares.opposite _ (within a left) _ (within b right)
  transitive a one b two c three := compares.transitive _ (within a one) _ (within b two) _ (within c three)

/-- One comparison, and a second where the first finds no difference. -/
theorem lexicographic (compares : ComparesOn order items) (next : ComparesOn second items) :
    ComparesOn (fun a b => (order a b).then (second a b)) items where
  opposite a left b right := by
    rw [compares.opposite a left b right, next.opposite a left b right, Ordering.swap_then]
  transitive a one b two c three first later := by
    rw [Ordering.isLE_then_iff_or] at first later ⊢
    have near := compares.transitive a one b two c three
    have back := compares.transitive c three a one b two
    have again := compares.transitive b two c three a one
    rw [compares.opposite a one c three, compares.opposite b two c three] at back
    rw [compares.opposite a one c three, compares.opposite a one b two] at again
    have inner := next.transitive a one b two c three
    cases left : order a b with
    | gt => simp [left] at first
    | lt =>
        cases right : order b c with
        | gt => simp [right] at later
        | _ =>
            rw [left, right] at near
            cases whole : order a c with
            | lt => exact .inl rfl
            | gt => simp [whole] at near
            | eq =>
                simp [whole, left, right] at again
    | eq =>
        cases right : order b c with
        | gt => simp [right] at later
        | lt =>
            rw [left, right] at near
            cases whole : order a c with
            | lt => exact .inl rfl
            | gt => simp [whole] at near
            | eq => simp [whole, left, right] at back
        | eq =>
            rw [left, right] at near
            cases whole : order a c with
            | lt => exact .inl rfl
            | gt => simp [whole] at near
            | eq =>
                simp [left] at first
                simp [right] at later
                exact .inr (And.intro rfl (inner first later))

end ComparesOn

/-! ### Stable sorting -/

section Sorting

variable {Item : Type u}

/-- Items that compare equal stay in the order they came in. -/
def sortBy (order : Item → Item → Ordering) : List Item → List Item :=
  List.insertionSort fun a b => order a b ≠ .gt

/-- Merge two sorted lists; of equal items those of the first come first. -/
def mergeBy (order : Item → Item → Ordering) (first second : List Item) : List Item :=
  first.merge second fun a b => order a b != .gt

variable {order : Item → Item → Ordering}

theorem mem_sortBy {items : List Item} {item : Item} : item ∈ sortBy order items ↔ item ∈ items :=
  (List.perm_insertionSort _ items).mem_iff

theorem length_sortBy (items : List Item) : (sortBy order items).length = items.length :=
  List.length_insertionSort _ items

@[simp] theorem mergeBy_nil (first : List Item) : mergeBy order first [] = first := List.merge_right ..

@[simp] theorem nil_mergeBy (second : List Item) : mergeBy order [] second = second := List.nil_merge ..

theorem mergeBy_cons (a b : Item) (first second : List Item) :
    mergeBy order (a :: first) (b :: second) =
      if order a b = .gt then b :: mergeBy order (a :: first) second else a :: mergeBy order first (b :: second) := by
  rw [mergeBy, List.cons_merge_cons]
  cases compared : order a b with
  | gt => rfl
  | lt => rfl
  | eq => rfl

/-- Insertion before the first item that is not smaller. -/
def insertBy (order : Item → Item → Ordering) : Item → List Item → List Item :=
  List.orderedInsert fun a b => order a b ≠ .gt

theorem insertBy_cons (x a : Item) (items : List Item) :
    insertBy order x (a :: items) = if order x a = .gt then a :: insertBy order x items else x :: a :: items := by
  rw [insertBy, List.orderedInsert_cons]
  split
  · rfl
  · rename_i after
    rw [if_pos (not_not.mp after)]

theorem sortBy_cons (x : Item) (items : List Item) :
    sortBy order (x :: items) = insertBy order x (sortBy order items) := rfl

theorem mergeBy_single (x : Item) (items : List Item) : mergeBy order [x] items = insertBy order x items := by
  induction items with
  | nil => exact mergeBy_nil [x]
  | cons a rest ih => rw [mergeBy_cons, insertBy_cons, nil_mergeBy, ih]

theorem insertBy_mergeBy {x : Item} {first second : List Item}
    (compares : ComparesOn order {item | item = x ∨ item ∈ first ∨ item ∈ second}) :
    insertBy order x (mergeBy order first second) = mergeBy order (insertBy order x first) second := by
  induction first generalizing second with
  | nil => rw [nil_mergeBy]; exact (mergeBy_single x second).symm
  | cons a first ihFirst =>
      induction second with
      | nil => rw [mergeBy_nil, mergeBy_nil]
      | cons b second ihSecond =>
          have here : x ∈ {item | item = x ∨ item ∈ a :: first ∨ item ∈ b :: second} := .inl rfl
          have left : a ∈ {item | item = x ∨ item ∈ a :: first ∨ item ∈ b :: second} := .inr (.inl List.mem_cons_self)
          have right : b ∈ {item | item = x ∨ item ∈ a :: first ∨ item ∈ b :: second} := .inr (.inr List.mem_cons_self)
          have shorter := ihSecond (compares.mono fun item member =>
            member.imp id (Or.imp id (List.mem_cons_of_mem _)))
          have inner := @ihFirst (b :: second) (compares.mono fun item member =>
            member.imp id (Or.imp (List.mem_cons_of_mem _) id))
          rw [insertBy_cons] at shorter
          rw [mergeBy_cons, insertBy_cons]
          by_cases after : order a b = .gt
          · -- the first of the second list comes first unless the new item does
            rw [if_pos after, insertBy_cons]
            by_cases behind : order x b = .gt
            · rw [if_pos behind, shorter]
              split
              · rw [mergeBy_cons, if_pos after]
              · rw [mergeBy_cons, if_pos behind]
            · have before : order x a ≠ .gt := by
                have small := compares.transitive x here b right a left (Ordering.isLE_iff_ne_gt.mpr behind)
                  (compares.total left right after)
                exact Ordering.isLE_iff_ne_gt.mp small
              rw [if_neg behind, if_neg before, mergeBy_cons, if_neg behind, mergeBy_cons, if_pos after]
          · rw [if_neg after, insertBy_cons]
            by_cases behind : order x a = .gt
            · rw [if_pos behind, if_pos behind, mergeBy_cons, if_neg after, inner]
            · have before : order x b ≠ .gt := by
                have small := compares.transitive x here a left b right (Ordering.isLE_iff_ne_gt.mpr behind)
                  (Ordering.isLE_iff_ne_gt.mpr after)
                exact Ordering.isLE_iff_ne_gt.mp small
              rw [if_neg behind, if_neg behind, mergeBy_cons, if_neg before, mergeBy_cons, if_neg after]

/-- Sorted parts merge into the sorted whole. -/
theorem mergeBy_sortBy {first second : List Item}
    (compares : ComparesOn order {item | item ∈ first ++ second}) :
    mergeBy order (sortBy order first) (sortBy order second) = sortBy order (first ++ second) := by
  induction first with
  | nil => exact nil_mergeBy _
  | cons x rest ih =>
      have later := ih (compares.mono fun item member => List.mem_cons_of_mem _ member)
      rw [List.cons_append, sortBy_cons, sortBy_cons, ← later]
      refine (insertBy_mergeBy (compares.mono fun item member => ?_)).symm
      cases member with
      | inl same => exact same ▸ List.mem_cons_self
      | inr inside =>
          refine List.mem_cons_of_mem _ (List.mem_append.mpr ?_)
          exact inside.imp mem_sortBy.mp mem_sortBy.mp

/-! What makes a sort stable: it permutes the items, puts them in order, and keeps the order
of items that compare equal. -/

theorem sortBy_perm (items : List Item) : (sortBy order items).Perm items := List.perm_insertionSort _ items

theorem mem_insertBy {x item : Item} {items : List Item} : item ∈ insertBy order x items ↔ item = x ∨ item ∈ items :=
  List.mem_orderedInsert _

theorem insertBy_sorted {x : Item} {items : List Item} (compares : ComparesOn order {item | item ∈ x :: items})
    (sorted : items.Pairwise fun a b => (order a b).isLE) :
    (insertBy order x items).Pairwise fun a b => (order a b).isLE := by
  induction items with
  | nil => exact List.pairwise_singleton ..
  | cons a rest ih =>
      obtain ⟨before, later⟩ := List.pairwise_cons.mp sorted
      have here : x ∈ {item | item ∈ x :: a :: rest} := List.mem_cons_self
      have next : a ∈ {item | item ∈ x :: a :: rest} := List.mem_cons_of_mem _ List.mem_cons_self
      rw [insertBy_cons]
      by_cases after : order x a = .gt
      · rw [if_pos after]
        have fewer : {item | item ∈ x :: rest} ⊆ {item | item ∈ x :: a :: rest} := fun _ member =>
          ((List.sublist_cons_self a rest).cons_cons x).subset member
        refine List.pairwise_cons.mpr (And.intro (fun item member => ?_) (ih (compares.mono fewer) later))
        cases mem_insertBy.mp member with
        | inl same => exact same ▸ compares.total here next after
        | inr inside => exact before item inside
      · rw [if_neg after]
        have small := Ordering.isLE_iff_ne_gt.mpr after
        refine List.pairwise_cons.mpr (And.intro (fun item member => ?_) sorted)
        cases List.mem_cons.mp member with
        | inl same => exact same ▸ small
        | inr inside =>
            exact compares.transitive x here a next item (List.mem_cons_of_mem _ (List.mem_cons_of_mem _ inside)) small
              (before item inside)

theorem sortBy_sorted {items : List Item} (compares : ComparesOn order {item | item ∈ items}) :
    (sortBy order items).Pairwise fun a b => (order a b).isLE := by
  induction items with
  | nil => exact List.Pairwise.nil
  | cons x rest ih =>
      refine insertBy_sorted (compares.mono fun item member => ?_)
        (ih (compares.mono fun item member => List.mem_cons_of_mem _ member))
      exact List.cons_subset_cons x (fun _ => mem_sortBy.mp) member

theorem filter_insertBy {x : Item} {items : List Item} {keep : Item → Bool} (dropped : keep x = false) :
    (insertBy order x items).filter keep = items.filter keep := by
  induction items with
  | nil => exact List.filter_cons_of_neg (by rw [dropped]; exact Bool.false_ne_true)
  | cons a rest ih =>
      rw [insertBy_cons]
      split
      · rw [List.filter_cons, List.filter_cons, ih]
      · exact List.filter_cons_of_neg (by rw [dropped]; exact Bool.false_ne_true)

/-- Items that are dropped leave the order of the others. -/
theorem insertBy_filter {x : Item} {items : List Item} {keep : Item → Bool}
    (compares : ComparesOn order {item | item ∈ x :: items}) (sorted : items.Pairwise fun a b => (order a b).isLE)
    (kept : keep x = true) : (insertBy order x items).filter keep = insertBy order x (items.filter keep) := by
  induction items with
  | nil => exact List.filter_cons_of_pos kept
  | cons a rest ih =>
      obtain ⟨before, later⟩ := List.pairwise_cons.mp sorted
      have fewer : {item | item ∈ x :: rest} ⊆ {item | item ∈ x :: a :: rest} := fun _ member =>
        ((List.sublist_cons_self a rest).cons_cons x).subset member
      have inner := ih (compares.mono fewer) later
      rw [insertBy_cons]
      by_cases after : order x a = .gt
      · rw [if_pos after, List.filter_cons, List.filter_cons, inner]
        cases keep a with
        | false => rfl
        | true =>
            rw [if_pos rfl, if_pos rfl, insertBy_cons, if_pos after]
      · rw [if_neg after, List.filter_cons_of_pos kept]
        have small : ∀ item ∈ (a :: rest).filter keep, order x item ≠ .gt := by
          intro item member
          have inside := List.mem_of_mem_filter member
          have first := Ordering.isLE_iff_ne_gt.mpr after
          cases List.mem_cons.mp inside with
          | inl same => exact same ▸ after
          | inr behind =>
              have next := before item behind
              exact Ordering.isLE_iff_ne_gt.mp (compares.transitive x List.mem_cons_self a
                (List.mem_cons_of_mem _ List.mem_cons_self) item (List.mem_cons_of_mem _ inside) first next)
        cases found : (a :: rest).filter keep with
        | nil => rfl
        | cons b others =>
            rw [insertBy_cons, if_neg (small b (found ▸ List.mem_cons_self))]

/-- Filtering before sorting is filtering the sorted items. -/
theorem sortBy_filter {items : List Item} (compares : ComparesOn order {item | item ∈ items}) (keep : Item → Bool) :
    sortBy order (items.filter keep) = (sortBy order items).filter keep := by
  induction items with
  | nil => rfl
  | cons x rest ih =>
      have fewer := compares.mono fun item member => List.mem_cons_of_mem x member
      have inner := ih fewer
      rw [sortBy_cons]
      cases kept : keep x with
      | true =>
          have all : ComparesOn order {item | item ∈ x :: sortBy order rest} := compares.mono fun item member =>
            List.cons_subset_cons x (fun _ => mem_sortBy.mp) member
          rw [List.filter_cons_of_pos kept, sortBy_cons, inner, insertBy_filter all (sortBy_sorted fewer) kept]
      | false =>
          rw [List.filter_cons_of_neg (by rw [kept]; exact Bool.false_ne_true), inner]
          exact (filter_insertBy kept).symm

/-- Items that compare equal to one item. -/
def tiedWith (order : Item → Item → Ordering) (item : Item) (items : List Item) : List Item :=
  items.filter fun other => order item other == .eq

theorem tiedWith_insertBy {item x : Item} {items : List Item}
    (compares : ComparesOn order {other | other = item ∨ other ∈ x :: items}) :
    tiedWith order item (insertBy order x items) = tiedWith order item (x :: items) := by
  induction items with
  | nil => rfl
  | cons a rest ih =>
      rw [insertBy_cons]
      split
      · rename_i after
        have here : x ∈ {other | other = item ∨ other ∈ x :: a :: rest} := .inr List.mem_cons_self
        have next : a ∈ {other | other = item ∨ other ∈ x :: a :: rest} :=
          .inr (List.mem_cons_of_mem _ List.mem_cons_self)
        have mine : item ∈ {other | other = item ∨ other ∈ x :: a :: rest} := .inl rfl
        have later := ih (compares.mono fun other member =>
          member.imp id fun inside => ((List.sublist_cons_self a rest).cons_cons x).subset inside)
        simp only [tiedWith, List.filter_cons] at later ⊢
        rw [later]
        -- items of which one is after the other are not both tied
        cases tied : order item x == .eq with
        | false => rfl
        | true =>
            cases alsoTied : order item a == .eq with
            | false => rfl
            | true =>
                have equal := eq_of_beq tied
                have alsoEqual := eq_of_beq alsoTied
                have back : (order x item).isLE := by rw [compares.opposite item mine x here, equal]; rfl
                have small := compares.transitive x here item mine a next back (by rw [alsoEqual]; rfl)
                rw [after] at small
                cases small
      · rfl

theorem tiedWith_sortBy {item : Item} {items : List Item}
    (compares : ComparesOn order {other | other = item ∨ other ∈ items}) :
    tiedWith order item (sortBy order items) = tiedWith order item items := by
  induction items with
  | nil => rfl
  | cons x rest ih =>
      have later := ih (compares.mono fun other member => member.imp id (List.mem_cons_of_mem _))
      rw [sortBy_cons, tiedWith_insertBy (compares.mono fun other member => ?_)]
      · simp only [tiedWith, List.filter_cons] at later ⊢
        rw [later]
      · exact member.imp id fun inside => List.cons_subset_cons x (fun _ => mem_sortBy.mp) inside

/-- The first items of a merge are decided by as many first items of both lists. -/
theorem take_mergeBy {count left right : Nat} (enough : count ≤ left) (also : count ≤ right)
    (first second : List Item) :
    (mergeBy order (first.take left) (second.take right)).take count = (mergeBy order first second).take count := by
  induction count generalizing left right first second with
  | zero => rw [List.take_zero, List.take_zero]
  | succ count ih =>
      cases first with
      | nil =>
          rw [List.take_nil, nil_mergeBy, nil_mergeBy, List.take_take, Nat.min_eq_left also]
      | cons a first =>
          cases second with
          | nil => rw [List.take_nil, mergeBy_nil, mergeBy_nil, List.take_take, Nat.min_eq_left enough]
          | cons b second =>
              cases left with
              | zero => cases enough
              | succ left =>
                  cases right with
                  | zero => cases also
                  | succ right =>
                      have few := Nat.le_of_succ_le_succ enough
                      have alsoFew := Nat.le_of_succ_le_succ also
                      have skip := ih (few.trans (Nat.le_succ left)) alsoFew (a :: first) second
                      have keep := ih few (alsoFew.trans (Nat.le_succ right)) first (b :: second)
                      rw [List.take_succ_cons] at skip keep
                      rw [List.take_succ_cons, List.take_succ_cons, mergeBy_cons, mergeBy_cons]
                      split
                      · rw [List.take_succ_cons, List.take_succ_cons, skip]
                      · rw [List.take_succ_cons, List.take_succ_cons, keep]

end Sorting

end Library
