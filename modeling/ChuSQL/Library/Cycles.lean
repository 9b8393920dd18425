import Mathlib.Logic.Relation

/-! Edges from parents to children, paths upwards along them, and when a new edge closes
a cycle. -/

set_option autoImplicit false

namespace Library

variable {Node : Type} {edges fewer : List (Node × Node)}

/-- An edge of the list leads up from a child to its parent. -/
def Above (edges : List (Node × Node)) (child parent : Node) : Prop := (parent, child) ∈ edges

theorem above_mono (within : fewer ⊆ edges) {first last : Node} (path : Relation.ReflTransGen (Above fewer) first last) :
    Relation.ReflTransGen (Above edges) first last :=
  Relation.ReflTransGen.mono (fun _ _ edge => within edge) _ _ path

def Acyclic (edges : List (Node × Node)) : Prop := ∀ node, ¬Relation.TransGen (Above edges) node node

theorem Acyclic.subset (acyclic : Acyclic edges) (within : fewer ⊆ edges) : Acyclic fewer :=
  fun node path => acyclic node (Relation.TransGen.mono (fun _ _ edge => within edge) _ _ path)

/-- A path with a new edge avoids it or goes through its child first and from its parent last. -/
theorem path_cons {parent child first last : Node} (path : Relation.TransGen (Above ((parent, child) :: edges)) first last) :
    Relation.TransGen (Above edges) first last ∨
      Relation.ReflTransGen (Above edges) first child ∧ Relation.ReflTransGen (Above edges) parent last := by
  induction path with
  | single edge =>
      cases List.mem_cons.mp edge with
      | inl new =>
          cases new
          exact .inr (And.intro .refl .refl)
      | inr old => exact .inl (.single old)
  | tail _ edge ih =>
      cases List.mem_cons.mp edge with
      | inl new =>
          cases new
          cases ih with
          | inl before => exact .inr (And.intro before.to_reflTransGen .refl)
          | inr through => exact .inr (And.intro through.1 .refl)
      | inr old =>
          cases ih with
          | inl before => exact .inl (before.tail old)
          | inr through => exact .inr (And.intro through.1 (through.2.tail old))

/-- A new edge closes a cycle exactly if its child is the parent or above it. -/
theorem acyclic_cons_iff {parent child : Node} (acyclic : Acyclic edges) :
    Acyclic ((parent, child) :: edges) ↔ ¬Relation.ReflTransGen (Above edges) parent child := by
  constructor
  · intro all path
    have longer := above_mono (List.subset_cons_self (parent, child) edges) path
    exact all parent (.tail' longer List.mem_cons_self)
  · intro apart node path
    cases path_cons path with
    | inl old => exact acyclic node old
    | inr through => exact apart (through.2.trans through.1)

/-- Edges to one parent do not lead further up from it. -/
theorem above_parent {parent last : Node} {children : List Node}
    (path : Relation.ReflTransGen (Above (children.map (fun child => (parent, child)) ++ edges)) parent last) :
    Relation.ReflTransGen (Above edges) parent last := by
  induction path with
  | refl => exact .refl
  | tail _ edge ih =>
      cases List.mem_append.mp edge with
      | inl new =>
          obtain ⟨_, _, same⟩ := List.mem_map.mp new
          cases same
          exact .refl
      | inr old => exact ih.tail old

/-- Edges to one parent keep a relation without cycles so if each of them does. -/
theorem acyclic_children {parent : Node} {children : List Node} (acyclic : Acyclic edges)
    (apart : ∀ child ∈ children, ¬Relation.ReflTransGen (Above edges) parent child) :
    Acyclic (children.map (fun child => (parent, child)) ++ edges) := by
  induction children with
  | nil => exact acyclic
  | cons child rest ih =>
      have later := ih fun other member => apart other (List.mem_cons_of_mem _ member)
      exact (acyclic_cons_iff later).mpr fun path => apart child List.mem_cons_self (above_parent path)

end Library
