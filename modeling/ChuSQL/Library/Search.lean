import ChuSQL.Library.SortedMap
import Mathlib.Logic.Relation

/-! Depth-first search for a path back to a target. All branches share the visited
nodes, so a node already seen is not entered again. -/

set_option autoImplicit false

namespace Library

variable {Node : Type} [DecidableEq Node]

/-- Try the successors one after another, with the nodes visited so far. -/
def searchAny (visit : List Node → Node → Bool × List Node) (target : Node) :
    (visited successors : List Node) → Bool × List Node
  | visited, [] => (false, visited)
  | visited, node :: rest =>
      if node = target then (true, visited)
      else
        match visit visited node with
        | (true, visited) => (true, visited)
        | (false, visited) => searchAny visit target visited rest

/-- Whether the target can be reached in one step or more. -/
def search (next : Node → List Node) (target : Node) :
    (fuel : Nat) → (visited : List Node) → Node → Bool × List Node
  | 0, visited, _ => (false, visited)
  | fuel + 1, visited, current =>
      if current ∈ visited then (false, visited)
      else searchAny (search next target fuel) target (current :: visited) (next current)

def Edge (next : Node → List Node) (first second : Node) : Prop := second ∈ next first

variable {next : Node → List Node} {target : Node}

/-! ### What the search finds is a path -/

private theorem searchAny_sound {visit : List Node → Node → Bool × List Node}
    (sound : ∀ visited node, (visit visited node).1 = true →
      Relation.TransGen (Edge next) node target)
    {successors : List Node} {visited : List Node}
    (found : (searchAny visit target visited successors).1 = true) :
    ∃ node ∈ successors, node = target ∨ Relation.TransGen (Edge next) node target := by
  induction successors generalizing visited with
  | nil => cases found
  | cons node rest ih =>
      rw [searchAny] at found
      split at found
      · rename_i same
        exact ⟨node, List.mem_cons_self, .inl same⟩
      · split at found
        · rename_i visited' result
          exact ⟨node, List.mem_cons_self, .inr (sound visited node (by rw [result]))⟩
        · obtain ⟨later, member, reach⟩ := ih found
          exact ⟨later, List.mem_cons_of_mem _ member, reach⟩

theorem search_sound {fuel : Nat} {visited : List Node} {current : Node}
    (found : (search next target fuel visited current).1 = true) :
    Relation.TransGen (Edge next) current target := by
  induction fuel generalizing visited current with
  | zero => cases found
  | succ fuel ih =>
      rw [search] at found
      split at found
      · cases found
      · obtain ⟨node, member, reach⟩ := searchAny_sound (fun _ _ => ih) found
        cases reach with
        | inl same => exact .single (same ▸ member)
        | inr later => exact .head member later

/-! ### What the search leaves out cannot be reached -/

/-- Nodes still to be entered. -/
def unvisited (nodes visited : List Node) : Nat := (nodes.filter fun node => node ∉ visited).length

theorem unvisited_mono {nodes first second : List Node} (subset : first ⊆ second) :
    unvisited nodes second ≤ unvisited nodes first := by
  refine (List.monotone_filter_right nodes fun node outside => ?_).length_le
  simp only [decide_eq_true_eq] at outside ⊢
  exact fun member => outside (subset member)

theorem unvisited_cons_lt {nodes visited : List Node} {node : Node} (member : node ∈ nodes)
    (fresh : node ∉ visited) : unvisited nodes (node :: visited) < unvisited nodes visited := by
  have split : (nodes.filter fun other => other ∉ node :: visited) =
      (nodes.filter fun other => other ∉ visited).filter fun other => other ≠ node := by
    rw [List.filter_filter]
    refine List.filter_congr fun other _ => ?_
    simp [not_or]
  rw [unvisited, unvisited, split]
  refine lt_of_le_of_ne (List.length_filter_le _ _) fun same => ?_
  have kept := List.length_filter_eq_length_iff.mp same node
    (List.mem_filter.mpr ⟨member, by simpa using fresh⟩)
  simp at kept

/-- The search went through everything it entered and met no edge to the target. -/
structure Explored (next : Node → List Node) (target : Node) (before after : List Node) : Prop where
  kept : before ⊆ after
  closed : ∀ node ∈ after, node ∉ before → ∀ successor ∈ next node,
    successor ≠ target ∧ successor ∈ after

theorem Explored.refl (visited : List Node) : Explored next target visited visited :=
  ⟨List.Subset.refl _, fun _ member fresh => absurd member fresh⟩

theorem Explored.trans {first second third : List Node}
    (earlier : Explored next target first second) (later : Explored next target second third) :
    Explored next target first third where
  kept := List.Subset.trans earlier.kept later.kept
  closed node member fresh successor edge := by
    by_cases seen : node ∈ second
    · obtain ⟨other, inside⟩ := earlier.closed node seen fresh successor edge
      exact ⟨other, later.kept inside⟩
    · exact later.closed node member seen successor edge

private theorem searchAny_explored {visit : List Node → Node → Bool × List Node}
    {nodes : List Node} {bound : Nat}
    (explored : ∀ visited node after, node ∈ nodes → unvisited nodes visited < bound →
      visit visited node = (false, after) →
      Explored next target visited after ∧ node ∈ after)
    {successors : List Node} (inside : successors ⊆ nodes) {visited after : List Node}
    (room : unvisited nodes visited < bound)
    (result : searchAny visit target visited successors = (false, after)) :
    Explored next target visited after ∧
      ∀ successor ∈ successors, successor ≠ target ∧ successor ∈ after := by
  induction successors generalizing visited with
  | nil =>
      cases result
      exact ⟨.refl _, fun _ member => absurd member List.not_mem_nil⟩
  | cons node rest ih =>
      rw [searchAny] at result
      split at result
      · cases result
      · rename_i different
        split at result
        · cases result
        · rename_i middle visit_eq
          obtain ⟨first, entered⟩ :=
            explored visited node middle (inside List.mem_cons_self) room visit_eq
          obtain ⟨second, others⟩ := ih (fun _ member => inside (List.mem_cons_of_mem _ member))
            ((unvisited_mono first.kept).trans_lt room) result
          refine ⟨first.trans second, fun successor member => ?_⟩
          cases List.mem_cons.mp member with
          | inl same => exact same ▸ ⟨different, second.kept entered⟩
          | inr later => exact others successor later

private theorem search_explored {nodes : List Node} (closed : ∀ node, next node ⊆ nodes) :
    ∀ (fuel : Nat) {visited after : List Node} {current : Node}, current ∈ nodes →
      unvisited nodes visited < fuel → search next target fuel visited current = (false, after) →
      Explored next target visited after ∧ current ∈ after := by
  intro fuel
  induction fuel with
  | zero => intro _ _ _ _ room; exact absurd room (Nat.not_lt_zero _)
  | succ fuel ih =>
      intro visited after current member room result
      rw [search] at result
      split at result
      · rename_i seen
        cases result
        exact ⟨.refl visited, seen⟩
      · rename_i fresh
        have smaller := unvisited_cons_lt member fresh
        obtain ⟨explored, successors⟩ := searchAny_explored
          (fun _ _ _ inside room result => ih inside room result) (closed current)
          (show unvisited nodes (current :: visited) < fuel by omega) result
        have entered : current ∈ after := explored.kept List.mem_cons_self
        refine ⟨⟨fun _ seen => explored.kept (List.mem_cons_of_mem _ seen), ?_⟩, entered⟩
        intro node inside outside successor edge
        by_cases same : node = current
        · exact successors successor (same ▸ edge)
        · refine explored.closed node inside (fun seen => ?_) successor edge
          cases List.mem_cons.mp seen with
          | inl equal => exact same equal
          | inr earlier => exact outside earlier

/-- With fuel for every node, the search decides whether the target can be reached. -/
theorem search_iff {nodes : List Node} (closed : ∀ node, next node ⊆ nodes) {start : Node}
    (member : start ∈ nodes) {fuel : Nat} (room : nodes.length < fuel) :
    (search next target fuel [] start).1 = true ↔ Relation.TransGen (Edge next) start target := by
  refine ⟨search_sound, fun reach => ?_⟩
  by_contra missed
  have result : search next target fuel [] start = (false, (search next target fuel [] start).2) :=
    Prod.ext (Bool.eq_false_iff.mpr missed) rfl
  have bounded : unvisited nodes [] < fuel := (List.length_filter_le _ _).trans_lt room
  obtain ⟨explored, entered⟩ := search_explored closed fuel member bounded result
  -- every node on a path from the start stays inside the visited nodes and differs from the target
  have along : ∀ node, Relation.TransGen (Edge next) start node →
      node ≠ target ∧ node ∈ (search next target fuel [] start).2 := by
    intro node path
    induction path with
    | single edge => exact explored.closed start entered List.not_mem_nil _ edge
    | tail _ edge ih => exact explored.closed _ ih.2 List.not_mem_nil _ edge
  exact (along target reach).1 rfl

/-! ### New edges at one node -/

private theorem path_split {other : Node → List Node} {fresh : Node}
    (same : ∀ node, node ≠ fresh → other node ⊆ next node) {first last : Node}
    (path : Relation.TransGen (Edge other) first last) :
    Relation.TransGen (Edge next) first last ∨
      Relation.ReflTransGen (Edge other) first fresh ∧ Relation.TransGen (Edge other) fresh last := by
  induction path using Relation.TransGen.head_induction_on with
  | single edge =>
      rename_i node
      by_cases here : node = fresh
      · exact .inr ⟨here ▸ .refl, .single (here ▸ edge)⟩
      · exact .inl (.single (same node here edge))
  | head edge path ih =>
      rename_i node middle
      by_cases here : node = fresh
      · exact .inr ⟨here ▸ .refl, .head (here ▸ edge) path⟩
      · cases ih with
        | inl old => exact .inl (.head (same node here edge) old)
        | inr through => exact .inr ⟨.head edge through.1, through.2⟩

/-- New edges close a cycle only through the node they start from. -/
theorem acyclic_of_new_edges {other : Node → List Node} {fresh : Node}
    (same : ∀ node, node ≠ fresh → other node ⊆ next node)
    (acyclic : ∀ node, ¬ Relation.TransGen (Edge next) node node)
    (back : ¬ Relation.TransGen (Edge other) fresh fresh) (node : Node) :
    ¬ Relation.TransGen (Edge other) node node := by
  intro path
  cases path_split same path with
  | inl old => exact acyclic node old
  | inr through => exact back (through.2.trans_left through.1)

theorem acyclic_of_fewer_edges {other : Node → List Node} (fewer : ∀ node, other node ⊆ next node)
    (acyclic : ∀ node, ¬ Relation.TransGen (Edge next) node node) (node : Node) :
    ¬ Relation.TransGen (Edge other) node node :=
  fun path => acyclic node (Relation.TransGen.mono (fun first _ edge => fewer first edge) _ _ path)

end Library
