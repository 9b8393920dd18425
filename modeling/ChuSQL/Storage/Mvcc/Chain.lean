import ChuSQL.Storage.Mvcc.Publish

/-! Version chains: the intervals of a chain follow one another, so a snapshot sees at
most one version, and only the last one can still be open. -/

set_option autoImplicit false

namespace ChuSQL.Storage.Mvcc

open Library

/-- Each version ends before the next begins, and all ends and beginnings lie within the
commit point. -/
structure ChainSound (csn : Nat) (chain : List Version) : Prop where
  filled : chain ≠ []
  ordered : chain.Pairwise fun first second => ∃ stop, first.end_ = some stop ∧ stop ≤ second.begin
  bounded : ∀ version ∈ chain, version.begin ≤ csn ∧
    ∀ stop, version.end_ = some stop → version.begin ≤ stop ∧ stop ≤ csn

theorem ChainSound.mono {csn later : Nat} {chain : List Version} (sound : ChainSound csn chain)
    (forward : csn ≤ later) : ChainSound later chain where
  filled := sound.filled
  ordered := sound.ordered
  bounded version member := by
    obtain ⟨begun, ended⟩ := sound.bounded version member
    exact ⟨begun.trans forward, fun stop at_ => ⟨(ended stop at_).1, (ended stop at_).2.trans forward⟩⟩

/-! ### Chains seen from their last version -/

@[simp] theorem chainAt_nil (csn : Nat) : chainAt [] csn = none := rfl

theorem chainAt_concat (chain : List Version) (last : Version) (csn : Nat) :
    chainAt (chain ++ [last]) csn = if last.visibleAt csn then some last else chainAt chain csn := by
  rw [chainAt, List.reverse_append]
  simp only [List.reverse_singleton, List.singleton_append, List.find?_cons]
  cases last.visibleAt csn <;> rfl

@[simp] theorem latest_concat (chain : List Version) (last : Version) :
    latest (chain ++ [last]) = if last.end_ = none then some last else none := by
  rw [latest, List.getLast?_concat, Option.filter_some]
  cases last.end_ <;> rfl

theorem endLast_concat (csn : Nat) (chain : List Version) (last : Version) :
    endLast csn (chain ++ [last]) = chain ++ [{ last with end_ := some csn }] := by
  induction chain with
  | nil => rfl
  | cons version rest ih =>
      have step : ∀ tail : List Version, tail ≠ [] →
          endLast csn (version :: tail) = version :: endLast csn tail := by
        intro tail filled
        cases tail with
        | nil => exact absurd rfl filled
        | cons next others => rfl
      rw [List.cons_append, step _ (by simp), ih, List.cons_append]

theorem exists_concat {chain : List Version} (filled : chain ≠ []) :
    ∃ init last, chain = init ++ [last] :=
  ⟨chain.dropLast, chain.getLast filled, (List.dropLast_append_getLast filled).symm⟩

theorem chainAt_mem {chain : List Version} {csn : Nat} {version : Version}
    (seen : chainAt chain csn = some version) : version ∈ chain ∧ version.visibleAt csn = true :=
  ⟨List.mem_reverse.mp (List.mem_of_find?_eq_some seen), by simpa using List.find?_some seen⟩

theorem visibleAt_iff {version : Version} {csn : Nat} :
    version.visibleAt csn = true ↔
      version.begin ≤ csn ∧ ∀ stop, version.end_ = some stop → csn < stop := by
  rw [Version.visibleAt, Bool.and_eq_true, decide_eq_true_eq]
  cases version.end_ <;> simp

theorem chainAt_eq_none {chain : List Version} {csn : Nat} :
    chainAt chain csn = none ↔ ∀ version ∈ chain, version.visibleAt csn = false := by
  rw [chainAt, List.find?_eq_none]
  simp

/-- The parts of a sound chain: all versions but the last have ended. -/
theorem ChainSound.concat {csn : Nat} {init : List Version} {last : Version}
    (sound : ChainSound csn (init ++ [last])) :
    (∀ version ∈ init, ∃ stop, version.end_ = some stop ∧ stop ≤ last.begin) ∧
      last.begin ≤ csn ∧ ∀ stop, last.end_ = some stop → last.begin ≤ stop ∧ stop ≤ csn := by
  refine ⟨fun version member => ?_, sound.bounded last (by simp)⟩
  exact (List.pairwise_append.mp sound.ordered).2.2 version member last (by simp)

/-- What is visible at the commit point is the open last version. -/
theorem ChainSound.chainAt_now {csn : Nat} {chain : List Version} (sound : ChainSound csn chain) :
    chainAt chain csn = latest chain := by
  obtain ⟨init, last, rfl⟩ := exists_concat sound.filled
  obtain ⟨closed, begun, ended⟩ := sound.concat
  rw [chainAt_concat, latest_concat]
  have hidden : chainAt init csn = none := by
    refine chainAt_eq_none.mpr fun version member => Bool.eq_false_iff.mpr fun seen => ?_
    obtain ⟨stop, at_, before⟩ := closed version member
    have open_ := (visibleAt_iff.mp seen).2 stop at_
    omega
  cases stopped : last.end_ with
  | none =>
      have seen : last.visibleAt csn = true :=
        visibleAt_iff.mpr ⟨begun, fun stop at_ => by rw [stopped] at at_; cases at_⟩
      rw [if_pos seen, if_pos rfl]
  | some stop =>
      have unseen : last.visibleAt csn = false := Bool.eq_false_iff.mpr fun seen => by
        have open_ := (visibleAt_iff.mp seen).2 stop stopped
        exact absurd (ended stop stopped).2 (Nat.not_le.mpr open_)
      rw [if_neg (by simp [unseen]), if_neg (by simp), hidden]

/-- A chain seen at some point has not ended before that point. -/
theorem ChainSound.last_open {csn point : Nat} {init : List Version} {last version : Version}
    (sound : ChainSound csn (init ++ [last])) (seen : chainAt (init ++ [last]) point = some version) :
    ∀ stop, last.end_ = some stop → point < stop := by
  intro stop stopped
  obtain ⟨closed, begun, ended⟩ := sound.concat
  obtain ⟨member, visible⟩ := chainAt_mem seen
  obtain ⟨_, open_⟩ := visibleAt_iff.mp visible
  cases List.mem_append.mp member with
  | inl inside =>
      obtain ⟨other, at_, before⟩ := closed version inside
      have after := open_ other at_
      exact after.trans_le (before.trans (ended stop stopped).1)
  | inr same =>
      have equal := List.mem_singleton.mp same
      subst equal
      exact open_ stop stopped

/-! ### Ending and extending a chain -/

/-- A version as a snapshot reads it, whether or not it has ended since. -/
def Version.shown (version : Version) : Version := { version with end_ := none }

def shownAt (chain : List Version) (csn : Nat) : Option Version :=
  (chainAt chain csn).map (·.shown)

theorem visibleAt_end {version : Version} {csn point : Nat} (before : point < csn)
    (open_ : ∀ stop, version.end_ = some stop → point < stop) :
    ({ version with end_ := some csn } : Version).visibleAt point = version.visibleAt point := by
  have same : (∀ stop, some csn = some stop → point < stop) ↔
      ∀ stop, version.end_ = some stop → point < stop := by
    refine ⟨fun _ => open_, fun _ stop at_ => ?_⟩
    cases at_
    exact before
  exact Bool.eq_iff_iff.mpr (by simp only [visibleAt_iff, same])

/-- Snapshots before the end still see an ended chain as before. -/
theorem shownAt_endLast {bound csn point seenAt : Nat} {chain : List Version} {version : Version}
    (sound : ChainSound bound chain) (before : point < csn)
    (seen : chainAt chain seenAt = some version) (within : point ≤ seenAt) :
    shownAt (endLast csn chain) point = shownAt chain point := by
  obtain ⟨init, last, rfl⟩ := exists_concat sound.filled
  have open_ : ∀ stop, last.end_ = some stop → point < stop := fun stop stopped =>
    within.trans_lt (sound.last_open seen stop stopped)
  rw [endLast_concat, shownAt, shownAt, chainAt_concat, chainAt_concat, visibleAt_end before open_]
  split <;> rfl

theorem shownAt_endOpen {bound csn point : Nat} {chain : List Version}
    (sound : ChainSound bound chain) (before : point < csn) :
    shownAt (endOpen csn chain) point = shownAt chain point := by
  rw [endOpen]
  split
  · rfl
  · rename_i opened
    obtain ⟨init, last, rfl⟩ := exists_concat sound.filled
    rw [latest_concat] at opened
    have running : last.end_ = none := by
      by_contra stopped
      exact opened (if_neg stopped)
    rw [endLast_concat, shownAt, shownAt, chainAt_concat, chainAt_concat,
      visibleAt_end before fun stop stopped => by rw [running] at stopped; cases stopped]
    split <;> rfl

/-- A version that begins later is not seen. -/
theorem shownAt_concat_later {chain : List Version} {version : Version} {point : Nat}
    (later : point < version.begin) : shownAt (chain ++ [version]) point = shownAt chain point := by
  have unseen : version.visibleAt point = false := Bool.eq_false_iff.mpr fun seen =>
    absurd (visibleAt_iff.mp seen).1 (Nat.not_le.mpr later)
  rw [shownAt, shownAt, chainAt_concat, if_neg (by simp [unseen])]

/-- Versions that ended at or before the oldest snapshot are seen by none of the others. -/
theorem chainAt_prune {chain : List Version} {oldest point : Nat} (old : oldest ≤ point) :
    chainAt (chain.filter fun version => version.end_.all (oldest < ·)) point = chainAt chain point := by
  rw [chainAt, chainAt, ← List.filter_reverse, List.find?_filter]
  congr 1
  funext version
  cases seen : version.visibleAt point with
  | false => simp
  | true =>
      have open_ := (visibleAt_iff.mp seen).2
      cases stopped : version.end_ with
      | none => simp
      | some stop => simpa using old.trans_lt (open_ stop stopped)

theorem ChainSound.endLast {csn later : Nat} {chain : List Version} (sound : ChainSound csn chain)
    (forward : csn ≤ later) : ChainSound later (endLast later chain) := by
  obtain ⟨init, last, rfl⟩ := exists_concat sound.filled
  obtain ⟨closed, begun, _⟩ := sound.concat
  rw [endLast_concat]
  refine ⟨by simp, ?_, fun version member => ?_⟩
  · rw [List.pairwise_append]
    refine ⟨(List.pairwise_append.mp sound.ordered).1, List.pairwise_singleton .., ?_⟩
    intro version member other same
    rw [List.mem_singleton.mp same]
    exact closed version member
  · cases List.mem_append.mp member with
    | inl inside => exact (sound.mono forward).bounded version (List.mem_append_left _ inside)
    | inr same =>
        rw [List.mem_singleton.mp same]
        refine ⟨begun.trans forward, fun stop at_ => ?_⟩
        cases at_
        exact ⟨begun.trans forward, le_rfl⟩

theorem ChainSound.endOpen {csn later : Nat} {chain : List Version} (sound : ChainSound csn chain)
    (forward : csn ≤ later) : ChainSound later (endOpen later chain) := by
  rw [Mvcc.endOpen]
  split
  · exact sound.mono forward
  · exact sound.endLast forward

/-- A chain continued at the commit point at which its last version ends. -/
theorem ChainSound.extend {csn later valueBegin order : Nat} {row : Row} {chain : List Version}
    (sound : ChainSound csn chain) (forward : csn ≤ later) :
    ChainSound later (Mvcc.endLast later chain ++ [⟨later, none, valueBegin, order, row⟩]) := by
  have ended := sound.endLast forward
  obtain ⟨init, last, rfl⟩ := exists_concat sound.filled
  rw [endLast_concat] at ended ⊢
  refine ⟨by simp, ?_, fun version member => ?_⟩
  · rw [List.pairwise_append]
    refine ⟨ended.ordered, List.pairwise_singleton .., ?_⟩
    intro version member other same
    rw [List.mem_singleton.mp same]
    cases List.mem_append.mp member with
    | inl inside =>
        obtain ⟨stop, stopped, _⟩ := ended.concat.1 version inside
        exact ⟨stop, stopped, ((ended.bounded version member).2 stop stopped).2⟩
    | inr equal =>
        rw [List.mem_singleton.mp equal]
        exact ⟨later, rfl, le_rfl⟩
  · cases List.mem_append.mp member with
    | inl inside => exact ended.bounded version inside
    | inr same =>
        rw [List.mem_singleton.mp same]
        exact ⟨le_rfl, fun stop at_ => by cases at_⟩

theorem chainSound_new (csn valueBegin order : Nat) (row : Row) :
    ChainSound csn [⟨csn, none, valueBegin, order, row⟩] where
  filled := List.cons_ne_nil _ _
  ordered := List.pairwise_singleton _ _
  bounded version member := by
    rw [List.mem_singleton.mp member]
    exact ⟨le_rfl, fun stop at_ => by cases at_⟩

theorem ChainSound.filter {csn : Nat} {chain : List Version} {keep : Version → Bool}
    (sound : ChainSound csn chain) (left : chain.filter keep ≠ []) :
    ChainSound csn (chain.filter keep) :=
  ⟨left, sound.ordered.filter _, fun version member =>
    sound.bounded version (List.mem_of_mem_filter member)⟩

end ChuSQL.Storage.Mvcc
