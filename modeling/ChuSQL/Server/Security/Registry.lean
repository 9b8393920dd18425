import ChuSQL.Server.Security.Sessions
import Mathlib.Data.Multiset.Count

/-! The table of gates counts its registrations: a name has a gate exactly while a thread is
registered for it, the same one for all of them, and no two names share one. -/

set_option autoImplicit false

namespace ChuSQL.Server.Security

open Library

/-- The registrations a thread will take back. -/
def registrations : List Frame → Multiset Entry
  | [] => 0
  | .gate _ _ :: rest => registrations rest
  | .keys entries :: rest => ↑entries + registrations rest

def registered (entries : Multiset Entry) (name : String) : Nat := entries.countP fun entry => entry.name = name

structure Registry {Thread : Type} [Fintype Thread] (databaseGates : String → Option (GateId × Int)) (fresh : GateId)
    (held : Thread → Multiset Entry) : Prop where
  counted : ∀ name, ((databaseGates name).elim 0 fun kept => kept.2) = ∑ thread, registered (held thread) name
  positive : ∀ {name gate count}, databaseGates name = some (gate, count) → 0 < count
  agrees : ∀ thread {entry}, entry ∈ held thread → ∃ count, databaseGates entry.name = some (entry.gate, count)
  apart : ∀ {first second gate count other}, databaseGates first = some (gate, count) →
    databaseGates second = some (gate, other) → first = second
  used : ∀ {name gate count}, databaseGates name = some (gate, count) → securityGate < gate ∧ gate < fresh
  unnamed : databaseGates "" = none

namespace Registry

variable {Thread : Type} [Fintype Thread] {databaseGates : String → Option (GateId × Int)} {fresh : GateId}
  {held : Thread → Multiset Entry}

theorem mono (registry : Registry databaseGates fresh held) {later : GateId} (below : fresh ≤ later) :
    Registry databaseGates later held where
  counted := registry.counted
  positive := registry.positive
  agrees := registry.agrees
  apart := registry.apart
  used := fun kept => ⟨(registry.used kept).1, (registry.used kept).2.trans_le below⟩
  unnamed := registry.unnamed

/-- A name is in the table exactly while a thread is registered for it. -/
theorem none_iff (registry : Registry databaseGates fresh held) (name : String) :
    databaseGates name = none ↔ ∀ thread, ∀ entry ∈ held thread, entry.name ≠ name := by
  have counted := registry.counted name
  constructor
  · intro absent thread entry member same
    obtain ⟨count, kept⟩ := registry.agrees _ member
    rw [same, absent] at kept
    cases kept
  · intro nobody
    have zero : ∑ thread, registered (held thread) name = 0 := by
      apply Finset.sum_eq_zero
      intro thread _
      exact Multiset.countP_eq_zero.mpr (nobody thread)
    rw [zero] at counted
    cases kept : databaseGates name with
    | none => rfl
    | some found =>
        have positive := registry.positive (kept : databaseGates name = some (found.1, found.2))
        rw [kept] at counted
        simp only [Option.elim_some, Nat.cast_zero] at counted
        omega

variable [DecidableEq Thread]

omit [Fintype Thread] in
theorem registered_update (name : String) (thread : Thread) (entries : Multiset Entry) :
    (fun other => registered (Function.update held thread entries other) name) =
      Function.update (fun other => registered (held other) name) thread (registered entries name) := by
  funext other
  by_cases same : other = thread
  · rw [same, Function.update_self, Function.update_self]
  · rw [Function.update_of_ne same, Function.update_of_ne same]

theorem sum_registered (held : Thread → Multiset Entry) (name : String) (thread : Thread) (entries : Multiset Entry) :
    ∑ other, registered (Function.update held thread entries other) name + registered (held thread) name =
      ∑ other, registered (held other) name + registered entries name := by
  rw [registered_update]
  exact sum_update (fun other => registered (held other) name) thread (registered entries name)

/-- One more registration for a name that has a gate, or for a name with a gate of its own. -/
theorem add (registry : Registry databaseGates fresh held) (thread : Thread) (entry : Entry) (named : entry.name ≠ "")
    (count : entry.count = ((databaseGates entry.name).elim 0 fun kept => kept.2) + 1)
    (gate : (∃ count, databaseGates entry.name = some (entry.gate, count)) ∨
      (databaseGates entry.name = none ∧ securityGate < entry.gate ∧ entry.gate < fresh ∧
        ∀ name kept, databaseGates name = some kept → kept.1 ≠ entry.gate)) :
    Registry (Function.update databaseGates entry.name (some (entry.gate, entry.count))) fresh
      (Function.update held thread (entry ::ₘ held thread)) := by
  have used : securityGate < entry.gate ∧ entry.gate < fresh := by
    cases gate with
    | inl kept =>
        obtain ⟨count, kept⟩ := kept
        exact registry.used kept
    | inr new => exact ⟨new.2.1, new.2.2.1⟩
  have foreign : ∀ name kept, name ≠ entry.name → databaseGates name = some kept → kept.1 ≠ entry.gate := by
    intro name kept differs found same
    cases gate with
    | inl present =>
        obtain ⟨count, present⟩ := present
        exact differs (registry.apart (found.trans (congrArg some (Prod.ext same rfl))) present)
    | inr new => exact new.2.2.2 name kept found same
  constructor
  · intro name
    have total := sum_registered held name thread (entry ::ₘ held thread)
    have counted := registry.counted name
    simp only [registered, Multiset.countP_cons] at total counted ⊢
    by_cases same : name = entry.name
    · subst same
      rw [Function.update_self, Option.elim_some, count]
      simp only [if_true] at total
      omega
    · rw [Function.update_of_ne same]
      rw [if_neg (Ne.symm same)] at total
      omega
  · intro name found number kept
    by_cases same : name = entry.name
    · rw [same, Function.update_self] at kept
      cases kept
      rw [count]
      cases before : databaseGates entry.name with
      | none => simp
      | some other =>
          have positive := registry.positive (before : databaseGates entry.name = some (other.1, other.2))
          simp only [Option.elim_some]
          omega
    · rw [Function.update_of_ne same] at kept
      exact registry.positive kept
  · intro owner other member
    by_cases same : other.name = entry.name
    · rw [same, Function.update_self]
      have old : ∀ {place}, other ∈ held place → other.gate = entry.gate := by
        intro place member
        obtain ⟨number, kept⟩ := registry.agrees _ member
        rw [same] at kept
        cases gate with
        | inl present =>
            obtain ⟨_, present⟩ := present
            rw [present] at kept
            exact (congrArg Prod.fst (Option.some.inj kept)).symm
        | inr new =>
            rw [new.1] at kept
            cases kept
      have equal : other.gate = entry.gate := by
        by_cases here : owner = thread
        · rw [here, Function.update_self, Multiset.mem_cons] at member
          cases member with
          | inl is => rw [is]
          | inr before => exact old before
        · rw [Function.update_of_ne here] at member
          exact old member
      exact ⟨entry.count, by rw [equal]⟩
    · rw [Function.update_of_ne same]
      by_cases here : owner = thread
      · rw [here, Function.update_self, Multiset.mem_cons] at member
        cases member with
        | inl is => exact absurd (congrArg Entry.name is) same
        | inr before => exact registry.agrees _ before
      · rw [Function.update_of_ne here] at member
        exact registry.agrees _ member
  · intro first second found number other one two
    by_cases atFirst : first = entry.name
    · by_cases atSecond : second = entry.name
      · rw [atFirst, atSecond]
      · rw [atFirst, Function.update_self] at one
        rw [Function.update_of_ne atSecond] at two
        cases one
        exact absurd rfl (foreign second _ atSecond two)
    · rw [Function.update_of_ne atFirst] at one
      by_cases atSecond : second = entry.name
      · rw [atSecond, Function.update_self] at two
        cases two
        exact absurd rfl (foreign first _ atFirst one)
      · rw [Function.update_of_ne atSecond] at two
        exact registry.apart one two
  · intro name found number kept
    by_cases same : name = entry.name
    · rw [same, Function.update_self] at kept
      cases kept
      exact used
    · rw [Function.update_of_ne same] at kept
      exact registry.used kept
  · rw [Function.update_of_ne (Ne.symm named)]
    exact registry.unnamed

/-- One registration less; with the last one the gate is forgotten. -/
theorem remove (registry : Registry databaseGates fresh held) (thread : Thread) {entry : Entry} {rest : Multiset Entry}
    (member : held thread = entry ::ₘ rest) :
    Registry (release entry databaseGates) fresh (Function.update held thread rest) := by
  obtain ⟨count, kept⟩ := registry.agrees thread (by rw [member]; exact Multiset.mem_cons_self entry rest)
  have positive := registry.positive kept
  have total : ∀ name, ∑ other, registered (Function.update held thread rest other) name +
      (if entry.name = name then 1 else 0) = ∑ other, registered (held other) name := by
    intro name
    have sums := sum_registered held name thread rest
    rw [member] at sums
    simp only [registered, Multiset.countP_cons] at sums ⊢
    omega
  have other : ∀ {name}, name ≠ entry.name → release entry databaseGates name = databaseGates name := by
    intro name differs
    rw [release, Function.update_of_ne differs]
  have self : release entry databaseGates entry.name = if count = 1 then none else some (entry.gate, count - 1) := by
    rw [release, Function.update_self, kept]
    rfl
  have remains : ∀ {name found number}, release entry databaseGates name = some (found, number) →
      ∃ before, databaseGates name = some (found, before) := by
    intro name found number present
    by_cases same : name = entry.name
    · rw [same, self] at present
      obtain ⟨_, equal⟩ := Option.ite_none_left_eq_some.mp present
      cases equal
      exact ⟨count, same ▸ kept⟩
    · exact ⟨number, (other same).symm.trans present⟩
  have counts : ((databaseGates entry.name).elim 0 fun found => found.2) = count := by rw [kept]; rfl
  constructor
  · intro name
    have counted := registry.counted name
    have sums := total name
    by_cases same : name = entry.name
    · subst same
      rw [counts] at counted
      rw [self]
      rw [if_pos rfl] at sums
      split
      · rename_i last
        simp only [Option.elim_none]
        omega
      · simp only [Option.elim_some]
        omega
    · rw [other same]
      rw [if_neg (Ne.symm same)] at sums
      omega
  · intro name found number present
    by_cases same : name = entry.name
    · rw [same, self] at present
      obtain ⟨more, equal⟩ := Option.ite_none_left_eq_some.mp present
      cases equal
      omega
    · rw [other same] at present
      exact registry.positive present
  · intro owner second present
    have before : second ∈ held owner := by
      by_cases here : owner = thread
      · rw [here, Function.update_self] at present
        rw [here, member]
        exact Multiset.mem_cons_of_mem present
      · rwa [Function.update_of_ne here] at present
    obtain ⟨number, found⟩ := registry.agrees _ before
    by_cases same : second.name = entry.name
    · rw [same, kept] at found
      have gate : entry.gate = second.gate := congrArg Prod.fst (Option.some.inj found)
      rw [same, self, ← gate]
      have sums := total entry.name
      have counted := registry.counted entry.name
      rw [counts] at counted
      rw [if_pos rfl] at sums
      have inside : 0 < registered (Function.update held thread rest owner) entry.name :=
        Multiset.countP_pos.mpr ⟨second, present, same⟩
      have least := Finset.single_le_sum (f := fun place => registered (Function.update held thread rest place) entry.name)
        (fun place _ => Nat.zero_le _) (Finset.mem_univ owner)
      rw [if_neg (by omega)]
      exact ⟨count - 1, rfl⟩
    · exact ⟨number, (other same).trans found⟩
  · intro first second found number more one two
    obtain ⟨_, before⟩ := remains one
    obtain ⟨_, again⟩ := remains two
    exact registry.apart before again
  · intro name found number present
    obtain ⟨_, before⟩ := remains present
    exact registry.used before
  · cases present : release entry databaseGates "" with
    | none => rfl
    | some found =>
        obtain ⟨_, before⟩ := remains (present : release entry databaseGates "" = some (found.1, found.2))
        rw [registry.unnamed] at before
        cases before

/-! ### Lists of registrations -/

theorem unregister_all (registry : Registry databaseGates fresh held) (thread : Thread) (entries : List Entry)
    (rest : Multiset Entry) (member : held thread = ↑entries + rest) :
    Registry (unregister databaseGates entries) fresh (Function.update held thread rest) := by
  induction entries generalizing rest with
  | nil =>
      have same : held thread = rest := by simpa using member
      rw [← same, Function.update_eq_self]
      exact registry
  | cons entry entries ih =>
      have later := ih (entry ::ₘ rest) (by rw [member, ← Multiset.cons_coe, Multiset.cons_add, Multiset.add_cons])
      have done := later.remove thread (Function.update_self thread (entry ::ₘ rest) held)
      rwa [Function.update_idem] at done

end Registry

/-- Registering leaves the names it does not mention as they are, and new gates are numbered
from the given number on. -/
structure Registers (existing : String → Option (GateId × Int)) (start : GateId) (accesses : List (String × Bool))
    (entries : List Entry) (last : GateId) : Prop where
  after : start ≤ last
  named : entries.map Entry.name = accesses.map Prod.fst
  unchanged : ∀ {name}, name ∉ accesses.map Prod.fst → register existing entries name = existing name
  gates : ∀ {name kept}, register existing entries name = some kept →
    (∃ count, existing name = some (kept.1, count)) ∨ start ≤ kept.1

theorem Registry.register_all {Thread : Type} [Fintype Thread] [DecidableEq Thread]
    {existing : String → Option (GateId × Int)} {fresh : GateId} {held : Thread → Multiset Entry}
    (registry : Registry existing fresh held) (thread : Thread) (accesses : List (String × Bool))
    (distinct : (accesses.map Prod.fst).Nodup) (proper : ∀ access ∈ accesses, access.1 ≠ "") {start : GateId}
    (above : fresh ≤ start) (positive : securityGate < start) :
    Registers existing start accesses (entriesOf existing start accesses).1 (entriesOf existing start accesses).2 ∧
      Registry (register existing (entriesOf existing start accesses).1) (entriesOf existing start accesses).2
        (Function.update held thread (↑(entriesOf existing start accesses).1 + held thread)) := by
  induction accesses generalizing start with
  | nil =>
      constructor
      · constructor
        · exact le_rfl
        · rfl
        · exact fun _ => rfl
        · exact fun kept => .inl ⟨_, kept⟩
      · simpa [entriesOf, register] using registry.mono above
  | cons access rest ih =>
      obtain ⟨name, exclusive⟩ := access
      rw [List.map_cons, List.nodup_cons] at distinct
      have properRest := fun access member => proper access (List.mem_cons_of_mem _ member)
      have named : name ≠ "" := proper (name, exclusive) List.mem_cons_self
      have step : ∀ {entry : Entry} {from' : GateId}, entry.name = name → start ≤ from' →
          entry.count = ((existing name).elim 0 fun kept => kept.2) + 1 →
          Registers existing from' rest (entriesOf existing from' rest).1 (entriesOf existing from' rest).2 →
          Registry (register existing (entriesOf existing from' rest).1) (entriesOf existing from' rest).2
            (Function.update held thread (↑(entriesOf existing from' rest).1 + held thread)) →
          ((∃ count, existing name = some (entry.gate, count)) ∨
            (existing name = none ∧ entry.gate = start ∧ start < from')) →
          Registers existing start ((name, exclusive) :: rest) (entry :: (entriesOf existing from' rest).1)
              (entriesOf existing from' rest).2 ∧
            Registry (register existing (entry :: (entriesOf existing from' rest).1)) (entriesOf existing from' rest).2
              (Function.update held thread (↑(entry :: (entriesOf existing from' rest).1) + held thread)) := by
        intro entry from' same below count registers kept gate
        have before : register existing (entriesOf existing from' rest).1 entry.name = existing name := by
          rw [same]
          exact registers.unchanged distinct.1
        constructor
        · constructor
          · exact below.trans registers.after
          · rw [List.map_cons, List.map_cons, registers.named, same]
          · intro other absent
            rw [List.map_cons, List.mem_cons, not_or] at absent
            rw [register, List.foldr_cons, Function.update_of_ne (by rw [same]; exact absent.1)]
            exact registers.unchanged absent.2
          · intro other found present
            rw [register, List.foldr_cons] at present
            by_cases here : other = entry.name
            · rw [here, Function.update_self] at present
              cases present
              rw [here, same]
              cases gate with
              | inl old => exact .inl old
              | inr new => exact .inr new.2.1.ge
            · rw [Function.update_of_ne here] at present
              exact (registers.gates present).imp_right below.trans
        · have added := kept.add thread entry (by rwa [same]) (by rw [before, count]) (by
            rw [before]
            cases gate with
            | inl old => exact .inl old
            | inr new =>
                obtain ⟨absent, gate, larger⟩ := new
                apply Or.inr
                rw [gate]
                constructor
                · exact absent
                constructor
                · exact positive
                constructor
                · exact larger.trans_le registers.after
                · intro other found present
                  cases registers.gates present with
                  | inl old =>
                      obtain ⟨_, old⟩ := old
                      exact ((registry.used old).2.trans_le above).ne
                  | inr new => exact (larger.trans_le new).ne')
          rw [Function.update_idem, Function.update_self] at added
          rwa [← Multiset.cons_coe, Multiset.cons_add]
      rw [entriesOf]
      cases found : existing name with
      | some kept =>
          obtain ⟨registers, after⟩ := ih distinct.2 properRest above positive
          exact step rfl le_rfl (by rw [found]; rfl) registers after (.inl ⟨kept.2, found⟩)
      | none =>
          obtain ⟨registers, after⟩ := ih distinct.2 properRest (above.trans (Nat.le_succ _)) (positive.trans (Nat.lt_succ_self _))
          exact step rfl (Nat.le_succ _) (by rw [found]; rfl) registers after (.inr ⟨found, rfl, Nat.lt_succ_self _⟩)

end ChuSQL.Server.Security
