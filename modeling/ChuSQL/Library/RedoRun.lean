import ChuSQL.Library.GuardedRedo

/-! When does redoing a group of changes lead to the rows the group led to?
First from the rows before the group, where only insertions that look made go
wrong; then from any rows at hand, where insertions can also clash with keys
that later changes of the group put back. -/

set_option autoImplicit false

namespace Library.GuardedRedo

variable {Row Key : Type} [DecidableEq Row] [DecidableEq Key] {key : Row → Option Key}

/-- Some change of the group replaces all rows. -/
def Resets (changes : List (Change Row Key)) : Prop := ∃ change ∈ changes, change.Replaces

/-- Applying the changes, no insertion behind the last replacement finds all its
rows present. -/
def NoneLooksMade (key : Row → Option Key) : List Row → List (Change Row Key) → Prop
  | _, [] => True
  | stored, change :: rest =>
      (match change with
        | .insert rows => rows = [] ∨ ¬Applied key stored (.insert rows) ∨ Resets rest
        | .delete _ | .replace _ => True) ∧
      match apply key stored change with
      | .ok next => NoneLooksMade key next rest
      | .error _ => True

/-- Redoing the changes up to the first replacement, every insertion finds all
its rows present or none of their keys taken; without a replacement to come, the
rows it then inserts all have keys. -/
def Settles (key : Row → Option Key) : List Row → List (Change Row Key) → Prop
  | _, [] => True
  | _, .replace _ :: _ => True
  | stored, .delete keys :: rest =>
      Settles key (eraseKeys key keys stored) rest
  | stored, .insert rows :: rest =>
      if Applied key stored (.insert rows) then Settles key stored rest
      else Admits key stored rows ∧ (Resets rest ∨ ∀ row ∈ rows, key row ≠ none) ∧
        Settles key (stored ++ rows) rest

theorem redo_delete (stored : List Row) (keys : List Key) :
    redo key stored (.delete keys) = .ok (eraseKeys key keys stored) := by
  rw [redo]
  by_cases made : Applied key stored (.delete keys)
  · rw [if_pos made, eraseKeys_of_applied made]
  · rw [if_neg made, apply]

theorem redo_replace (stored rows : List Row) : redo key stored (.replace rows) = .ok rows := rfl

/-! ### From the rows before the group -/

/-- Redone rows keep up with the applied ones but for equal rows without a key. -/
structure Behind (key : Row → Option Key) (redone applied : List Row) : Prop where
  keyed : ∀ k, withKey key k redone = withKey key k applied
  fewer : (unkeyed key redone).Subperm (unkeyed key applied)
  known : unkeyed key applied ⊆ unkeyed key redone

namespace Behind

variable {redone applied : List Row}

theorem refl (rows : List Row) : Behind key rows rows :=
  ⟨fun _ => rfl, List.Subperm.refl _, List.Subset.refl _⟩

theorem mem_iff (behind : Behind key redone applied) (row : Row) : row ∈ redone ↔ row ∈ applied := by
  cases ofRow : key row with
  | none =>
      have below := behind.fewer.subset (a := row)
      have above := behind.known (a := row)
      simp only [mem_unkeyed, ofRow, and_true] at below above
      exact ⟨below, above⟩
  | some k =>
      have same : row ∈ withKey key k redone ↔ _ := mem_withKey
      rw [behind.keyed k, mem_withKey] at same
      simpa [ofRow] using same.symm

theorem perm_iff (behind : Behind key redone applied) :
    redone.Perm applied ↔ (unkeyed key redone).length = (unkeyed key applied).length := by
  constructor
  · intro same
    exact (same.filter _).length_eq
  · intro equal
    exact perm_of_parts (behind.fewer.perm_of_length_le (Nat.le_of_eq equal.symm))
      fun k => by rw [behind.keyed k]

omit [DecidableEq Row] in
theorem delete (behind : Behind key redone applied) (keys : List Key) :
    Behind key (eraseKeys key keys redone) (eraseKeys key keys applied) := by
  refine ⟨fun k => ?_, ?_, ?_⟩
  · simp only [withKey_eraseKeys, behind.keyed k]
  · simpa only [unkeyed_eraseKeys] using behind.fewer
  · simpa only [unkeyed_eraseKeys] using behind.known

omit [DecidableEq Row] in
theorem insert (behind : Behind key redone applied) (rows : List Row) :
    Behind key (redone ++ rows) (applied ++ rows) := by
  refine ⟨fun k => ?_, ?_, ?_⟩
  · simp only [withKey_append, behind.keyed k]
  · simpa only [unkeyed_append] using (List.subperm_append_right _).mpr behind.fewer
  · simp only [unkeyed_append]
    exact List.append_subset.mpr ⟨List.Subset.trans behind.known (List.subset_append_left _ _),
      List.subset_append_right _ _⟩

/-- Rows that look inserted have no key, for a taken key is not inserted again. -/
theorem skip (behind : Behind key redone applied) {rows : List Row}
    (made : Applied key redone (.insert rows)) (admits : Admits key applied rows) :
    (∀ row ∈ rows, key row = none) ∧ Behind key redone (applied ++ rows) := by
  have keyless : ∀ row ∈ rows, key row = none := by
    intro row member
    by_contra keyed
    obtain ⟨k, ofRow⟩ := Option.ne_none_iff_exists'.mp keyed
    have free := admits.2 k (List.mem_filterMap.mpr ⟨row, member, ofRow⟩)
    rw [withKey_eq_nil] at free
    exact free row ((behind.mem_iff row).mp (made row member)) ofRow
  refine ⟨keyless, fun k => ?_, ?_, ?_⟩
  · have none : withKey key k rows = [] :=
      withKey_eq_nil.mpr fun row member => by rw [keyless row member]; nofun
    rw [withKey_append, none, List.append_nil, behind.keyed k]
  · rw [unkeyed_append]
    exact behind.fewer.trans (List.sublist_append_left _ _).subperm
  · rw [unkeyed_append]
    refine List.append_subset.mpr ⟨behind.known, fun row member => ?_⟩
    have inside := mem_unkeyed.mp member
    exact mem_unkeyed.mpr ⟨made row inside.1, inside.2⟩

omit [DecidableEq Row] in
theorem admits_iff (behind : Behind key redone applied) (rows : List Row) :
    Admits key redone rows ↔ Admits key applied rows := by
  simp only [Admits, behind.keyed]

end Behind

theorem applied_insert_iff {redone applied rows : List Row} (behind : Behind key redone applied) :
    Applied key redone (.insert rows) ↔ Applied key applied (.insert rows) :=
  forall₂_congr fun row _ => behind.mem_iff row

/-- Redone behind applied rows, the changes never clash, and the rows come out
the same if and only if they do so now or after a replacement, and no insertion
behind the last replacement looks made. -/
theorem Behind.run {changes : List (Change Row Key)} {redone applied final : List Row}
    (behind : Behind key redone applied)
    (ran : Library.run (apply key) applied changes = .ok final) :
    ∃ rows, Library.run (redo key) redone changes = .ok rows ∧ Behind key rows final ∧
      (rows.Perm final ↔ (redone.Perm applied ∨ Resets changes) ∧
        NoneLooksMade key applied changes) := by
  induction changes generalizing redone applied with
  | nil =>
      cases ran
      exact ⟨redone, rfl, behind, by simp [Resets, NoneLooksMade]⟩
  | cons change rest ih =>
      cases change with
      | replace rows =>
          obtain ⟨out, redid, behind', same⟩ := ih (Behind.refl rows) ran
          refine ⟨out, redid, behind', same.trans ?_⟩
          simp [Resets, NoneLooksMade, apply, Change.Replaces]
      | delete keys =>
          obtain ⟨out, redid, behind', same⟩ := ih (behind.delete keys) ran
          refine ⟨out, ?_, behind', same.trans ?_⟩
          · simp only [Library.run, redo_delete, bind, Except.bind, redid]
          · have equal : (eraseKeys key keys redone).Perm (eraseKeys key keys applied) ↔
                redone.Perm applied := by
              rw [(behind.delete keys).perm_iff, behind.perm_iff, unkeyed_eraseKeys,
                unkeyed_eraseKeys]
            simp [Resets, NoneLooksMade, apply, Change.Replaces, equal]
      | insert rows =>
          simp only [Library.run, apply, bind, Except.bind] at ran
          cases inserted : insertRows key applied rows with
          | error row => rw [inserted] at ran; cases ran
          | ok next =>
              rw [inserted] at ran
              obtain ⟨rfl, admits⟩ := insertRows_ok.mp inserted
              have resets : Resets (.insert rows :: rest) ↔ Resets rest := by
                simp [Resets, Change.Replaces]
              by_cases made : Applied key redone (.insert rows)
              · obtain ⟨keyless, behind'⟩ := behind.skip made admits
                obtain ⟨out, redid, behind'', same⟩ := ih behind' ran
                refine ⟨out, ?_, behind'', same.trans ?_⟩
                · simp only [Library.run, redo, made, if_true, bind, Except.bind, redid]
                · have looks := (applied_insert_iff behind).mp made
                  have grown : redone.Perm (applied ++ rows) ↔ redone.Perm applied ∧ rows = [] := by
                    have all : unkeyed key rows = rows :=
                      List.filter_eq_self.mpr fun row member => by simp [keyless row member]
                    have fewer := behind.fewer.length_le
                    rw [behind'.perm_iff, behind.perm_iff, unkeyed_append, List.length_append, all,
                      ← List.length_eq_zero_iff]
                    omega
                  simp only [NoneLooksMade, apply, inserted, resets, grown]
                  tauto
              · have admits' := (behind.admits_iff rows).mpr admits
                have inserted' := insertRows_ok.mpr ⟨rfl, admits'⟩
                obtain ⟨out, redid, behind'', same⟩ := ih (behind.insert rows) ran
                refine ⟨out, ?_, behind'', same.trans ?_⟩
                · simp only [Library.run, redo, made, if_false, apply, inserted', bind, Except.bind,
                    redid]
                · have looks := fun looked => made ((applied_insert_iff behind).mpr looked)
                  have grown : (redone ++ rows).Perm (applied ++ rows) ↔ redone.Perm applied :=
                    List.perm_append_right_iff rows
                  simp only [NoneLooksMade, apply, inserted, resets, grown]
                  tauto

/-- Redone from the rows before the group, the changes never clash, and they lead
to the rows of the group if and only if none of its last insertions looks made. -/
theorem redo_before {changes : List (Change Row Key)} {before after : List Row}
    (ran : Library.run (apply key) before changes = .ok after) :
    ∃ rows, Library.run (redo key) before changes = .ok rows ∧
      (rows.Perm after ↔ NoneLooksMade key before changes) := by
  obtain ⟨rows, redid, _, same⟩ := (Behind.refl before).run ran
  exact ⟨rows, redid, by simpa using same⟩

/-! ### From any rows, with a replacement to come -/

/-- With a replacement in the group, only clashes before it matter: from it on the
redone rows are the applied ones. -/
theorem redo_reset {changes : List (Change Row Key)} {before after start : List Row}
    (ran : Library.run (apply key) before changes = .ok after) (resets : Resets changes) :
    (∃ rows, Library.run (redo key) start changes = .ok rows ∧ rows.Perm after) ↔
      Settles key start changes ∧ NoneLooksMade key before changes := by
  induction changes generalizing before start with
  | nil => obtain ⟨_, member, _⟩ := resets; cases member
  | cons change rest ih =>
      cases change with
      | replace rows =>
          obtain ⟨out, redid, _, same⟩ := (Behind.refl rows).run ran
          have run : Library.run (redo key) start (.replace rows :: rest) = .ok out := redid
          simp only [run, Settles, NoneLooksMade, apply, Except.ok.injEq, exists_eq_left']
          simpa using same
      | delete keys =>
          have resets' : Resets rest := by simpa [Resets, Change.Replaces] using resets
          have later := @ih _ (eraseKeys key keys start) ran resets'
          simp only [Library.run, redo_delete, bind, Except.bind, Settles, NoneLooksMade, apply,
            true_and]
          exact later
      | insert rows =>
          have resets' : Resets rest := by simpa [Resets, Change.Replaces] using resets
          simp only [Library.run, apply, bind, Except.bind] at ran
          cases inserted : insertRows key before rows with
          | error row => rw [inserted] at ran; cases ran
          | ok next =>
              rw [inserted] at ran
              have later := fun start => @ih _ start ran resets'
              simp only [NoneLooksMade, apply, inserted, resets', or_true, true_and]
              rw [Settles]
              by_cases made : Applied key start (.insert rows)
              · simp only [Library.run, redo, made, if_true, bind, Except.bind]
                exact later start
              · by_cases admits : Admits key start rows
                · have inserted' := insertRows_ok.mpr ⟨rfl, admits⟩
                  simp only [Library.run, redo, made, if_false, apply, inserted', bind, Except.bind,
                    admits, resets', true_or, true_and]
                  exact later (start ++ rows)
                · cases clash : insertRows key start rows with
                  | ok out => exact absurd (insertRows_ok.mp clash).2 admits
                  | error row =>
                      simp [Library.run, redo, made, apply, clash, bind, Except.bind, admits]

/-! ### From any rows, without a replacement -/

namespace Change

def Deletes (k : Key) : Change Row Key → Prop
  | delete keys => k ∈ keys
  | insert _ | replace _ => False

def Mentions (key : Row → Option Key) (k : Key) : Change Row Key → Prop
  | insert rows => k ∈ rows.filterMap key
  | delete keys => k ∈ keys
  | replace _ => False

end Change

/-- The rows with a key that redo starts from: at most one where the group starts
or ends without the key, and the deletions of the group reach all of them. -/
structure Near (key : Row → Option Key) (k : Key) (changes : List (Change Row Key))
    (start before after : List Row) : Prop where
  single : withKey key k before = [] ∨ withKey key k after = [] → (withKey key k start).length ≤ 1
  double : (∃ change ∈ changes, change.Deletes k) → (withKey key k start).length ≤ 2
  unique : (∃ change ∈ changes, change.Deletes k) → (withKey key k before).length ≤ 1

section Replaceless

variable {k : Key}

omit [DecidableEq Row] in
theorem withKey_singleton {rows : List Row} (distinct : (rows.filterMap key).Nodup)
    (member : k ∈ rows.filterMap key) : ∃ row ∈ rows, withKey key k rows = [row] := by
  induction rows with
  | nil => cases member
  | cons row rest ih =>
      cases ofRow : key row with
      | none =>
          rw [List.filterMap_cons_none ofRow] at distinct member
          obtain ⟨found, inside, only⟩ := ih distinct member
          refine ⟨found, List.mem_cons_of_mem _ inside, ?_⟩
          rw [withKey, List.filter_cons_of_neg (by simp [ofRow])]
          exact only
      | some other =>
          rw [List.filterMap_cons_some ofRow] at distinct member
          obtain ⟨different, distinct⟩ := List.nodup_cons.mp distinct
          by_cases same : other = k
          · subst same
            refine ⟨row, List.mem_cons_self, ?_⟩
            rw [withKey, List.filter_cons_of_pos (by simp [ofRow]), List.cons.injEq]
            refine ⟨rfl, withKey_eq_nil.mpr fun another inside ofAnother => different ?_⟩
            exact List.mem_filterMap.mpr ⟨another, inside, ofAnother⟩
          · obtain ⟨found, inside, only⟩ :=
              ih distinct ((List.mem_cons.mp member).resolve_left fun equal => same equal.symm)
            refine ⟨found, List.mem_cons_of_mem _ inside, ?_⟩
            rw [withKey, List.filter_cons_of_neg (by simp [ofRow, same])]
            exact only

omit [DecidableEq Row] in
theorem withKey_unmentioned {rows : List Row} (absent : k ∉ rows.filterMap key) :
    withKey key k rows = [] :=
  withKey_eq_nil.mpr fun row member ofRow => absent (List.mem_filterMap.mpr ⟨row, member, ofRow⟩)

/-- What one redone insertion does to the rows with one of its keys. -/
theorem redo_insert_withKey {start next rows : List Row}
    (redid : redo key start (.insert rows) = .ok next) (distinct : (rows.filterMap key).Nodup)
    (few : (withKey key k start).length ≤ 1) (member : k ∈ rows.filterMap key) :
    withKey key k next = withKey key k rows := by
  obtain ⟨row, inside, only⟩ := withKey_singleton distinct member
  have ofRow : key row = some k := by
    have among : row ∈ withKey key k rows := by rw [only]; exact List.mem_singleton_self _
    exact (mem_withKey.mp among).2
  rw [redo] at redid
  by_cases made : Applied key start (.insert rows)
  · rw [if_pos made] at redid
    cases redid
    have present : row ∈ withKey key k start := mem_withKey.mpr ⟨made row inside, ofRow⟩
    obtain ⟨other, alone⟩ := List.length_eq_one_iff.mp
      (Nat.le_antisymm few (List.length_pos_of_mem present))
    rw [alone] at present
    rw [alone, only, List.mem_singleton.mp present]
  · rw [if_neg made] at redid
    obtain ⟨rfl, admits⟩ := insertRows_ok.mp redid
    rw [withKey_append, admits.2 k member, List.nil_append]

theorem redo_insert_unmentioned {start next rows : List Row}
    (redid : redo key start (.insert rows) = .ok next) (absent : k ∉ rows.filterMap key) :
    withKey key k next = withKey key k start := by
  rw [redo] at redid
  by_cases made : Applied key start (.insert rows)
  · rw [if_pos made] at redid
    cases redid
    rfl
  · rw [if_neg made] at redid
    obtain ⟨rfl, _⟩ := insertRows_ok.mp redid
    rw [withKey_append, withKey_unmentioned absent, List.append_nil]

omit [DecidableEq Row] in
/-- Keys that the group does not mention keep their rows. -/
theorem apply_unmentioned {changes : List (Change Row Key)} {before after : List Row}
    (noReset : ¬Resets changes) (ran : Library.run (apply key) before changes = .ok after)
    (unmentioned : ¬∃ change ∈ changes, change.Mentions key k) :
    withKey key k after = withKey key k before := by
  induction changes generalizing before with
  | nil => cases ran; rfl
  | cons change rest ih =>
      have noReset' : ¬Resets rest := by
        rintro ⟨later, member, replaces⟩
        exact noReset ⟨later, List.mem_cons_of_mem _ member, replaces⟩
      simp only [List.mem_cons, exists_eq_or_imp, not_or] at unmentioned
      simp only [Library.run, bind, Except.bind] at ran
      cases change with
      | replace others => exact absurd ⟨_, List.mem_cons_self, trivial⟩ noReset
      | delete keys =>
          have untargeted : k ∉ keys := unmentioned.1
          rw [ih noReset' ran unmentioned.2, withKey_eraseKeys, if_neg untargeted]
      | insert others =>
          cases inserted : insertRows key before others with
          | error row => simp only [apply, inserted] at ran; cases ran
          | ok next =>
              simp only [apply, inserted] at ran
              obtain ⟨rfl, _⟩ := insertRows_ok.mp inserted
              rw [ih noReset' ran unmentioned.2, withKey_append, withKey_unmentioned unmentioned.1,
                List.append_nil]

/-- The last change that mentions a key decides: behind it the redone rows with
that key are those of the group. Other keys keep their rows. -/
theorem redo_withKey {changes : List (Change Row Key)} {start before rows after : List Row}
    (noReset : ¬Resets changes)
    (ran : Library.run (apply key) before changes = .ok after)
    (redid : Library.run (redo key) start changes = .ok rows)
    (near : Near key k changes start before after) :
    ((∃ change ∈ changes, change.Mentions key k) → withKey key k rows = withKey key k after) ∧
      ((¬∃ change ∈ changes, change.Mentions key k) →
        withKey key k rows = withKey key k start) := by
  induction changes generalizing start before with
  | nil =>
      cases ran
      cases redid
      constructor
      · rintro ⟨_, member, _⟩
        cases member
      · intro _
        rfl
  | cons change rest ih =>
      have noReset' : ¬Resets rest := by
        rintro ⟨later, member, replaces⟩
        exact noReset ⟨later, List.mem_cons_of_mem _ member, replaces⟩
      simp only [Library.run, bind, Except.bind] at ran redid
      cases change with
      | replace others => exact absurd ⟨_, List.mem_cons_self, trivial⟩ noReset
      | delete keys =>
          rw [redo_delete] at redid
          simp only [apply] at ran
          have mine := @withKey_eraseKeys _ _ key _ k keys
          by_cases targeted : k ∈ keys
          · have deletes : ∃ change ∈ Change.delete keys :: rest, change.Deletes k :=
              ⟨_, List.mem_cons_self, targeted⟩
            have double := near.double deletes
            have unique := near.unique deletes
            simp only [targeted, if_true] at mine
            have gone : withKey key k (eraseKeys key keys before) = [] := by
              rw [mine, ← List.length_eq_zero_iff, List.length_tail]; omega
            have near' : Near key k rest (eraseKeys key keys start) (eraseKeys key keys before)
                after := by
              refine ⟨fun _ => ?_, fun _ => ?_, fun _ => ?_⟩
              · rw [mine, List.length_tail]; omega
              · rw [mine, List.length_tail]; omega
              · rw [gone]; exact Nat.zero_le _
            have later := ih noReset' ran redid near'
            refine ⟨fun _ => ?_, fun unmentioned =>
              absurd ⟨_, List.mem_cons_self, targeted⟩ unmentioned⟩
            by_cases again : ∃ change ∈ rest, change.Mentions key k
            · exact later.1 again
            · have ended := apply_unmentioned noReset' ran again
              rw [gone] at ended
              have single := near.single (.inr ended)
              rw [later.2 again, ended, mine, ← List.length_eq_zero_iff, List.length_tail]
              omega
          · simp only [targeted, if_false] at mine
            have mentions : (∃ change ∈ Change.delete keys :: rest, change.Mentions key k) ↔
                ∃ change ∈ rest, change.Mentions key k := by simp [Change.Mentions, targeted]
            have near' : Near key k rest (eraseKeys key keys start) (eraseKeys key keys before)
                after := by
              have more : (∃ change ∈ rest, change.Deletes k) →
                  ∃ change ∈ Change.delete keys :: rest, change.Deletes k := by
                rintro ⟨later, member, deletes⟩
                exact ⟨later, List.mem_cons_of_mem _ member, deletes⟩
              refine ⟨?_, ?_, ?_⟩
              · rw [mine, mine]; exact near.single
              · rw [mine]; exact fun deletes => near.double (more deletes)
              · rw [mine]; exact fun deletes => near.unique (more deletes)
            have later := ih noReset' ran redid near'
            rwa [mine, ← mentions] at later
      | insert others =>
          cases inserted : insertRows key before others with
          | error row => simp only [apply, inserted] at ran; cases ran
          | ok next =>
              simp only [apply, inserted] at ran
              obtain ⟨rfl, distinct, free⟩ := insertRows_ok.mp inserted
              cases step : redo key start (.insert others) with
              | error row => rw [step] at redid; cases redid
              | ok reached =>
                  rw [step] at redid
                  have more : (∃ change ∈ rest, change.Deletes k) →
                      ∃ change ∈ Change.insert others :: rest, change.Deletes k := by
                    rintro ⟨later, member, deletes⟩
                    exact ⟨later, List.mem_cons_of_mem _ member, deletes⟩
                  by_cases mine : k ∈ others.filterMap key
                  · have few := near.single (.inl (free k mine))
                    have here := redo_insert_withKey step distinct few mine
                    have there : withKey key k (before ++ others) = withKey key k others := by
                      rw [withKey_append, free k mine, List.nil_append]
                    obtain ⟨row, _, only⟩ := withKey_singleton distinct mine
                    have near' : Near key k rest reached (before ++ others) after := by
                      rw [only] at here there
                      refine ⟨fun _ => ?_, fun _ => ?_, fun _ => ?_⟩
                      · rw [here]; exact Nat.le_refl 1
                      · rw [here]; exact Nat.le_succ 1
                      · rw [there]; exact Nat.le_refl 1
                    have later := ih noReset' ran redid near'
                    refine ⟨fun _ => ?_, fun unmentioned =>
                      absurd ⟨_, List.mem_cons_self, mine⟩ unmentioned⟩
                    by_cases again : ∃ change ∈ rest, change.Mentions key k
                    · exact later.1 again
                    · rw [later.2 again, apply_unmentioned noReset' ran again, here, there]
                  · have here := redo_insert_unmentioned step mine
                    have there : withKey key k (before ++ others) = withKey key k before := by
                      rw [withKey_append, withKey_unmentioned mine, List.append_nil]
                    have mentions : (∃ change ∈ Change.insert others :: rest, change.Mentions key k) ↔
                        ∃ change ∈ rest, change.Mentions key k := by
                      simp only [List.mem_cons, exists_eq_or_imp, Change.Mentions, mine, false_or]
                    have near' : Near key k rest reached (before ++ others) after := by
                      refine ⟨?_, ?_, ?_⟩
                      · rw [here, there]; exact near.single
                      · rw [here]; exact fun deletes => near.double (more deletes)
                      · rw [there]; exact fun deletes => near.unique (more deletes)
                    have later := ih noReset' ran redid near'
                    rwa [here, ← mentions] at later

/-- Redo only adds rows without a key, and adds none exactly if it settles. -/
theorem redo_unkeyed {changes : List (Change Row Key)} {start rows : List Row}
    (noReset : ¬Resets changes)
    (redid : Library.run (redo key) start changes = .ok rows) :
    (unkeyed key start).length ≤ (unkeyed key rows).length ∧
      ((unkeyed key rows).length ≤ (unkeyed key start).length → Settles key start changes) := by
  induction changes generalizing start with
  | nil =>
      cases redid
      exact ⟨Nat.le_refl _, fun _ => trivial⟩
  | cons change rest ih =>
      have noReset' : ¬Resets rest := by
        rintro ⟨later, member, replaces⟩
        exact noReset ⟨later, List.mem_cons_of_mem _ member, replaces⟩
      simp only [Library.run, bind, Except.bind] at redid
      cases change with
      | replace others => exact absurd ⟨_, List.mem_cons_self, trivial⟩ noReset
      | delete keys =>
          rw [redo_delete] at redid
          have later := ih noReset' redid
          rwa [unkeyed_eraseKeys] at later
      | insert others =>
          rw [redo] at redid
          rw [Settles]
          by_cases made : Applied key start (.insert others)
          · simp only [made, if_true] at redid ⊢
            exact ih noReset' redid
          · simp only [made, if_false, apply] at redid ⊢
            cases inserted : insertRows key start others with
            | error row => rw [inserted] at redid; cases redid
            | ok next =>
                rw [inserted] at redid
                obtain ⟨rfl, admits⟩ := insertRows_ok.mp inserted
                obtain ⟨grows, settles⟩ := ih noReset' redid
                rw [unkeyed_append, List.length_append] at grows settles
                refine ⟨by omega, fun same => ⟨admits, .inr fun row member ofRow => ?_,
                  settles (by omega)⟩⟩
                have inside : row ∈ unkeyed key others := mem_unkeyed.mpr ⟨member, ofRow⟩
                have some := List.length_pos_of_mem inside
                omega

theorem settles_runs {changes : List (Change Row Key)} {start : List Row}
    (noReset : ¬Resets changes) (settles : Settles key start changes) :
    ∃ rows, Library.run (redo key) start changes = .ok rows ∧
      unkeyed key rows = unkeyed key start := by
  induction changes generalizing start with
  | nil => exact ⟨start, rfl, rfl⟩
  | cons change rest ih =>
      have noReset' : ¬Resets rest := by
        rintro ⟨later, member, replaces⟩
        exact noReset ⟨later, List.mem_cons_of_mem _ member, replaces⟩
      cases change with
      | replace others => exact absurd ⟨_, List.mem_cons_self, trivial⟩ noReset
      | delete keys =>
          obtain ⟨rows, redid, kept⟩ := ih noReset' settles
          rw [unkeyed_eraseKeys] at kept
          exact ⟨rows, by simp only [Library.run, redo_delete, bind, Except.bind, redid], kept⟩
      | insert others =>
          rw [Settles] at settles
          by_cases made : Applied key start (.insert others)
          · rw [if_pos made] at settles
            obtain ⟨rows, redid, kept⟩ := ih noReset' settles
            exact ⟨rows, by simp only [Library.run, redo, made, if_true, bind, Except.bind, redid],
              kept⟩
          · rw [if_neg made] at settles
            obtain ⟨admits, keyed, later⟩ := settles
            have inserted := insertRows_ok.mpr ⟨rfl, admits⟩
            have none : unkeyed key others = [] := by
              refine List.filter_eq_nil_iff.mpr fun row member isNone => ?_
              exact keyed.resolve_left noReset' row member (Option.isNone_iff_eq_none.mp isNone)
            obtain ⟨rows, redid, kept⟩ := ih noReset' later
            rw [unkeyed_append, none, List.append_nil] at kept
            refine ⟨rows, ?_, kept⟩
            simp only [Library.run, redo, made, if_false, apply, inserted, bind, Except.bind, redid]

/-- Redone from rows near the group, the changes lead to its rows if and only if
every insertion finds all its rows present, or none of their keys taken and all
of them keyed. -/
theorem redo_near {changes : List (Change Row Key)} {start before after : List Row}
    (noReset : ¬Resets changes) (ran : Library.run (apply key) before changes = .ok after)
    (near : ∀ k, Near key k changes start before after)
    (others : ∀ k, (¬∃ change ∈ changes, change.Mentions key k) →
      (withKey key k start).Perm (withKey key k before))
    (keyless : (unkeyed key start).Perm (unkeyed key after)) :
    (∃ rows, Library.run (redo key) start changes = .ok rows ∧ rows.Perm after) ↔
      Settles key start changes := by
  constructor
  · rintro ⟨rows, redid, same⟩
    refine (redo_unkeyed noReset redid).2 ?_
    rw [keyless.length_eq]
    exact Nat.le_of_eq (same.filter _).length_eq
  · intro settles
    obtain ⟨rows, redid, kept⟩ := settles_runs noReset settles
    refine ⟨rows, redid, perm_of_parts (by rwa [kept]) fun k => ?_⟩
    obtain ⟨mentioned, unmentioned⟩ := redo_withKey noReset ran redid (near k)
    by_cases mentions : ∃ change ∈ changes, change.Mentions key k
    · rw [mentioned mentions]
    · rw [unmentioned mentions, apply_unmentioned noReset ran mentions]
      exact others k mentions

omit [DecidableEq Row] in
/-- A key with at most one row keeps at most one. -/
theorem apply_single {changes : List (Change Row Key)} {before after : List Row}
    (noReset : ¬Resets changes) (ran : Library.run (apply key) before changes = .ok after)
    (single : (withKey key k before).length ≤ 1) : (withKey key k after).length ≤ 1 := by
  induction changes generalizing before with
  | nil => cases ran; exact single
  | cons change rest ih =>
      have noReset' : ¬Resets rest := by
        rintro ⟨later, member, replaces⟩
        exact noReset ⟨later, List.mem_cons_of_mem _ member, replaces⟩
      simp only [Library.run, bind, Except.bind] at ran
      cases change with
      | replace others => exact absurd ⟨_, List.mem_cons_self, trivial⟩ noReset
      | delete keys =>
          refine ih noReset' ran ?_
          rw [withKey_eraseKeys]
          split
          · rw [List.length_tail]; omega
          · exact single
      | insert others =>
          cases inserted : insertRows key before others with
          | error row => simp only [apply, inserted] at ran; cases ran
          | ok next =>
              simp only [apply, inserted] at ran
              obtain ⟨rfl, distinct, free⟩ := insertRows_ok.mp inserted
              refine ih noReset' ran ?_
              rw [withKey_append]
              by_cases mine : k ∈ others.filterMap key
              · obtain ⟨row, _, only⟩ := withKey_singleton distinct mine
                rw [free k mine, only]
                exact Nat.le_refl 1
              · rw [withKey_unmentioned mine, List.append_nil]
                exact single

end Replaceless

/-- Redoing a group whose deletions meet at most one row a key leads to its rows,
both from the rows before it and from its own rows, if and only if none of its
last insertions looks made at first and all of them settle the second time. -/
theorem redo_both {changes : List (Change Row Key)} {before after : List Row}
    (ran : Library.run (apply key) before changes = .ok after)
    (unique : ∀ k, (∃ change ∈ changes, change.Deletes k) → (withKey key k before).length ≤ 1) :
    ((∃ rows, Library.run (redo key) before changes = .ok rows ∧ rows.Perm after) ∧
        ∃ rows, Library.run (redo key) after changes = .ok rows ∧ rows.Perm after) ↔
      NoneLooksMade key before changes ∧ Settles key after changes := by
  have first : (∃ rows, Library.run (redo key) before changes = .ok rows ∧ rows.Perm after) ↔
      NoneLooksMade key before changes := by
    obtain ⟨rows, redid, same⟩ := redo_before ran
    constructor
    · rintro ⟨other, redid', same'⟩
      obtain rfl := Except.ok.inj (redid.symm.trans redid')
      exact same.mp same'
    · exact fun fresh => ⟨rows, redid, same.mpr fresh⟩
  by_cases resets : Resets changes
  · rw [first, redo_reset ran resets]
    tauto
  · have near : ∀ k, Near key k changes after before after := by
      intro k
      refine ⟨fun ends => ?_, fun deletes => ?_, unique k⟩
      · rcases ends with starts | ends
        · exact apply_single resets ran (by rw [starts]; exact Nat.zero_le _)
        · rw [ends]; exact Nat.zero_le _
      · exact Nat.le_succ_of_le (apply_single resets ran (unique k deletes))
    have kept : ∀ k, (¬∃ change ∈ changes, change.Mentions key k) →
        (withKey key k after).Perm (withKey key k before) := fun k unmentioned => by
      rw [apply_unmentioned resets ran unmentioned]
    rw [first, redo_near resets ran near kept (List.Perm.refl _)]

end Library.GuardedRedo
