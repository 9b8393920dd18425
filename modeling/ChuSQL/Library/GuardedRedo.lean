import ChuSQL.Library.Components

/-! Redo of changes to keyed rows. Some rows have a key, and a row is not inserted
while its key is taken. A change is redone unless the rows at hand look as if it
had been made already; the test sees the rows only, so equal rows without a key
and keys that come back later can mislead it. -/

set_option autoImplicit false

namespace Library.GuardedRedo

inductive Change (Row Key : Type) where
  | insert (rows : List Row)
  | delete (keys : List Key)
  | replace (rows : List Row)

namespace Change

variable {Row Key : Type}

def Replaces : Change Row Key → Prop
  | replace _ => True
  | insert _ | delete _ => False

instance : (change : Change Row Key) → Decidable change.Replaces
  | replace _ => .isTrue trivial
  | insert _ | delete _ => .isFalse id

/-- Rows that the change writes. -/
def rows : Change Row Key → List Row
  | insert rows | replace rows => rows
  | delete _ => []

end Change

variable {Row Key : Type} (key : Row → Option Key)

def unkeyed (rows : List Row) : List Row := rows.filter fun row => (key row).isNone

variable [DecidableEq Key]

def withKey (k : Key) (rows : List Row) : List Row := rows.filter fun row => key row = some k

/-- A row whose key is taken is an error. -/
def insertRows : List Row → List Row → Except Row (List Row)
  | stored, [] => .ok stored
  | stored, row :: rest =>
      if ∃ k ∈ key row, withKey key k stored ≠ [] then .error row
      else insertRows (stored ++ [row]) rest

/-- The first row of each of the keys is taken out. -/
def eraseKeys : List Key → List Row → List Row
  | _, [] => []
  | keys, row :: rest =>
      match key row with
      | none => row :: eraseKeys keys rest
      | some k =>
          if k ∈ keys then eraseKeys (keys.filter (· ≠ k)) rest
          else row :: eraseKeys keys rest

def apply (stored : List Row) : Change Row Key → Except Row (List Row)
  | .insert rows => insertRows key stored rows
  | .delete keys => .ok (eraseKeys key keys stored)
  | .replace rows => .ok rows

/-- Does the change look made? -/
def Applied (stored : List Row) : Change Row Key → Prop
  | .insert rows => ∀ row ∈ rows, row ∈ stored
  | .delete keys => ∀ row ∈ stored, ∀ k ∈ key row, k ∉ keys
  | .replace _ => False

instance [DecidableEq Row] (stored : List Row) : (change : Change Row Key) → Decidable (Applied key stored change)
  | .insert rows => inferInstanceAs (Decidable (∀ row ∈ rows, row ∈ stored))
  | .delete keys => inferInstanceAs (Decidable (∀ row ∈ stored, ∀ k ∈ key row, k ∉ keys))
  | .replace _ => .isFalse id

def redo [DecidableEq Row] (stored : List Row) (change : Change Row Key) : Except Row (List Row) :=
  if Applied key stored change then .ok stored else apply key stored change

/-! ### Rows by key -/

@[simp] theorem withKey_append (k : Key) (first second : List Row) :
    withKey key k (first ++ second) = withKey key k first ++ withKey key k second :=
  List.filter_append _ _

omit [DecidableEq Key] in
@[simp] theorem unkeyed_append (first second : List Row) :
    unkeyed key (first ++ second) = unkeyed key first ++ unkeyed key second :=
  List.filter_append _ _

variable {key}

theorem mem_withKey {k : Key} {row : Row} {rows : List Row} :
    row ∈ withKey key k rows ↔ row ∈ rows ∧ key row = some k := by
  simp [withKey]

omit [DecidableEq Key] in
theorem mem_unkeyed {row : Row} {rows : List Row} :
    row ∈ unkeyed key rows ↔ row ∈ rows ∧ key row = none := by
  simp [unkeyed]

/-- Rows agree when they agree key by key and without a key. -/
theorem perm_of_parts [DecidableEq Row] {first second : List Row} (keyless : (unkeyed key first).Perm (unkeyed key second))
    (keyed : ∀ k, (withKey key k first).Perm (withKey key k second)) : first.Perm second := by
  rw [List.perm_iff_count]
  intro row
  cases ofRow : key row with
  | none =>
      have same := keyless.count_eq row
      rwa [unkeyed, unkeyed, List.count_filter (by simp [ofRow]),
        List.count_filter (by simp [ofRow])] at same
  | some k =>
      have same := (keyed k).count_eq row
      rwa [withKey, withKey, List.count_filter (by simp [ofRow]),
        List.count_filter (by simp [ofRow])] at same

/-- The keys of new rows are all different and none is taken. -/
def Admits (key : Row → Option Key) (stored rows : List Row) : Prop :=
  (rows.filterMap key).Nodup ∧ ∀ k ∈ rows.filterMap key, withKey key k stored = []

theorem insertRows_ok {stored rows result : List Row} :
    insertRows key stored rows = .ok result ↔ result = stored ++ rows ∧ Admits key stored rows := by
  induction rows generalizing stored with
  | nil =>
      have free : Admits key stored [] := ⟨List.nodup_nil, nofun⟩
      simp only [insertRows, Except.ok.injEq, List.append_nil, free, and_true]
      exact eq_comm
  | cons row rest ih =>
      rw [insertRows]
      cases ofRow : key row with
      | none =>
          have free : ¬∃ k ∈ (none : Option Key), withKey key k stored ≠ [] := by simp
          have alone : ∀ k, withKey key k [row] = [] := fun k => by simp [withKey, ofRow]
          rw [if_neg free, ih]
          simp [Admits, ofRow, alone]
      | some k =>
          by_cases taken : withKey key k stored = []
          · have free : ¬∃ other ∈ some k, withKey key other stored ≠ [] := by simp [taken]
            have alone : ∀ other, withKey key other [row] = [] ↔ k ≠ other := fun other => by
              simp [withKey, ofRow]
            rw [if_neg free, ih]
            simp only [Admits, List.filterMap_cons_some ofRow, List.nodup_cons, List.forall_mem_cons,
              withKey_append, List.append_eq_nil_iff, alone, List.append_assoc, List.cons_append,
              List.nil_append, taken, true_and]
            constructor
            · rintro ⟨equal, distinct, apart⟩
              exact ⟨equal, ⟨fun member => (apart k member).2 rfl, distinct⟩,
                fun other member => (apart other member).1⟩
            · rintro ⟨equal, ⟨different, distinct⟩, apart⟩
              exact ⟨equal, distinct, fun other member =>
                ⟨apart other member, fun same => different (same ▸ member)⟩⟩
          · rw [if_pos ⟨k, rfl, taken⟩]
            simp [Admits, List.filterMap_cons_some ofRow, taken]

theorem withKey_eraseKeys (k : Key) (keys : List Key) (rows : List Row) :
    withKey key k (eraseKeys key keys rows) =
      if k ∈ keys then (withKey key k rows).tail else withKey key k rows := by
  induction rows generalizing keys with
  | nil => simp [eraseKeys, withKey]
  | cons row rest ih =>
      rw [eraseKeys]
      cases ofRow : key row with
      | none =>
          have skip : ∀ others, withKey key k (row :: others) = withKey key k others := fun others =>
            List.filter_cons_of_neg (by simp [ofRow])
          simp only [skip, ih]
      | some other =>
          by_cases same : other = k
          · subst same
            have keep : ∀ others, withKey key other (row :: others) =
                row :: withKey key other others := fun others =>
              List.filter_cons_of_pos (by simp [ofRow])
            by_cases targeted : other ∈ keys
            · simp [targeted, ih, keep]
            · simp [targeted, ih, keep]
          · have skip : ∀ others, withKey key k (row :: others) = withKey key k others := fun others =>
              List.filter_cons_of_neg (by simp [ofRow, same])
            have different : k ≠ other := fun equal => same equal.symm
            by_cases targeted : other ∈ keys
            · simp [targeted, ih, skip, different]
            · simp [targeted, ih, skip]

theorem unkeyed_eraseKeys (keys : List Key) (rows : List Row) :
    unkeyed key (eraseKeys key keys rows) = unkeyed key rows := by
  induction rows generalizing keys with
  | nil => rfl
  | cons row rest ih =>
      rw [eraseKeys]
      cases ofRow : key row with
      | none =>
          have keep : ∀ others, unkeyed key (row :: others) = row :: unkeyed key others :=
            fun others => List.filter_cons_of_pos (by simp [ofRow])
          simp only [keep, ih]
      | some k =>
          have skip : ∀ others, unkeyed key (row :: others) = unkeyed key others :=
            fun others => List.filter_cons_of_neg (by simp [ofRow])
          by_cases targeted : k ∈ keys
          · simp [targeted, ih, skip]
          · simp [targeted, ih, skip]

theorem eraseKeys_sublist (keys : List Key) (rows : List Row) :
    (eraseKeys key keys rows).Sublist rows := by
  induction rows generalizing keys with
  | nil => exact List.Sublist.refl _
  | cons row rest ih =>
      rw [eraseKeys]
      cases key row with
      | none => exact (ih keys).cons_cons row
      | some k =>
          by_cases targeted : k ∈ keys
          · simpa only [targeted, if_true] using (ih _).cons row
          · simpa only [targeted, if_false] using (ih keys).cons_cons row

theorem withKey_eq_nil {k : Key} {rows : List Row} :
    withKey key k rows = [] ↔ ∀ row ∈ rows, key row ≠ some k := by
  simp [withKey, List.filter_eq_nil_iff]

/-- Rows come from before or from the change. -/
theorem apply_mem {stored next : List Row} {change : Change Row Key} {row : Row}
    (changed : apply key stored change = .ok next) (member : row ∈ next) :
    row ∈ stored ∨ row ∈ change.rows := by
  cases change with
  | insert rows =>
      obtain ⟨rfl, _⟩ := insertRows_ok.mp changed
      exact List.mem_append.mp member
  | delete keys =>
      cases changed
      exact .inl ((eraseKeys_sublist _ _).subset member)
  | replace rows =>
      cases changed
      exact .inr member

theorem run_apply_mem {changes : List (Change Row Key)} {stored final : List Row} {row : Row}
    (ran : Library.run (apply key) stored changes = .ok final) (member : row ∈ final) :
    row ∈ stored ∨ ∃ change ∈ changes, row ∈ change.rows := by
  induction changes generalizing stored with
  | nil => cases ran; exact .inl member
  | cons change rest ih =>
      simp only [Library.run, bind, Except.bind] at ran
      cases changed : apply key stored change with
      | error error => rw [changed] at ran; cases ran
      | ok next =>
          rw [changed] at ran
          rcases ih ran with here | ⟨later, inside, written⟩
          · rcases apply_mem changed here with before | written
            · exact .inl before
            · exact .inr ⟨change, List.mem_cons_self, written⟩
          · exact .inr ⟨later, List.mem_cons_of_mem _ inside, written⟩

/-- A deletion that looks made changes nothing. -/
theorem eraseKeys_of_applied {keys : List Key} {rows : List Row}
    (made : Applied key rows (.delete keys)) : eraseKeys key keys rows = rows := by
  induction rows with
  | nil => rfl
  | cons row rest ih =>
      have later := ih fun other member => made other (List.mem_cons_of_mem _ member)
      rw [eraseKeys]
      cases ofRow : key row with
      | none => simp only [later]
      | some k =>
          have untargeted : k ∉ keys := made row List.mem_cons_self k ofRow
          simp only [untargeted, if_false, later]

end Library.GuardedRedo
