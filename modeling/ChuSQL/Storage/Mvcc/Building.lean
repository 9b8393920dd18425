import ChuSQL.Storage.Mvcc.Matching

/-! Publishing one table: earlier snapshots keep what they see, and unless the table is
marked as changed its latest values stay as they were. -/

set_option autoImplicit false

namespace ChuSQL.Storage.Mvcc

open Library

abbrev Rows := SortedMap Nat (List Version)

/-- The version of a row that a snapshot sees. -/
def shownRow (rows : Rows) (id point : Nat) : Option Version := (rows.get id).bind (shownAt · point)

/-- The values a row has now. -/
def latestRow (rows : Rows) (id : Nat) : Option Row := ((rows.get id).bind latest).map (·.row)

def RowsSound (csn nextRow : Nat) (rows : Rows) : Prop :=
  ∀ id chain, rows.get id = some chain → id ≤ nextRow ∧ ChainSound csn chain

theorem shownRow_insert (rows : Rows) (id : Nat) (chain : List Version) (other point : Nat) :
    shownRow (rows.insert id chain) other point =
      if other = id then shownAt chain point else shownRow rows other point := by
  rw [shownRow, SortedMap.get_insert]
  split
  · rfl
  · rfl

theorem latestRow_insert (rows : Rows) (id : Nat) (chain : List Version) (other : Nat) :
    latestRow (rows.insert id chain) other =
      if other = id then (latest chain).map (·.row) else latestRow rows other := by
  rw [latestRow, SortedMap.get_insert]
  split
  · rfl
  · rfl

theorem RowsSound.insert {csn nextRow later : Nat} {rows : Rows} {id : Nat} {chain : List Version}
    (sound : RowsSound csn nextRow rows) (counted : id ≤ later) (forward : nextRow ≤ later)
    (chainSound : ChainSound csn chain) : RowsSound csn later (rows.insert id chain) := by
  intro other found at_
  rw [SortedMap.get_insert] at at_
  split at at_
  · rename_i same
    cases at_
    exact ⟨same ▸ counted, chainSound⟩
  · obtain ⟨below, sound⟩ := sound other found at_
    exact ⟨below.trans forward, sound⟩

/-- What holds while the rows of a table are published at `csn` over the rows `start`, of
which `old` is what was visible at `seenAt`. -/
structure Building (csn seenAt : Nat) (start : Rows) (old : List (Nat × Version))
    (touched : List Nat) (publishing : Publishing) : Prop where
  sound : RowsSound csn publishing.nextRow publishing.rows
  untouched : ∀ entry ∈ old, entry.1 ∉ touched → publishing.rows.get entry.1 = start.get entry.1
  stable : ∀ id point, point ≤ seenAt → point < csn →
    shownRow publishing.rows id point = shownRow start id point
  unchanged : publishing.changed = false →
    (∀ entry ∈ old, latestRow start entry.1 = some entry.2.row) →
    ∀ id, latestRow publishing.rows id = latestRow start id

section Steps

variable {csn seenAt : Nat} {start : Rows} {old : List (Nat × Version)} {touched : List Nat}
  {publishing : Publishing}

/-- The chain of a row not touched so far is seen at the start of the publication. -/
theorem Building.chain (building : Building csn seenAt start old touched publishing)
    (seen : ∀ entry ∈ old, (start.get entry.1).bind (chainAt · seenAt) = some entry.2)
    {id : Nat} {version : Version} (member : (id, version) ∈ old) (free : id ∉ touched) :
    ∃ chain, publishing.rows.get id = some chain ∧ start.get id = some chain ∧
      chainAt chain seenAt = some version ∧ id ≤ publishing.nextRow ∧ ChainSound csn chain := by
  obtain ⟨chain, found, at_⟩ := Option.bind_eq_some_iff.mp (seen _ member)
  have same := building.untouched _ member free
  have here : publishing.rows.get id = some chain := same.trans found
  obtain ⟨counted, sound⟩ := building.sound id chain here
  exact ⟨chain, here, found, at_, counted, sound⟩

/-- A row is given a new chain that snapshots before `csn` see as the old one. -/
theorem Building.replace (building : Building csn seenAt start old touched publishing)
    {id : Nat} {chain : List Version} {matcher : Matcher} {changed : Bool}
    (counted : id ≤ publishing.nextRow) (sound : ChainSound csn chain)
    (stable : ∀ point, point ≤ seenAt → point < csn → shownAt chain point = shownRow start id point)
    (marked : changed = false → publishing.changed = false)
    (value : changed = false → (∀ entry ∈ old, latestRow start entry.1 = some entry.2.row) →
      (latest chain).map (·.row) = latestRow start id) :
    Building csn seenAt start old (id :: touched)
      ⟨publishing.rows.insert id chain, publishing.nextRow, matcher, changed⟩ where
  sound := building.sound.insert counted le_rfl sound
  untouched entry member free := by
    simp only [List.mem_cons, not_or] at free
    rw [SortedMap.get_insert, if_neg free.1]
    exact building.untouched entry member free.2
  stable other point within before := by
    rw [shownRow_insert]
    split
    · rename_i same
      rw [same]
      exact stable point within before
    · exact building.stable other point within before
  unchanged clean current other := by
    rw [latestRow_insert]
    split
    · rename_i same
      rw [same]
      exact value clean current
    · exact building.unchanged (marked clean) current other

theorem Building.publishRow (building : Building csn seenAt start old publishing.matcher.used publishing)
    (matcher : publishing.matcher.Sound old) (distinct : (old.map (·.1)).Nodup)
    (seen : ∀ entry ∈ old, (start.get entry.1).bind (chainAt · seenAt) = some entry.2)
    {row : Row} {order : Nat} {next : Publishing}
    (result : publishRow csn old publishing row order = .ok next) :
    Building csn seenAt start old next.matcher.used next ∧ next.matcher.Sound old := by
  rw [Mvcc.publishRow] at result
  generalize found : publishing.matcher.prior old row = pair at result
  obtain ⟨prior, after⟩ := pair
  obtain ⟨afterSound, handed⟩ := matcher.prior distinct found
  cases prior with
  | none =>
      dsimp only at result handed
      split at result
      · cases result
      · cases result
        refine ⟨⟨?_, ?_, ?_, fun clean => by cases clean⟩, afterSound⟩
        · exact building.sound.insert le_rfl (Nat.le_succ _) (chainSound_new ..)
        · intro entry member free
          rw [handed] at free
          obtain ⟨_, here, _, _, counted, _⟩ := building.chain seen member free
          rw [SortedMap.get_insert, if_neg (by omega)]
          exact building.untouched entry member free
        · intro id point within before
          rw [shownRow_insert]
          split
          · -- the row id is new, so nothing was seen under it
            rename_i same
            rw [← building.stable id point within before, shownRow]
            have unused : publishing.rows.get id = none := by
              cases here : publishing.rows.get id with
              | none => rfl
              | some chain =>
                  have counted := (building.sound id chain here).1
                  omega
            rw [unused]
            have unseen : shownAt ([] ++ [⟨csn, none, csn, order, row⟩]) point = shownAt [] point :=
              shownAt_concat_later before
            exact unseen
          · exact building.stable id point within before
  | some entry =>
      obtain ⟨id, previous⟩ := entry
      dsimp only at result handed
      have wider : Building csn seenAt start old after.used { publishing with matcher := after } := by
        refine ⟨building.sound, fun entry member free => ?_, building.stable, building.unchanged⟩
        rw [handed.used] at free
        exact building.untouched entry member fun taken => free (List.mem_cons_of_mem _ taken)
      split at result
      · cases result
        exact ⟨wider, afterSound⟩
      · split at result
        · cases result
        · obtain ⟨chain, here, begun, at_, counted, sound⟩ :=
            building.chain seen handed.member handed.fresh
          rw [here] at result
          cases chain with
          | nil => cases result
          | cons first rest =>
              cases result
              refine ⟨?_, afterSound⟩
              rw [handed.used]
              refine building.replace counted (sound.extend le_rfl) (fun point within before => ?_)
                (fun clean => ?_) (fun clean current => ?_)
              · rw [shownAt_concat_later before, shownAt_endLast sound before at_ within, shownRow,
                  begun]
                rfl
              · exact (Bool.or_eq_false_iff.mp clean).1
              · have same : previous.row = row := by
                  simpa using (Bool.or_eq_false_iff.mp clean).2
                rw [latest_concat, if_pos rfl, current _ handed.member, same]
                rfl

theorem Building.publishRows {rows : List Row} {position : Nat} {next : Publishing}
    (building : Building csn seenAt start old publishing.matcher.used publishing)
    (matcher : publishing.matcher.Sound old) (distinct : (old.map (·.1)).Nodup)
    (seen : ∀ entry ∈ old, (start.get entry.1).bind (chainAt · seenAt) = some entry.2)
    (result : publishRows csn old publishing rows position = .ok next) :
    Building csn seenAt start old next.matcher.used next ∧ next.matcher.Sound old := by
  induction rows generalizing publishing position with
  | nil =>
      cases result
      exact ⟨building, matcher⟩
  | cons row rest ih =>
      obtain ⟨middle, first, later⟩ := bind_eq_ok.mp result
      obtain ⟨building, matcher⟩ := building.publishRow matcher distinct seen first
      exact ih building matcher later

theorem Building.endUnused {todo : List (Nat × Version)} {next : Publishing}
    (building : Building csn seenAt start old touched publishing)
    (seen : ∀ entry ∈ old, (start.get entry.1).bind (chainAt · seenAt) = some entry.2)
    (within : todo ⊆ old) (distinct : (todo.map (·.1)).Nodup)
    (free : ∀ entry ∈ todo, entry.1 ∉ publishing.matcher.used → entry.1 ∉ touched)
    (result : endUnused csn publishing todo = .ok next) :
    ∃ touched, Building csn seenAt start old touched next := by
  induction todo generalizing publishing touched with
  | nil =>
      cases result
      exact ⟨touched, building⟩
  | cons entry rest ih =>
      obtain ⟨id, previous⟩ := entry
      obtain ⟨apart, distinct⟩ := List.nodup_cons.mp distinct
      have inside : rest ⊆ old := fun _ member => within (List.mem_cons_of_mem _ member)
      rw [Mvcc.endUnused] at result
      split at result
      · exact ih building inside distinct
          (fun entry member => free entry (List.mem_cons_of_mem _ member)) result
      · rename_i unused
        split at result
        · cases result
        · have fresh := free _ List.mem_cons_self unused
          obtain ⟨chain, here, begun, at_, counted, sound⟩ :=
            building.chain seen (within List.mem_cons_self) fresh
          rw [here] at result
          cases chain with
          | nil => cases result
          | cons first others =>
              refine ih (building.replace counted (sound.endLast le_rfl) (fun point within before => ?_)
                (fun clean => by cases clean) (fun clean => by cases clean)) inside distinct
                (fun entry member unmatched taken => ?_) result
              · rw [shownAt_endLast sound before at_ within, shownRow, begun]
                rfl
              · cases List.mem_cons.mp taken with
                | inl same => exact apart (List.mem_map.mpr ⟨entry, member, same⟩)
                | inr earlier =>
                    exact free entry (List.mem_cons_of_mem _ member) unmatched earlier

end Steps

end ChuSQL.Storage.Mvcc
