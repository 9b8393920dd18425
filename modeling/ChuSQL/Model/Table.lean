import ChuSQL.Model.Column

/-! Rows, column definitions, tables and the names of columns. -/

set_option autoImplicit false

namespace ChuSQL.Model

abbrev Row := List (String × Value)

structure Column where
  type : ColumnType
  nullable : Bool
  default : Option Value
  autoIncrement : Bool
  unique : Bool
  primaryKey : Bool
  check : Option String

/-- A plain column that may be NULL. -/
def plainColumn (type : ColumnType) : Column := ⟨type, true, none, false, false, false, none⟩

structure Table where
  name : String
  cols : List (String × Column)
  rows : List Row

abbrev Database := List (String × Table)

/-- The first value under a name. -/
def lookup {α : Type} (name : String) : List (String × α) → Option α
  | [] => none
  | (key, value) :: rest => if key = name then some value else lookup name rest

theorem mem_of_lookup {α : Type} {name : String} {entries : List (String × α)} {value : α}
    (found : lookup name entries = some value) : (name, value) ∈ entries := by
  induction entries with
  | nil => cases found
  | cons entry entries ih =>
      rw [lookup] at found
      split at found
      · rename_i same
        cases found
        exact same ▸ List.mem_cons_self
      · exact List.mem_cons_of_mem _ (ih found)

theorem lookup_of_not_mem {name : String} {row : Row} (absent : name ∉ row.map (·.1)) (rest : Row) :
    lookup name (row ++ rest) = lookup name rest := by
  induction row with
  | nil => rfl
  | cons entry row ih =>
      rw [List.map_cons, List.mem_cons, not_or] at absent
      rw [List.cons_append, lookup, if_neg (Ne.symm absent.1)]
      exact ih absent.2

/-- A name that stands once is found at its place. -/
theorem lookup_of_place {name : String} {row : Row} (once : (row.map (·.1)).count name = 1) {slot : Nat}
    {value : Value} (place : row[slot]? = some (name, value)) : lookup name row = some value := by
  induction row generalizing slot with
  | nil => cases place
  | cons entry row ih =>
      by_cases here : entry.1 = name
      · rw [List.map_cons, here, List.count_cons_self, Nat.add_eq_right] at once
        cases slot with
        | zero =>
            cases place
            simp [lookup]
        | succ slot =>
            rw [List.getElem?_cons_succ] at place
            have member : name ∈ row.map (·.1) := List.mem_map.mpr ⟨_, List.mem_of_getElem? place, rfl⟩
            exact absurd member (List.count_eq_zero.mp once)
      · cases slot with
        | zero =>
            cases place
            exact absurd rfl here
        | succ slot =>
            rw [List.map_cons, List.count_cons_of_ne here] at once
            rw [lookup, if_neg here]
            exact ih once place

def lookupTable (db : Database) (name : String) : Except String Table :=
  match lookup name db with
  | some table => .ok table
  | none => .error ("unknown table: " ++ name)

/-- The last part of a qualified name. -/
def lastTablePart (name : String) : String :=
  String.ofList (name.toList.reverse.takeWhile (· ≠ '.')).reverse

def qualify (label : Option String) (column : String) : String :=
  match label with
  | none => column
  | some label => label ++ "." ++ column

def unqualify (label : Option String) (column : String) : String :=
  match label with
  | none => column
  | some label =>
      if (label ++ ".").toList.isPrefixOf column.toList then
        String.ofList (column.toList.drop (label ++ ".").length)
      else column

end ChuSQL.Model
