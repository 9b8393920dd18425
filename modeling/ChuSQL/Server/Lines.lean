import Mathlib.Data.List.Basic
import Mathlib.Data.List.TakeWhile
import Mathlib.Data.List.DropRight

/-! Request lines as the server reads them from a connection: in chunks of any size, up to a
limit, with what comes after a line kept for the next. -/

set_option autoImplicit false

namespace ChuSQL.Server.TCP

abbrev newline : UInt8 := 10

abbrev carriage : UInt8 := 13

/-- What the peer sends up to the end of the connection, and how much of it each read finds at
hand; past the list a read finds all it asks for. -/
structure Handle where
  input : List UInt8
  arrivals : List ℕ
  deriving DecidableEq, Repr

def Handle.size (handle : Handle) (most : ℕ) : ℕ :=
  match handle.arrivals with
  | [] => most
  | arrived :: _ => max 1 (min arrived most)

/-- At least one byte and at most those asked for; none at the end of the connection. -/
def Handle.getSome (handle : Handle) (most : ℕ) : List UInt8 × Handle :=
  (handle.input.take (handle.size most), ⟨handle.input.drop (handle.size most), handle.arrivals.tail⟩)

inductive Read where
  | closed
  | tooLarge (handle : Handle)
  | line (bytes remaining : List UInt8) (handle : Handle)
  deriving DecidableEq, Repr

def strip (bytes : List UInt8) : List UInt8 := bytes.rdropWhile (· == carriage)

def finish (limit : ℕ) (handle : Handle) (parts : List (List UInt8)) (remaining : List UInt8) : Read :=
  let line := strip parts.reverse.flatten
  if limit < line.length then .tooLarge handle else .line line remaining handle

/-- How many bytes the next read asks for. -/
def request (limit used : ℕ) : ℕ := (max 1 (min 4094 ((limit : Int) - used) + 2)).toNat

theorem request_pos (limit used : ℕ) : 0 < request limit used := by
  unfold request
  omega

theorem Handle.size_within (handle : Handle) {most : ℕ} (positive : 0 < most) :
    0 < handle.size most ∧ handle.size most ≤ most := by
  rw [Handle.size]
  split <;> omega

/-- A read takes at most what was asked for off the input, and something unless it is empty. -/
theorem Handle.getSome_spec (handle : Handle) {most : ℕ} (positive : 0 < most) :
    (handle.getSome most).1 ++ (handle.getSome most).2.input = handle.input ∧ (handle.getSome most).1.length ≤ most ∧
      ((handle.getSome most).1 = [] → handle.input = []) := by
  obtain ⟨some, bounded⟩ := handle.size_within positive
  constructor
  · exact List.take_append_drop _ _
  constructor
  · exact (List.length_take_le _ _).trans bounded
  · intro none
    cases List.take_eq_nil_iff.mp none with
    | inl zero => omega
    | inr empty => exact empty

def collect (limit : ℕ) (handle : Handle) (parts : List (List UInt8)) (total : ℕ) (bytes : List UInt8) : Read :=
  let used := total + bytes.length
  if newline ∈ bytes then
    finish limit handle (bytes.takeWhile (· ≠ newline) :: parts) (bytes.dropWhile (· ≠ newline)).tail
  else if limit < used ∧ (1 < used - limit ∨ bytes = [] ∨ bytes.getLast? ≠ some carriage) then .tooLarge handle
  else
    let next := handle.getSome (request limit used)
    if _empty : next.1 = [] then if used = 0 then .closed else finish limit next.2 (bytes :: parts) []
    else collect limit next.2 (bytes :: parts) used next.1
termination_by handle.input.length
decreasing_by
  obtain ⟨split, _, _⟩ := handle.getSome_spec (request_pos limit (total + bytes.length))
  rw [← split, List.length_append]
  have some : 0 < (handle.getSome (request limit (total + bytes.length))).1.length := List.length_pos_iff.mpr _empty
  omega

/-- Read one line, the bytes left from the line before it first. -/
def readRequestLine (limit : ℕ) (handle : Handle) (pending : List UInt8) : Read := collect limit handle [] 0 pending

/-! ### One line -/

def rawLine (data : List UInt8) : List UInt8 := data.takeWhile (· ≠ newline)

def after (data : List UInt8) : List UInt8 := (data.dropWhile (· ≠ newline)).tail

/-- Within the limit, but for one carriage return at the end. -/
def Fits (limit : ℕ) (raw : List UInt8) : Prop :=
  raw.length ≤ limit ∨ (raw.length = limit + 1 ∧ raw.getLast? = some carriage)

/-- What a read may come to, by the data it is about: never by how the data arrives, but for lines
that only the removal of several carriage returns brings within the limit. -/
inductive Describes (limit : ℕ) (data : List UInt8) : Read → Prop where
  | closed (ended : data = []) : Describes limit data .closed
  | tooLarge (handle : Handle) (some : data ≠ []) (large : ¬Fits limit (rawLine data)) :
      Describes limit data (.tooLarge handle)
  | line (bytes remaining : List UInt8) (handle : Handle) (some : data ≠ []) (same : bytes = strip (rawLine data))
      (small : bytes.length ≤ limit) (rest : remaining ++ handle.input = after data) :
      Describes limit data (.line bytes remaining handle)

theorem strip_length (bytes : List UInt8) : (strip bytes).length ≤ bytes.length :=
  (List.rdropWhile_prefix _ _).length_le

theorem strip_carriage (bytes : List UInt8) (last : bytes.getLast? = some carriage) :
    (strip bytes).length < bytes.length := by
  obtain ⟨front, rfl⟩ := List.getLast?_eq_some_iff.mp last
  rw [strip, List.rdropWhile_concat_pos _ _ _ (by simp)]
  have shorter := strip_length front
  rw [strip] at shorter
  simp only [List.length_append, List.length_singleton]
  omega

theorem large_of_strip {limit : ℕ} {raw : List UInt8} (large : limit < (strip raw).length) : ¬Fits limit raw := by
  intro fits
  cases fits with
  | inl within =>
      have shorter := strip_length raw
      omega
  | inr last =>
      have shorter := strip_carriage raw last.2
      omega

theorem finish_describes {limit : ℕ} {data : List UInt8} {handle : Handle} {parts : List (List UInt8)}
    {remaining : List UInt8} (some : data ≠ []) (raw : parts.reverse.flatten = rawLine data)
    (rest : remaining ++ handle.input = after data) : Describes limit data (finish limit handle parts remaining) := by
  rw [finish, raw]
  split
  · rename_i large
    exact .tooLarge handle some (large_of_strip large)
  · rename_i small
    exact .line _ remaining handle some rfl (by omega) rest

theorem rawLine_append {front back : List UInt8} (free : newline ∉ front) : rawLine (front ++ back) = front ++ rawLine back := by
  rw [rawLine, List.takeWhile_append_of_pos (by simpa using fun byte member => ne_of_mem_of_not_mem member free)]
  rfl

theorem after_append {front back : List UInt8} (free : newline ∉ front) : after (front ++ back) = after back := by
  rw [after, List.dropWhile_append_of_pos (by simpa using fun byte member => ne_of_mem_of_not_mem member free)]
  rfl

theorem rawLine_of_mem {front back : List UInt8} (found : newline ∈ front) : rawLine (front ++ back) = rawLine front := by
  induction front with
  | nil => cases found
  | cons byte rest ih =>
      by_cases here : byte = newline
      · simp [rawLine, here]
      · have later : newline ∈ rest := (List.mem_cons.mp found).resolve_left (Ne.symm here)
        have same := ih later
        rw [rawLine, rawLine] at same
        rw [rawLine, rawLine, List.cons_append, List.takeWhile_cons_of_pos (by simpa using here),
          List.takeWhile_cons_of_pos (by simpa using here), same]

theorem after_of_mem {front back : List UInt8} (found : newline ∈ front) : after (front ++ back) = after front ++ back := by
  induction front with
  | nil => cases found
  | cons byte rest ih =>
      by_cases here : byte = newline
      · simp [after, here]
      · have later : newline ∈ rest := (List.mem_cons.mp found).resolve_left (Ne.symm here)
        have same := ih later
        rw [after, after] at same
        rw [after, after, List.cons_append, List.dropWhile_cons_of_pos (by simpa using here),
          List.dropWhile_cons_of_pos (by simpa using here), same]

theorem flatten_cons (bytes : List UInt8) (parts : List (List UInt8)) :
    (bytes :: parts).reverse.flatten = parts.reverse.flatten ++ bytes := by simp

theorem collect_describes (limit : ℕ) (handle : Handle) (parts : List (List UInt8)) (total : ℕ) (bytes : List UInt8)
    (free : newline ∉ parts.reverse.flatten) (counted : total = parts.reverse.flatten.length)
    (first : bytes = [] → total = 0) :
    Describes limit (parts.reverse.flatten ++ (bytes ++ handle.input)) (collect limit handle parts total bytes) := by
  induction handle, parts, total, bytes using collect.induct limit with
  | case1 handle parts total bytes found =>
      rw [collect, if_pos found]
      apply finish_describes
      · intro none
        rw [List.append_eq_nil_iff, List.append_eq_nil_iff] at none
        rw [none.2.1] at found
        cases found
      · rw [rawLine_append free, rawLine_of_mem found, flatten_cons]
        rfl
      · rw [after_append free, after_of_mem found]
        rfl
  | case2 handle parts total bytes used absent large =>
      rw [collect, if_neg absent, if_pos large]
      have some : bytes ≠ [] := by
        intro none
        have zero := first none
        have length : used = total + bytes.length := rfl
        rw [none, List.length_nil] at length
        omega
      apply Describes.tooLarge
      · simp [some]
      · have unread : newline ∉ parts.reverse.flatten ++ bytes := by simp [absent, -List.mem_flatten, free]
        rw [← List.append_assoc, rawLine_append unread]
        intro fits
        have length : used = (parts.reverse.flatten ++ bytes).length := by
          rw [List.length_append, ← counted]
        cases fits with
        | inl within =>
            rw [List.length_append] at within
            omega
        | inr last =>
            obtain ⟨exact, ends⟩ := last
            rw [List.length_append] at exact
            have none : rawLine handle.input = [] := List.length_eq_zero_iff.mp (by omega)
            rw [none, List.append_nil, List.getLast?_append_of_ne_nil _ some] at ends
            rcases large with ⟨_, more | empty | other⟩
            · omega
            · exact some empty
            · exact other ends
  | case3 handle parts total bytes used absent small next empty zero =>
      rw [collect, if_neg absent, if_neg small, dif_pos empty, if_pos zero]
      have ended : handle.input = [] := (handle.getSome_spec (request_pos limit used)).2.2 empty
      have length : used = total + bytes.length := rfl
      have none : bytes = [] := List.length_eq_zero_iff.mp (by omega)
      have nothing : parts.reverse.flatten = [] := List.length_eq_zero_iff.mp (by omega)
      apply Describes.closed
      rw [none, nothing, ended]
      rfl
  | case4 handle parts total bytes used absent small next empty some =>
      rw [collect, if_neg absent, if_neg small, dif_pos empty, if_neg some]
      obtain ⟨split, _, ended⟩ := handle.getSome_spec (request_pos limit used)
      have consumed : handle.input = [] := ended empty
      rw [consumed, List.append_eq_nil_iff] at split
      have unread : newline ∉ parts.reverse.flatten ++ bytes := by simp [absent, -List.mem_flatten, free]
      rw [consumed, List.append_nil]
      apply finish_describes
      · intro none
        have length : used = (parts.reverse.flatten ++ bytes).length := by
          rw [List.length_append, ← counted]
        rw [none] at length
        exact some length
      · rw [flatten_cons, ← List.append_nil (parts.reverse.flatten ++ bytes), rawLine_append unread]
        simp [rawLine]
      · rw [← List.append_nil (parts.reverse.flatten ++ bytes), after_append unread]
        exact split.2
  | case5 handle parts total bytes used absent small next some ih =>
      rw [collect, if_neg absent, if_neg small, dif_neg some]
      obtain ⟨split, _, _⟩ := handle.getSome_spec (request_pos limit used)
      rw [flatten_cons] at ih
      have described := ih (by simp [absent, -List.mem_flatten, free]) (by rw [List.length_append, ← counted])
        fun none => absurd none some
      rwa [List.append_assoc, split] at described

theorem readRequestLine_describes (limit : ℕ) (handle : Handle) (pending : List UInt8) :
    Describes limit (pending ++ handle.input) (readRequestLine limit handle pending) :=
  collect_describes limit handle [] 0 pending (by simp) rfl fun _ => rfl

theorem after_shorter {data : List UInt8} (some : data ≠ []) : (after data).length < data.length := by
  have shorter := (List.dropWhile_suffix (l := data) fun byte => decide (byte ≠ newline)).length_le
  have positive := List.length_pos_iff.mpr some
  rw [after, List.length_tail]
  omega

/-- What is kept for the next line is never more than a line and its end. -/
theorem collect_bound {limit most : ℕ} (enough : limit + 2 ≤ most) (handle : Handle) (parts : List (List UInt8)) (total : ℕ)
    (bytes : List UInt8) (within : total + bytes.length ≤ most) {line remaining : List UInt8} {later : Handle}
    (read : collect limit handle parts total bytes = .line line remaining later) : remaining.length < most := by
  induction handle, parts, total, bytes using collect.induct limit with
  | case1 handle parts total bytes found =>
      rw [collect, if_pos found, finish] at read
      have some : bytes ≠ [] := List.ne_nil_of_mem found
      have shorter := after_shorter some
      split at read
      · cases read
      · cases read
        exact shorter.trans_le (by omega)
  | case2 handle parts total bytes used absent large =>
      rw [collect, if_neg absent, if_pos large] at read
      cases read
  | case3 handle parts total bytes used absent small next empty zero =>
      rw [collect, if_neg absent, if_neg small, dif_pos empty, if_pos zero] at read
      cases read
  | case4 handle parts total bytes used absent small next empty some =>
      rw [collect, if_neg absent, if_neg small, dif_pos empty, if_neg some, finish] at read
      split at read
      · cases read
      · cases read
        exact Nat.lt_of_lt_of_le (Nat.succ_pos _) enough
  | case5 handle parts total bytes used absent small next some ih =>
      rw [collect, if_neg absent, if_neg small, dif_neg some] at read
      obtain ⟨_, asked, _⟩ := handle.getSome_spec (request_pos limit used)
      apply ih _ read
      have length : used = total + bytes.length := rfl
      have bound : used + request limit used ≤ limit + 2 := by
        rw [request]
        omega
      exact (Nat.add_le_add_left asked used).trans (bound.trans enough)

/-- A line read is the next one of the data, whatever part of it was at hand and however the rest
arrives: the connection is closed exactly at its end, a line within the limit is always read,
one too large without its carriage returns never, and what is kept is bounded. -/
theorem readRequestLine_exact (limit : ℕ) (handle : Handle) (pending : List UInt8) :
    (readRequestLine limit handle pending = .closed ↔ pending ++ handle.input = []) ∧
    (∀ bytes remaining later, readRequestLine limit handle pending = .line bytes remaining later →
      bytes = strip (rawLine (pending ++ handle.input)) ∧ bytes.length ≤ limit ∧
        remaining ++ later.input = after (pending ++ handle.input) ∧ remaining.length < max (limit + 2) pending.length) ∧
    (pending ++ handle.input ≠ [] → Fits limit (rawLine (pending ++ handle.input)) →
      ∃ bytes remaining later, readRequestLine limit handle pending = .line bytes remaining later) ∧
    (limit < (strip (rawLine (pending ++ handle.input))).length →
      ∃ later, readRequestLine limit handle pending = .tooLarge later) := by
  have described := readRequestLine_describes limit handle pending
  constructor
  · constructor
    · intro closed
      rw [closed] at described
      cases described with
      | closed ended => exact ended
    · intro ended
      cases read : readRequestLine limit handle pending with
      | closed => rfl
      | tooLarge later =>
          rw [read] at described
          cases described with
          | tooLarge _ some => exact absurd ended some
      | line bytes remaining later =>
          rw [read] at described
          cases described with
          | line _ _ _ some => exact absurd ended some
  constructor
  · intro bytes remaining later read
    have bound := collect_bound (le_max_left (limit + 2) pending.length) handle [] 0 pending (by
      rw [Nat.zero_add]
      exact le_max_right _ _) read
    rw [read] at described
    cases described with
    | line _ _ _ _ same small rest => exact ⟨same, small, rest, bound⟩
  constructor
  · intro some fits
    cases read : readRequestLine limit handle pending with
    | closed =>
        rw [read] at described
        cases described with
        | closed ended => exact absurd ended some
    | tooLarge later =>
        rw [read] at described
        cases described with
        | tooLarge _ _ large => exact absurd fits large
    | line bytes remaining later => exact ⟨bytes, remaining, later, rfl⟩
  · intro large
    cases read : readRequestLine limit handle pending with
    | closed =>
        rw [read] at described
        cases described with
        | closed ended =>
            rw [ended] at large
            cases large
    | tooLarge later => exact ⟨later, rfl⟩
    | line bytes remaining later =>
        rw [read] at described
        cases described with
        | line _ _ _ _ same small =>
            rw [same] at small
            omega

/-! ### All lines of a connection -/

/-- The lines that are handed on until the connection is closed, and whether it was: a line that is
too large ends it before. -/
def serve (limit : ℕ) (handle : Handle) (pending : List UInt8) : List (List UInt8) × Bool :=
  match _read : readRequestLine limit handle pending with
  | .closed => ([], true)
  | .tooLarge _ => ([], false)
  | .line bytes remaining later =>
      let rest := serve limit later remaining
      (bytes :: rest.1, rest.2)
termination_by (pending ++ handle.input).length
decreasing_by
  have described := readRequestLine_describes limit handle pending
  rw [_read] at described
  cases described with
  | line _ _ _ some _ _ rest =>
      rw [rest]
      exact after_shorter some

/-- A request as a client writes it, with or without a carriage return before the line's end. -/
def wire (request : List UInt8 × Bool) : List UInt8 :=
  request.1 ++ ((if request.2 then [carriage] else []) ++ [newline])

theorem strip_self {bytes : List UInt8} (other : bytes.getLast? ≠ some carriage) : strip bytes = bytes := by
  rw [strip, List.rdropWhile_eq_self_iff]
  intro some last
  rw [List.getLast?_eq_some_getLast some] at other
  exact other (congrArg Option.some (by simpa using last))

theorem strip_line {bytes : List UInt8} (other : bytes.getLast? ≠ some carriage) (ended : Bool) :
    strip (bytes ++ if ended then [carriage] else []) = bytes := by
  cases ended with
  | false => simpa using strip_self other
  | true =>
      rw [if_pos rfl, strip, List.rdropWhile_concat_pos _ _ _ (by simp)]
      exact strip_self other

theorem fits_line {limit : ℕ} {bytes : List UInt8} (small : bytes.length ≤ limit) (ended : Bool) :
    Fits limit (bytes ++ if ended then [carriage] else []) := by
  cases ended with
  | false => exact .inl (by simpa using small)
  | true =>
      by_cases within : bytes.length < limit
      · exact .inl (by simpa using Nat.succ_le_of_lt within)
      · apply Or.inr
        constructor
        · simp
          omega
        · simp

end ChuSQL.Server.TCP
