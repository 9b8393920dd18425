import ChuSQL.Model.Scalar.Identifiers
import ChuSQL.Model.Scalar.Times

/-! Network addresses: every address that is written is read back, and networks have no host
bits. -/

set_option autoImplicit false

namespace ChuSQL.Model

open Library

/-! ### IPv4 -/

theorem octet_some {part : List Char} {n : Nat} (reads : octet part = some n) : n < 256 := by
  rw [octet] at reads
  split_ifs at reads with refused small
  cases reads
  omega

theorem octet_toDigits {n : Nat} (small : n < 256) : octet (Nat.toDigits 10 n) = some n := by
  have all : ∀ n < 256, octet (Nat.toDigits 10 n) = some n := by decide +kernel
  exact all n small

theorem toDigits_isDigit (n : Nat) : ∀ c ∈ Nat.toDigits 10 n, c.isDigit = true :=
  fun _ member => Nat.isDigit_of_mem_toDigits (by decide) (by decide) member

/-- The octets of an address, which are all there, make its number. -/
theorem foldl_octets {parts : List (List Char)} {start : Nat} {n : Nat}
    (reads : parts.foldl (fun sum part => (fun value number => value * 256 + number) <$> sum <*> octet part) (some start) = some n) :
    ∃ octets : List Nat, parts.map octet = octets.map some ∧ n = octets.foldl (fun sum octet => sum * 256 + octet) start := by
  induction parts generalizing start with
  | nil =>
      cases reads
      exact ⟨[], rfl, rfl⟩
  | cons part parts ih =>
      rw [List.foldl_cons] at reads
      cases found : octet part with
      | none =>
          have none_stays : ∀ rest : List (List Char),
              rest.foldl (fun sum part => (fun value number => value * 256 + number) <$> sum <*> octet part) none = none := by
            intro rest
            induction rest with
            | nil => rfl
            | cons _ _ ih => exact ih
          rw [found] at reads
          rw [show ((fun value number => value * 256 + number) <$> some start <*> (none : Option Nat)) = none from rfl,
            none_stays] at reads
          cases reads
      | some number =>
          rw [found] at reads
          obtain ⟨octets, same, value⟩ := ih reads
          exact ⟨number :: octets, by simp [found, same], value⟩

theorem foldl_octets_of {parts : List (List Char)} {octets : List Nat} (start : Nat) (reads : parts.map octet = octets.map some) :
    parts.foldl (fun sum part => (fun value number => value * 256 + number) <$> sum <*> octet part) (some start) =
      some (octets.foldl (fun sum octet => sum * 256 + octet) start) := by
  induction parts generalizing start octets with
  | nil =>
      cases octets with
      | nil => rfl
      | cons => cases reads
  | cons part parts ih =>
      cases octets with
      | nil => cases reads
      | cons number octets =>
          rw [List.map_cons, List.map_cons, List.cons.injEq] at reads
          rw [List.foldl_cons, reads.1]
          exact ih _ reads.2

theorem ipv4_bound {input : List Char} {n : Nat} (reads : ipv4 input = some n) : n < 2 ^ 32 := by
  rw [ipv4] at reads
  obtain ⟨four, reads⟩ := Option.ite_none_right_eq_some.mp reads
  obtain ⟨octets, same, rfl⟩ := foldl_octets reads
  have small : ∀ octet ∈ octets, octet < 256 := by
    intro number member
    have found : some number ∈ (input.splitOn '.').map octet := same ▸ List.mem_map_of_mem member
    obtain ⟨part, _, reads⟩ := List.mem_map.mp found
    exact octet_some reads
  have length : octets.length = 4 := by
    have := congrArg List.length same
    rw [List.length_map, List.length_map] at this
    omega
  have bound := positional_lt small
  rw [length] at bound
  exact bound

/-- The four bytes of a number. -/
def octetsOf (value : Nat) : List Nat := [3, 2, 1, 0].map fun power => value / 256 ^ power % 256

theorem positional_octets {value : Nat} (bound : value < 2 ^ 32) : positional 256 (octetsOf value) = value := by
  simp only [octetsOf, positional, List.map_cons, List.map_nil, List.foldl_cons, List.foldl_nil]
  omega

theorem ipv4_render {value : Nat} (bound : value < 2 ^ 32) :
    ipv4 (['.'].intercalate ((octetsOf value).map (Nat.toDigits 10))) = some value := by
  have parts : (['.'].intercalate ((octetsOf value).map (Nat.toDigits 10))).splitOn '.' =
      (octetsOf value).map (Nat.toDigits 10) := by
    apply List.splitOn_intercalate
    · intro part member inside
      obtain ⟨n, _, rfl⟩ := List.mem_map.mp member
      exact absurd (toDigits_isDigit n _ inside) (by decide)
    · simp [octetsOf]
  have reads : ((octetsOf value).map (Nat.toDigits 10)).map octet = (octetsOf value).map some := by
    rw [List.map_map]
    apply List.map_congr_left
    intro n member
    obtain ⟨power, _, rfl⟩ := List.mem_map.mp member
    exact octet_toDigits (Nat.mod_lt _ (by decide))
  rw [ipv4, parts]
  refine (if_pos (by simp [octetsOf])).trans ((foldl_octets_of 0 reads).trans (congrArg some ?_))
  exact positional_octets bound

/-! ### IPv6 -/

theorem hexGroup_some {part : List Char} {n : Nat} (reads : hexGroup part = some n) : n < 65536 := by
  rw [hexGroup] at reads
  split_ifs at reads with refused
  cases reads
  simp only [Bool.or_eq_true, not_or, decide_eq_true_eq, Bool.not_eq_true', Bool.not_eq_false,
    List.all_eq_true] at refused
  have bound := numeralValue_hex_lt refused.2
  have short : part.length ≤ 4 := by omega
  exact bound.trans_le (Nat.pow_le_pow_right (by decide) short)

theorem expand_bound {parts : List (List Char)} {values : List Nat} (reads : expand parts = some values) :
    ∀ value ∈ values, value < 65536 := by
  induction parts generalizing values with
  | nil =>
      cases reads
      simp
  | cons part rest ih =>
      rw [expand] at reads
      split_ifs at reads with dotted
      · obtain ⟨value, found, reads⟩ := Option.bind_eq_some_iff.mp reads
        cases reads
        have := ipv4_bound found
        simp
        omega
      · obtain ⟨value, found, reads⟩ := Option.bind_eq_some_iff.mp reads
        obtain ⟨others, inner, reads⟩ := Option.bind_eq_some_iff.mp reads
        cases reads
        intro n member
        cases List.mem_cons.mp member with
        | inl first => exact first ▸ hexGroup_some found
        | inr later => exact ih inner n later

theorem groups_bound {text : List Char} {values : List Nat} (reads : groups text = some values) :
    ∀ value ∈ values, value < 65536 := by
  rw [groups] at reads
  split_ifs at reads
  · cases reads
    simp
  · exact expand_bound reads

theorem words16_some {input : List Char} {words : List Nat} (reads : words16 input = some words) :
    words.length = 8 ∧ ∀ word ∈ words, word < 65536 := by
  rw [words16] at reads
  split at reads
  · obtain ⟨values, inner, reads⟩ := Option.bind_eq_some_iff.mp reads
    obtain ⟨eight, reads⟩ := Option.ite_none_right_eq_some.mp reads
    cases reads
    exact ⟨eight, groups_bound inner⟩
  · obtain ⟨_, reads⟩ := Option.ite_none_left_eq_some.mp reads
    obtain ⟨leading, front, reads⟩ := Option.bind_eq_some_iff.mp reads
    obtain ⟨trailing, rear, reads⟩ := Option.bind_eq_some_iff.mp reads
    obtain ⟨fewer, reads⟩ := Option.ite_none_right_eq_some.mp reads
    cases reads
    constructor
    · simp
      omega
    · intro word member
      rw [List.mem_append, List.mem_append] at member
      obtain (first | zero) | last := member
      · exact groups_bound front word first
      · rw [List.eq_of_mem_replicate zero]
        decide
      · exact groups_bound rear word last
  · cases reads

theorem ipv6_bound {input : List Char} {n : Nat} (reads : ipv6 input = some n) : n < 2 ^ 128 := by
  obtain ⟨words, found, rfl⟩ := Option.map_eq_some_iff.mp reads
  obtain ⟨eight, small⟩ := words16_some found
  have bound := positional_lt small
  rw [eight] at bound
  exact bound

/-- No two colons stand next to each other. -/
def singleColons : List Char → Bool
  | c :: d :: rest => !(c == ':' && d == ':') && singleColons (d :: rest)
  | _ => true

theorem splitDouble_single {text : List Char} (single : singleColons text = true) : splitDouble text = [text] := by
  induction text with
  | nil => rfl
  | cons c text ih =>
      cases text with
      | nil => rfl
      | cons d rest =>
          rw [singleColons, Bool.and_eq_true] at single
          have apart : ¬(c = ':' ∧ d = ':') := by simpa [imp_iff_not_or] using single.1
          rw [splitDouble, if_neg apart, ih single.2]

def groupWidths : List Nat := [4, 4, 4, 4, 4, 4, 4, 4]

theorem singleColons_append {front rest : List Char} (plain : ':' ∉ front) (single : singleColons rest = true)
    (full : front ≠ []) : singleColons (front ++ rest) = true := by
  induction front with
  | nil => exact absurd rfl full
  | cons c front ih =>
      have apart : c ≠ ':' := fun same => plain (same ▸ List.mem_cons_self)
      cases front with
      | nil =>
          cases rest with
          | nil => rfl
          | cons d rest => simp [singleColons, apart, single]
      | cons d front =>
          have inner := ih (fun member => plain (List.mem_cons_of_mem _ member)) (by simp)
          simpa [singleColons, apart] using inner

/-- Parts without colons have single colons between them. -/
theorem singleColons_intercalate {parts : List (List Char)} (plain : ∀ part ∈ parts, ':' ∉ part ∧ part ≠ []) :
    singleColons ([':'].intercalate parts) = true := by
  induction parts with
  | nil => rfl
  | cons part parts ih =>
      obtain ⟨apart, full⟩ := plain part List.mem_cons_self
      have rest := ih fun part member => plain part (List.mem_cons_of_mem _ member)
      cases parts with
      | nil =>
          rw [List.intercalate_singleton, ← List.append_nil part]
          exact singleColons_append apart rfl full
      | cons next parts =>
          obtain ⟨start, nonempty⟩ := plain next (by simp)
          have later : singleColons (':' :: [':'].intercalate (next :: parts)) = true := by
            cases next with
            | nil => exact absurd rfl nonempty
            | cons d next =>
                have other : d ≠ ':' := fun same => start (same ▸ List.mem_cons_self)
                cases parts with
                | nil => simpa [singleColons, other] using rest
                | cons => simpa [singleColons, other] using rest
          simpa using singleColons_append apart later full

/-- A number in eight groups of four digits. -/
theorem renderAddress_wide (value : Nat) : renderAddress 128 value = grouped ':' groupWidths value := by
  have group (power : Nat) : pad 4 (Nat.toDigits 16 (value / 65536 ^ power % 65536)) = numeral 16 4 (value / 65536 ^ power) := by
    have small : value / 65536 ^ power % 65536 < 16 ^ 4 := Nat.mod_lt _ (by decide)
    exact (pad_toDigits (by decide) (by decide) small).trans (numeral_mod 4 _)
  have parts := chunks_numeral 16 4 8 value
  rw [renderAddress, if_neg (by decide), grouped]
  simp only [group]
  exact congrArg _ parts.symm

theorem renderAddress_narrow (value : Nat) :
    renderAddress 32 value = ['.'].intercalate ((octetsOf value).map (Nat.toDigits 10)) := by
  rw [renderAddress, if_pos rfl, octetsOf, List.map_map]
  rfl

theorem hexGroup_of_four {part : List Char} (size : part.length = 4) (hex : ∀ c ∈ part, isHexDigit c = true) :
    hexGroup part = some (numeralValue 16 part) := by
  have full : part.isEmpty = false := by
    cases part with
    | nil => cases size
    | cons => rfl
  rw [hexGroup, if_neg]
  simpa [size, full] using hex

theorem expand_groups {parts : List (List Char)} (size : ∀ part ∈ parts, part.length = 4)
    (hex : ∀ part ∈ parts, ∀ c ∈ part, isHexDigit c = true) : expand parts = some (parts.map (numeralValue 16)) := by
  induction parts with
  | nil => rfl
  | cons part parts ih =>
      have plain : part.contains '.' = false := by
        rw [List.contains_eq_mem, decide_eq_false_iff_not]
        intro inside
        have := hex part List.mem_cons_self '.' inside
        cases this
      rw [expand, plain, Bool.and_false, if_neg (by decide),
        hexGroup_of_four (size part List.mem_cons_self) (hex part List.mem_cons_self),
        ih (fun part member => size part (List.mem_cons_of_mem _ member))
          (fun part member => hex part (List.mem_cons_of_mem _ member))]
      rfl

theorem groups_parts (value : Nat) :
    (renderAddress 128 value).splitOn ':' = chunks groupWidths (numeral 16 32 value) ∧
      (chunks groupWidths (numeral 16 32 value)).map List.length = groupWidths := by
  rw [renderAddress_wide]
  exact ⟨splitOn_grouped rfl value, chunks_length (numeral_length _ _)⟩

theorem colon_mem (value : Nat) : ':' ∈ renderAddress 128 value := by
  obtain ⟨parts, sizes⟩ := groups_parts value
  by_contra absent
  rw [List.splitOn_eq_singleton absent] at parts
  have one := congrArg List.length (parts.symm ▸ sizes)
  simp [groupWidths] at one

theorem ipv6_render {value : Nat} (bound : value < 2 ^ 128) : ipv6 (renderAddress 128 value) = some value := by
  obtain ⟨parts, lengths⟩ := groups_parts value
  have size : (numeral 16 32 value).length = groupWidths.sum := numeral_length _ _
  have sizes : ∀ part ∈ chunks groupWidths (numeral 16 32 value), part.length = 4 := by
    intro part member
    have found : part.length ∈ groupWidths := lengths ▸ List.mem_map_of_mem member
    simpa [groupWidths] using found
  have hex := chunks_hex groupWidths 32 value
  have single : singleColons (renderAddress 128 value) = true := by
    rw [← @List.intercalate_splitOn _ (renderAddress 128 value) _ _ ':', parts]
    apply singleColons_intercalate
    intro part member
    constructor
    · intro colon
      have := hex part member ':' colon
      cases this
    · intro empty
      have := sizes part member
      rw [empty] at this
      cases this
  have full : renderAddress 128 value ≠ [] := List.ne_nil_of_mem (colon_mem value)
  have eight : (chunks groupWidths (numeral 16 32 value)).length = 8 := by
    rw [← List.length_map, lengths]
    rfl
  have figures := @positional_groups 16 4 _ sizes
  have scale : 16 ^ 4 = 65536 := rfl
  have limit : value < 16 ^ 32 := by
    norm_num at bound ⊢
    exact bound
  rw [scale, chunks_flatten size, numeralValue_numeral (by decide) (by decide) limit, positional] at figures
  rw [ipv6, words16, splitDouble_single single]
  dsimp only
  rw [groups, if_neg full, parts, expand_groups sizes hex]
  dsimp only [Option.bind_eq_bind, Option.bind_some]
  rw [if_pos (by rw [List.length_map, eight]), Option.map_some, figures]

/-! ### Addresses -/

theorem mem_intercalate {parts : List (List Char)} {separator c : Char} (member : c ∈ [separator].intercalate parts) :
    c = separator ∨ ∃ part ∈ parts, c ∈ part := by
  induction parts with
  | nil => cases member
  | cons part parts ih =>
      cases parts with
      | nil => exact .inr ⟨part, by simp, by simpa using member⟩
      | cons next parts =>
          rw [List.intercalate_cons_cons, List.mem_append, List.mem_append, List.mem_singleton] at member
          obtain (first | same) | rest := member
          · exact .inr ⟨part, List.mem_cons_self, first⟩
          · exact .inl same
          · exact (ih rest).imp id fun found => found.imp fun _ both => ⟨List.mem_cons_of_mem _ both.1, both.2⟩

theorem dotted_chars (value : Nat) : ∀ c ∈ renderAddress 32 value, (c.isDigit || c == '.') = true := by
  intro c member
  rw [renderAddress_narrow] at member
  cases mem_intercalate member with
  | inl point => rw [point]; rfl
  | inr inside =>
      obtain ⟨part, found, inside⟩ := inside
      obtain ⟨n, _, rfl⟩ := List.mem_map.mp found
      rw [toDigits_isDigit n c inside, Bool.true_or]

theorem colons_chars (value : Nat) : ∀ c ∈ renderAddress 128 value, (isHexDigit c || c == ':') = true := by
  intro c member
  rw [renderAddress_wide] at member
  cases mem_intercalate member with
  | inl colon => rw [colon]; rfl
  | inr inside =>
      obtain ⟨part, found, inside⟩ := inside
      rw [chunks_hex _ _ _ part found c inside, Bool.true_or]

/-- An address is an IPv4 or an IPv6 one. -/
theorem address_bound {input : List Char} {bits value : Nat} (reads : address input = some (bits, value)) :
    (bits = 32 ∨ bits = 128) ∧ value < 2 ^ bits := by
  rw [address] at reads
  split_ifs at reads
  · obtain ⟨n, found, same⟩ := Option.map_eq_some_iff.mp reads
    cases same
    exact ⟨.inr rfl, ipv6_bound found⟩
  · obtain ⟨n, found, same⟩ := Option.map_eq_some_iff.mp reads
    cases same
    exact ⟨.inl rfl, ipv4_bound found⟩

/-- Every address that is written is read back as its number. -/
theorem address_render {bits value : Nat} (known : bits = 32 ∨ bits = 128) (bound : value < 2 ^ bits) :
    address (renderAddress bits value) = some (bits, value) := by
  rw [address]
  cases known with
  | inl narrow =>
      subst narrow
      have plain : (renderAddress 32 value).contains ':' = false := by
        rw [List.contains_eq_mem, decide_eq_false_iff_not]
        intro colon
        have kinds := dotted_chars value ':' colon
        cases kinds
      rw [plain, renderAddress_narrow, ipv4_render bound]
      rfl
  | inr wide =>
      subst wide
      have colon : (renderAddress 128 value).contains ':' = true := by
        rw [List.contains_iff_mem]
        exact colon_mem value
      rw [colon, ipv6_render bound]
      rfl

/-! ### Networks -/

/-- An address with a number after it is a network exactly when its host bits are zero. -/
theorem network_parts {input host size : List Char} {bits value : Nat} (parts : input.splitOn '/' = [host, size])
    (full : size ≠ []) (short : size.length ≤ 3) (digit : ∀ c ∈ size, c.isDigit = true)
    (reading : address host = some (bits, value)) :
    network input = if numeralValue 10 size ≤ bits ∧ value % 2 ^ (bits - numeralValue 10 size) = 0 then
      some (renderAddress bits value ++ '/' :: Nat.toDigits 10 (numeralValue 10 size)) else none := by
  have some' : size.isEmpty = false := by simp [full]
  rw [network, parts]
  dsimp only
  rw [some', List.all_eq_true.mpr digit, decide_eq_true short, if_pos (by decide), reading]
  dsimp only [Option.bind_eq_bind, Option.bind_some]
  by_cases zero : numeralValue 10 size ≤ bits ∧ value % 2 ^ (bits - numeralValue 10 size) = 0
  · rw [if_neg (by omega), if_pos zero]
  · rw [if_pos (by omega), if_neg zero]

theorem network_some {input text : List Char} (reads : network input = some text) :
    ∃ host size bits value, input.splitOn '/' = [host, size] ∧ address host = some (bits, value) ∧
      numeralValue 10 size ≤ bits ∧ value % 2 ^ (bits - numeralValue 10 size) = 0 ∧
      text = renderAddress bits value ++ '/' :: Nat.toDigits 10 (numeralValue 10 size) := by
  rw [network] at reads
  split at reads
  · rename_i host size parts
    obtain ⟨digit, reads⟩ := Option.ite_none_right_eq_some.mp reads
    obtain ⟨found, reading, reads⟩ := Option.bind_eq_some_iff.mp reads
    dsimp only at reads
    obtain ⟨fits, reads⟩ := Option.ite_none_left_eq_some.mp reads
    cases reads
    simp only [not_or, Nat.not_lt, Decidable.not_not] at fits
    exact ⟨host, size, found.1, found.2, parts, reading, fits.1, fits.2, rfl⟩
  · cases reads

theorem slash_not_address {bits : Nat} (known : bits = 32 ∨ bits = 128) (value : Nat) : '/' ∉ renderAddress bits value := by
  intro slash
  cases known with
  | inl narrow =>
      subst narrow
      have kinds := dotted_chars value '/' slash
      cases kinds
  | inr wide =>
      subst wide
      have kinds := colons_chars value '/' slash
      cases kinds

theorem splitOn_network {bits : Nat} (known : bits = 32 ∨ bits = 128) (value shared : Nat) :
    (renderAddress bits value ++ '/' :: Nat.toDigits 10 shared).splitOn '/' =
      [renderAddress bits value, Nat.toDigits 10 shared] := by
  have digit : '/' ∉ Nat.toDigits 10 shared := not_mem_of_all (toDigits_isDigit shared) rfl
  rw [List.splitOn_append_cons_self_of_not_mem (slash_not_address known value), List.splitOn_eq_singleton digit]

/-- A network is accepted in its canonical form if and only if its host bits are zero. -/
theorem network_render {bits value shared : Nat} (known : bits = 32 ∨ bits = 128) (bound : value < 2 ^ bits)
    (fits : shared ≤ bits) :
    network (renderAddress bits value ++ '/' :: Nat.toDigits 10 shared) =
      if value % 2 ^ (bits - shared) = 0 then some (renderAddress bits value ++ '/' :: Nat.toDigits 10 shared) else none := by
  have short : (Nat.toDigits 10 shared).length ≤ 3 := (Nat.length_toDigits_le_iff (by decide) (by decide)).mpr (by omega)
  rw [network_parts (splitOn_network known value shared) Nat.toDigits_ne_nil short (toDigits_isDigit shared)
    (address_render known bound), numeralValue_toDigits (by decide) (by decide)]
  simp only [fits, true_and]

end ChuSQL.Model
