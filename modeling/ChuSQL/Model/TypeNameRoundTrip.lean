import ChuSQL.Model.RoundTrip
import ChuSQL.Model.TypeNames

/-! Reading a type name gives back the type it is the name of. -/

set_option autoImplicit false

namespace ChuSQL.Model

open Library

/-! ### Types that resolve -/

theorem resolveTypes_nil {arguments : List TypeExpr} (resolves : resolveTypes builtinTypes arguments = .ok []) :
    arguments = [] := by
  cases arguments with
  | nil => rfl
  | cons first rest =>
      obtain ⟨_, _, resolves⟩ := bind_eq_ok.mp resolves
      obtain ⟨_, _, made⟩ := bind_eq_ok.mp resolves
      cases made

theorem resolveTypes_single {arguments : List TypeExpr} {descriptor : TypeDescriptor}
    (resolves : resolveTypes builtinTypes arguments = .ok [descriptor]) :
    ∃ child, arguments = [child] ∧ resolveType builtinTypes child = .ok descriptor := by
  cases arguments with
  | nil => cases resolves
  | cons first rest =>
      obtain ⟨inner, child, resolves⟩ := bind_eq_ok.mp resolves
      obtain ⟨others, later, made⟩ := bind_eq_ok.mp resolves
      cases made
      cases resolveTypes_nil later
      exact ⟨first, rfl, child⟩

theorem applyConstructor_cases {constructor : Int64} {kind : Kind} {parts : List PhysicalType} {physical : PhysicalType}
    (made : applyConstructor constructor kind parts = some physical) :
    (parts = [] ∧ (constructor = 1 ∨ constructor = 2 ∨ constructor = 3 ∨ constructor = 4)) ∨
      (∃ child, parts = [child] ∧ (constructor = 5 ∨ constructor = 6)) ∨ constructor = 7 := by
  rw [applyConstructor.eq_def] at made
  split at made
  · exact .inl ⟨rfl, .inl rfl⟩
  · exact .inl ⟨rfl, .inr (.inl rfl)⟩
  · exact .inl ⟨rfl, .inr (.inr (.inl rfl))⟩
  · exact .inl ⟨rfl, .inr (.inr (.inr rfl))⟩
  · exact .inr (.inl ⟨_, rfl, .inl rfl⟩)
  · exact .inr (.inl ⟨_, rfl, .inr rfl⟩)
  · exact .inr (.inr rfl)
  · cases made

/-- What a type that resolves is made of. -/
theorem resolves_cases {constructor : Int64} {arguments : List TypeExpr} {descriptor : TypeDescriptor}
    (resolves : resolveType builtinTypes (.apply constructor arguments) = .ok descriptor) :
    (arguments = [] ∧ (constructor = 1 ∨ constructor = 2 ∨ constructor = 3 ∨ constructor = 4)) ∨
      (∃ child inner, arguments = [child] ∧ (constructor = 5 ∨ constructor = 6) ∧
        resolveType builtinTypes child = .ok inner) ∨
      (constructor = 7 ∧ ∃ fields, resolveTypes builtinTypes arguments = .ok fields) := by
  rw [resolveType] at resolves
  obtain ⟨⟨name, kind⟩, known, resolves⟩ := bind_eq_ok.mp resolves
  obtain ⟨children, resolved, resolves⟩ := bind_eq_ok.mp resolves
  obtain ⟨physical, applied, _⟩ := bind_eq_ok.mp resolves
  split at applied
  · rename_i made
    obtain ⟨none, small⟩ | ⟨child, one, nested⟩ | tuple := applyConstructor_cases made
    · rw [List.map_eq_nil_iff.mp none] at resolved
      exact .inl ⟨resolveTypes_nil resolved, small⟩
    · obtain ⟨inner, rfl, _⟩ := List.map_eq_singleton_iff.mp one
      obtain ⟨argument, only, resolves⟩ := resolveTypes_single resolved
      exact .inr (.inl ⟨argument, inner, only, nested, resolves⟩)
    · exact .inr (.inr ⟨tuple, children, resolved⟩)
  · cases applied

/-! ### Type expressions -/

theorem render_list (child : TypeExpr) :
    (renderTypeExpr (.apply 5 [child])).toList = '[' :: ((renderTypeExpr child).toList ++ [']']) := by
  have same : renderTypeExpr (.apply 5 [child]) = "[" ++ renderTypeExpr child ++ "]" := rfl
  simp [same]

theorem render_maybe (child : TypeExpr) :
    (renderTypeExpr (.apply 6 [child])).toList = "Maybe ".toList ++ (renderTypeExpr child).toList := by
  have same : renderTypeExpr (.apply 6 [child]) = "Maybe " ++ renderTypeExpr child := rfl
  simp [same]

theorem render_tuple (fields : List TypeExpr) :
    (renderTypeExpr (.apply 7 fields)).toList = '(' :: ((joinTypes fields).toList ++ [')']) := by
  have same : renderTypeExpr (.apply 7 fields) = "(" ++ joinTypes fields ++ ")" := by
    cases fields <;> rfl
  simp [same]

/-- Every type begins with a letter or an opening bracket. -/
theorem render_head {e : TypeExpr} {descriptor : TypeDescriptor} (resolves : resolveType builtinTypes e = .ok descriptor) :
    ∃ c rest, (renderTypeExpr e).toList = c :: rest ∧ isSpace c = false ∧ c ≠ ')' := by
  obtain ⟨constructor, arguments⟩ := e
  obtain ⟨rfl, rfl | rfl | rfl | rfl⟩ | ⟨child, inner, rfl, rfl | rfl, _⟩ | ⟨rfl, fields, _⟩ := resolves_cases resolves
  · exact ⟨_, _, rfl, rfl, by decide⟩
  · exact ⟨_, _, rfl, rfl, by decide⟩
  · exact ⟨_, _, rfl, rfl, by decide⟩
  · exact ⟨_, _, rfl, rfl, by decide⟩
  · exact ⟨_, _, render_list child, rfl, by decide⟩
  · exact ⟨_, _, render_maybe child, rfl, by decide⟩
  · exact ⟨_, _, render_tuple arguments, rfl, by decide⟩

/-- What follows the first field of a tuple. -/
def fieldsText : List TypeExpr → List Char
  | [] => []
  | field :: fields => ", ".toList ++ (renderTypeExpr field).toList ++ fieldsText fields

theorem joinTypes_cons (field : TypeExpr) (fields : List TypeExpr) :
    (joinTypes (field :: fields)).toList = (renderTypeExpr field).toList ++ fieldsText fields := by
  induction fields generalizing field with
  | nil => simp [joinTypes, fieldsText]
  | cons next fields ih => simp [joinTypes, fieldsText, ih next]

theorem field_shorter {field : TypeExpr} {fields : List TypeExpr} (member : field ∈ fields) :
    (renderTypeExpr field).toList.length ≤ (joinTypes fields).toList.length := by
  have within : ∀ rest : List TypeExpr, field ∈ rest → (renderTypeExpr field).toList.length ≤ (fieldsText rest).length := by
    intro rest inside
    induction rest with
    | nil => cases inside
    | cons next rest ih =>
        simp only [fieldsText, List.length_append]
        cases List.mem_cons.mp inside with
        | inl same => subst same; omega
        | inr later => have := ih later; omega
  cases fields with
  | nil => cases member
  | cons first fields =>
      rw [joinTypes_cons, List.length_append]
      cases List.mem_cons.mp member with
      | inl same => subst same; omega
      | inr later => have := within fields later; omega

theorem fieldsText_long (fields : List TypeExpr) : fields.length ≤ (fieldsText fields).length := by
  induction fields with
  | nil => exact Nat.zero_le _
  | cons field fields ih =>
      have comma : ", ".toList.length = 2 := rfl
      simp only [fieldsText, List.length_cons, List.length_append]
      omega

theorem resolves_field {field : TypeExpr} {fields : List TypeExpr} {descriptors : List TypeDescriptor}
    (resolves : resolveTypes builtinTypes fields = .ok descriptors) (member : field ∈ fields) :
    ∃ descriptor, resolveType builtinTypes field = .ok descriptor := by
  induction fields generalizing descriptors with
  | nil => cases member
  | cons first fields ih =>
      obtain ⟨descriptor, here, resolves⟩ := bind_eq_ok.mp resolves
      obtain ⟨others, later, _⟩ := bind_eq_ok.mp resolves
      cases List.mem_cons.mp member with
      | inl same => exact ⟨descriptor, same ▸ here⟩
      | inr inside => exact ih later inside

/-- A text that goes on with neither a letter nor a digit nor an underscore. -/
def Ends (text : List Char) : Prop :=
  ∀ c rest, text = c :: rest → c.toNat < 128 ∧ c.isAlphanum = false ∧ c ≠ '_'

theorem ends_cons {c : Char} (ascii : c.toNat < 128) (other : c.isAlphanum = false) (line : c ≠ '_') (rest : List Char) :
    Ends (c :: rest) := by
  intro d text same
  cases same
  exact ⟨ascii, other, line⟩

theorem symbol_shown (mark : String) (text : List Char) :
    symbol mark (mark.toList ++ text) = [((), text.dropWhile isSpace)] := by
  rw [symbol, Reader.bind_of_one (Reader.string_append _ _)]
  rfl

theorem symbol_other {mark : String} {first : Char} {letters : List Char} (spelled : mark.toList = first :: letters)
    {c : Char} (differ : first ≠ c) (text : List Char) : symbol mark (c :: text) = [] := by
  rw [symbol, spelled]
  exact Reader.bind_of_nil (Reader.string_of_head differ _ _)

theorem dropWhile_head {c : Char} (other : isSpace c = false) (rest : List Char) :
    (c :: rest).dropWhile isSpace = c :: rest := by
  simp [other]

/-- The text after a field, whose mark the next step reads. -/
theorem fieldsText_head (fields : List TypeExpr) (rest : List Char) :
    ∃ c text, fieldsText fields ++ ')' :: rest = c :: text ∧ isSpace c = false ∧ Ends (c :: text) := by
  cases fields with
  | nil => exact ⟨_, _, rfl, rfl, ends_cons (by decide) (by decide) (by decide) _⟩
  | cons field fields => exact ⟨_, _, rfl, rfl, ends_cons (by decide) (by decide) (by decide) _⟩

theorem between_other {Result : Type} {opening closing : String} {first : Char} {letters : List Char}
    (spelled : opening.toList = first :: letters) {c : Char} (differ : first ≠ c) (inner : Reader Result)
    (text : List Char) : between opening closing inner (c :: text) = [] :=
  Reader.bind_of_nil (symbol_other spelled differ text)

theorem between_shown {Result : Type} {opening closing : String} {inner : Reader Result} {result : Result}
    {text left rest : List Char} (visible : text.dropWhile isSpace = text) (reads : inner text = [(result, left)])
    (closes : symbol closing left = [((), rest)]) :
    between opening closing inner (opening.toList ++ text) = [(result, rest)] := by
  have opens := symbol_shown opening text
  rw [visible] at opens
  rw [between, Reader.bind_of_one opens, Reader.bind_of_one reads, Reader.bind_of_one closes, Reader.pure_apply]

section Expression

variable [Letters]

theorem characters_shown {shown word : List Char} (ascii : ∀ c ∈ shown, c.toNat < 128)
    (spells : shown.map Char.toLower = word) (rest : List Char) :
    characters word (shown ++ rest) = [((), rest)] := by
  induction shown generalizing word with
  | nil =>
      cases spells
      rfl
  | cons c shown ih =>
      cases spells
      have first : character c.toLower (c :: (shown ++ rest)) = [(c, shown ++ rest)] := by
        simp [character, Reader.satisfy, Letters.toLower_ascii c (ascii c List.mem_cons_self)]
      rw [List.map_cons, characters, List.cons_append, Reader.bind_of_one first]
      exact ih (fun d member => ascii d (List.mem_cons_of_mem _ member)) rfl

theorem token_shown {shown : List Char} {word : String} (ascii : ∀ c ∈ shown, c.toNat < 128)
    (spells : shown.map Char.toLower = word.toList) {rest : List Char} (ends : Ends rest) :
    token word (shown ++ rest) = [((), rest.dropWhile isSpace)] := by
  rw [token, Reader.bind_of_one (characters_shown ascii spells rest)]
  rw [@Reader.bind_of_one _ _ Reader.look _ rest rest rest rfl]
  cases rest with
  | nil => rfl
  | cons c rest =>
      obtain ⟨small, other, line⟩ := ends c rest rfl
      simp [Letters.isAlphaNum_ascii c small, other, line, skipSpaces, Reader.skip]

/-- A keyword is not read where another letter stands. -/
theorem token_other {word : String} {first : Char} {letters : List Char} (spelled : word.toList = first :: letters)
    {c : Char} (ascii : c.toNat < 128) (differ : c.toLower ≠ first) (text : List Char) : token word (c :: text) = [] := by
  have none : character first (c :: text) = [] := by
    simp [character, Reader.satisfy, Letters.toLower_ascii c ascii, differ]
  rw [token, spelled, characters]
  exact Reader.bind_of_nil (Reader.bind_of_nil none)

/-- The fields are read one by one, and the closing bracket is found after the last only. -/
theorem many_fields {depth : Nat} {fields : List TypeExpr}
    (each : ∀ field ∈ fields, (∃ c text, (renderTypeExpr field).toList = c :: text ∧ isSpace c = false) ∧
      ∀ rest, Ends rest → expression depth ((renderTypeExpr field).toList ++ rest) = [(field, rest.dropWhile isSpace)])
    {bound : Nat} (enough : fields.length ≤ bound) (rest : List Char) :
    ((Reader.manyWithin (do symbol ","; expression depth) bound) (fieldsText fields ++ ')' :: rest)).flatMap
        (fun found => (symbol ")" found.2).map fun closed => (found.1, closed.2)) =
      [(fields, rest.dropWhile isSpace)] := by
  induction fields generalizing bound with
  | nil =>
      have closes : symbol ")" (')' :: rest) = [((), rest.dropWhile isSpace)] := symbol_shown ")" rest
      cases bound with
      | zero => simp [Reader.manyWithin, Reader.succeed, fieldsText, closes]
      | succ bound =>
          have none : symbol "," (')' :: rest) = [] := symbol_other (by rfl) (by decide) rest
          simp [Reader.manyWithin, Reader.either, Reader.succeed, fieldsText, closes, none]
  | cons field fields ih =>
      cases bound with
      | zero => simp at enough
      | succ bound =>
          obtain ⟨⟨c, text, shown, visible⟩, reads⟩ := each field List.mem_cons_self
          obtain ⟨mark, after, next, plain, ends⟩ := fieldsText_head fields rest
          have opens : symbol "," (fieldsText (field :: fields) ++ ')' :: rest) =
              [((), (renderTypeExpr field).toList ++ (fieldsText fields ++ ')' :: rest))] := by
            have step := symbol_shown "," (' ' :: ((renderTypeExpr field).toList ++ (fieldsText fields ++ ')' :: rest)))
            rw [shown] at step ⊢
            have blank : isSpace ' ' = true := rfl
            simpa [fieldsText, shown, visible, blank] using step
          have first : (do symbol ","; expression depth : Reader TypeExpr) (fieldsText (field :: fields) ++ ')' :: rest) =
              [(field, fieldsText fields ++ ')' :: rest)] := by
            rw [Reader.bind_of_one opens, next, reads _ ends, dropWhile_head plain]
          have closed : symbol ")" (fieldsText (field :: fields) ++ ')' :: rest) = [] := by
            exact symbol_other (by rfl) (by decide) _
          have later := ih (fun other member => each other (List.mem_cons_of_mem _ member))
            (Nat.le_of_succ_le_succ enough)
          rw [Reader.manyWithin, Reader.either, Reader.succeed, Reader.bind_of_one first]
          simp only [List.cons_append, List.nil_append, List.flatMap_cons, closed, List.map_nil, List.nil_append,
            Reader.bind_apply, List.flatMap_assoc, Reader.pure_apply, List.flatMap_cons, List.flatMap_nil, List.append_nil]
          have grown := congrArg (List.map fun found : List TypeExpr × List Char => (field :: found.1, found.2)) later
          simpa [List.map_flatMap, Function.comp_def] using grown

section Alternatives

variable {Result : Type} {c : Char} {text : List Char}

theorem keyword_other {word : String} {first : Char} {letters : List Char} (spelled : word.toList = first :: letters)
    (ascii : c.toNat < 128) (differ : c.toLower ≠ first) (rest : Reader Result) :
    (do token word; rest : Reader Result) (c :: text) = [] :=
  Reader.bind_of_nil (token_other spelled ascii differ text)

/-- Past the four plain types. -/
theorem expression_nested (depth : Nat) (ascii : c.toNat < 128)
    (differ : c.toLower ≠ 'i' ∧ c.toLower ≠ 'd' ∧ c.toLower ≠ 'b' ∧ c.toLower ≠ 's') :
    expression (depth + 1) (c :: text) =
      (Reader.orElse (listType <$> between "[" "]" (expression depth)) <|
        Reader.orElse (listType <$> do token "list"; expression depth) <|
        Reader.orElse (maybeType <$> do token "maybe"; expression depth) <|
        tupleType <$> between "(" ")" (Reader.sepBy (expression depth) (symbol ","))) (c :: text) := by
  have int := @keyword_other _ _ c text "int" _ _ rfl ascii differ.1 (pure intType)
  have double := @keyword_other _ _ c text "double" _ _ rfl ascii differ.2.1 (pure doubleType)
  have bool := @keyword_other _ _ c text "bool" _ _ rfl ascii differ.2.2.1 (pure boolType)
  have string := @keyword_other _ _ c text "string" _ _ rfl ascii differ.2.2.2 (pure stringType)
  rw [expression, Reader.orElse_of_nil int, Reader.orElse_of_nil double, Reader.orElse_of_nil bool,
    Reader.orElse_of_nil string]

end Alternatives

/-- No type begins with a closing bracket. -/
theorem expression_close (depth : Nat) (rest : List Char) : expression depth (')' :: rest) = [] := by
  cases depth with
  | zero => rfl
  | succ depth =>
      have bracket := @between_other _ "[" "]" _ _ rfl ')' (by decide) (expression depth) rest
      have list := @keyword_other _ _ ')' rest "list" _ _ rfl (by decide) (by decide) (expression depth)
      have maybe := @keyword_other _ _ ')' rest "maybe" _ _ rfl (by decide) (by decide) (expression depth)
      have tuple := @between_other _ "(" ")" _ _ rfl ')' (by decide) (Reader.sepBy (expression depth) (symbol ",")) rest
      rw [expression_nested depth (by decide) (by decide), Reader.orElse_of_nil (Reader.map_of_nil bracket),
        Reader.orElse_of_nil (Reader.map_of_nil list), Reader.orElse_of_nil (Reader.map_of_nil maybe)]
      exact Reader.map_of_nil tuple

/-- The fields of a tuple are read in one way. -/
theorem fields_render {depth : Nat} {fields : List TypeExpr}
    (each : ∀ field ∈ fields, (∃ c text, (renderTypeExpr field).toList = c :: text ∧ isSpace c = false ∧ c ≠ ')') ∧
      ∀ rest, Ends rest → expression depth ((renderTypeExpr field).toList ++ rest) = [(field, rest.dropWhile isSpace)])
    (closed : ∀ rest, expression depth (')' :: rest) = []) (rest : List Char) :
    between "(" ")" (Reader.sepBy (expression depth) (symbol ",")) ('(' :: ((joinTypes fields).toList ++ ')' :: rest)) =
      [(fields, rest.dropWhile isSpace)] := by
  cases fields with
  | nil =>
      have none : Reader.sepBy (expression depth) (symbol ",") (')' :: rest) = [([], ')' :: rest)] := by
        rw [Reader.sepBy, Reader.option, Reader.either, Reader.bind_of_nil (closed rest)]
        rfl
      exact @between_shown _ "(" ")" _ _ (')' :: rest) _ _ rfl none (symbol_shown ")" rest)
  | cons field fields =>
      obtain ⟨⟨c, text, shown, visible, open'⟩, reads⟩ := each field List.mem_cons_self
      obtain ⟨mark, after, next, plain, ends⟩ := fieldsText_head fields rest
      have start : (joinTypes (field :: fields)).toList ++ ')' :: rest =
          (renderTypeExpr field).toList ++ (fieldsText fields ++ ')' :: rest) := by
        rw [joinTypes_cons, List.append_assoc]
      have first : expression depth ((joinTypes (field :: fields)).toList ++ ')' :: rest) =
          [(field, fieldsText fields ++ ')' :: rest)] := by
        rw [start, next, reads _ ends, dropWhile_head plain]
      have opens : symbol "(" ('(' :: ((joinTypes (field :: fields)).toList ++ ')' :: rest)) =
          [((), (joinTypes (field :: fields)).toList ++ ')' :: rest)] := by
        have step := symbol_shown "(" ((joinTypes (field :: fields)).toList ++ ')' :: rest)
        rw [start, shown, List.cons_append, dropWhile_head visible] at step
        rw [start, shown, List.cons_append]
        exact step
      have early : symbol ")" ((joinTypes (field :: fields)).toList ++ ')' :: rest) = [] := by
        rw [start, shown, List.cons_append]
        exact symbol_other rfl (Ne.symm open') _
      have enough : fields.length ≤ (fieldsText fields ++ ')' :: rest).length := by
        have long := fieldsText_long fields
        rw [List.length_append]
        omega
      have later := many_fields (fun other member =>
        ⟨let ⟨c, text, shown, visible, _⟩ := (each other (List.mem_cons_of_mem _ member)).1; ⟨c, text, shown, visible⟩,
          (each other (List.mem_cons_of_mem _ member)).2⟩) enough rest
      have grown := congrArg (List.map fun found : List TypeExpr × List Char => (field :: found.1, found.2)) later
      rw [between, Reader.bind_of_one opens, Reader.bind_apply, Reader.sepBy, Reader.option, Reader.either,
        Reader.bind_of_one first]
      simp only [Reader.succeed, List.flatMap_append, Reader.bind_apply, Reader.pure_apply, List.flatMap_assoc,
        List.flatMap_cons, List.flatMap_nil, List.append_nil, early, Reader.many]
      simpa [List.map_flatMap, Function.comp_def, List.map_eq_flatMap, List.flatMap_assoc] using grown

/-- The text of a type that resolves is read as the type, in one way. -/
theorem expression_render {depth : Nat} {e : TypeExpr} {descriptor : TypeDescriptor}
    (resolves : resolveType builtinTypes e = .ok descriptor) (deep : (renderTypeExpr e).toList.length ≤ depth)
    {rest : List Char} (ends : Ends rest) :
    expression depth ((renderTypeExpr e).toList ++ rest) = [(e, rest.dropWhile isSpace)] := by
  induction depth generalizing e descriptor rest with
  | zero =>
      obtain ⟨c, text, shown, _⟩ := render_head resolves
      rw [shown] at deep
      cases deep
  | succ depth ih =>
      obtain ⟨constructor, arguments⟩ := e
      obtain ⟨rfl, rfl | rfl | rfl | rfl⟩ | ⟨child, inner, rfl, rfl | rfl, resolved⟩ | ⟨rfl, fields, resolved⟩ :=
        resolves_cases resolves
      · have read := @token_shown _ ['I', 'n', 't'] "int" (by simp) rfl rest ends
        rw [expression]
        exact Reader.orElse_of_one (Reader.bind_of_one read)
      · have read := @token_shown _ ['D', 'o', 'u', 'b', 'l', 'e'] "double" (by simp) rfl rest ends
        have int := @keyword_other _ _ 'D' (['o', 'u', 'b', 'l', 'e'] ++ rest) "int" _ _ rfl (by decide) (by decide)
          (pure intType)
        rw [expression]
        exact (Reader.orElse_of_nil int).trans (Reader.orElse_of_one (Reader.bind_of_one read))
      · have read := @token_shown _ ['B', 'o', 'o', 'l'] "bool" (by simp) rfl rest ends
        have int := @keyword_other _ _ 'B' (['o', 'o', 'l'] ++ rest) "int" _ _ rfl (by decide) (by decide) (pure intType)
        have double := @keyword_other _ _ 'B' (['o', 'o', 'l'] ++ rest) "double" _ _ rfl (by decide) (by decide)
          (pure doubleType)
        rw [expression]
        exact (Reader.orElse_of_nil int).trans ((Reader.orElse_of_nil double).trans
          (Reader.orElse_of_one (Reader.bind_of_one read)))
      · have read := @token_shown _ ['S', 't', 'r', 'i', 'n', 'g'] "string" (by simp) rfl rest ends
        have other := fun word first letters spelled differ type =>
          @keyword_other _ _ 'S' (['t', 'r', 'i', 'n', 'g'] ++ rest) word first letters spelled (by decide) differ
            (pure type : Reader TypeExpr)
        rw [expression]
        exact (Reader.orElse_of_nil (other "int" _ _ rfl (by decide) intType)).trans
          ((Reader.orElse_of_nil (other "double" _ _ rfl (by decide) doubleType)).trans
            ((Reader.orElse_of_nil (other "bool" _ _ rfl (by decide) boolType)).trans
              (Reader.orElse_of_one (Reader.bind_of_one read))))
      · rw [render_list] at deep ⊢
        obtain ⟨c, text, shown, visible, _⟩ := render_head resolved
        have read := ih resolved (by simp only [List.length_cons, List.length_append] at deep; omega)
          (ends_cons (c := ']') (by decide) (by decide) (by decide) rest)
        have head : ((renderTypeExpr child).toList ++ ']' :: rest).dropWhile isSpace =
            (renderTypeExpr child).toList ++ ']' :: rest := by
          rw [shown, List.cons_append, dropWhile_head visible]
        have bracket := @between_shown _ "[" "]" _ _ _ _ _ head (read.trans (by rfl)) (symbol_shown "]" rest)
        rw [List.cons_append, List.append_assoc, expression_nested depth (by decide) (by decide)]
        exact Reader.orElse_of_one (Reader.map_of_one bracket)
      · rw [render_maybe] at deep ⊢
        obtain ⟨c, text, shown, visible, _⟩ := render_head resolved
        have long : "Maybe ".toList.length = 6 := rfl
        have read := ih resolved (by simp only [List.length_append] at deep; omega) ends
        have word := @token_shown _ ['M', 'a', 'y', 'b', 'e'] "maybe" (by simp) rfl
          (' ' :: ((renderTypeExpr child).toList ++ rest)) (ends_cons (by decide) (by decide) (by decide) _)
        have blank : (' ' :: ((renderTypeExpr child).toList ++ rest)).dropWhile isSpace =
            (renderTypeExpr child).toList ++ rest := by
          have space : isSpace ' ' = true := rfl
          rw [shown, List.dropWhile_cons, if_pos space, List.cons_append, dropWhile_head visible]
        rw [blank] at word
        have bracket := @between_other _ "[" "]" _ _ rfl 'M' (by decide) (expression depth)
          (['a', 'y', 'b', 'e', ' '] ++ ((renderTypeExpr child).toList ++ rest))
        have list := @keyword_other _ _ 'M' (['a', 'y', 'b', 'e', ' '] ++ ((renderTypeExpr child).toList ++ rest)) "list" _ _
          rfl (by decide) (by decide) (expression depth)
        have nested := @expression_nested _ 'M' (['a', 'y', 'b', 'e', ' '] ++ ((renderTypeExpr child).toList ++ rest)) depth
          (by decide) (by decide)
        rw [List.append_assoc]
        refine nested.trans ((Reader.orElse_of_nil (Reader.map_of_nil bracket)).trans
          ((Reader.orElse_of_nil (Reader.map_of_nil list)).trans (Reader.orElse_of_one (Reader.map_of_one ?_))))
        exact (Reader.bind_of_one word).trans read
      · rw [render_tuple] at deep ⊢
        have each : ∀ field ∈ arguments,
            (∃ c text, (renderTypeExpr field).toList = c :: text ∧ isSpace c = false ∧ c ≠ ')') ∧
              ∀ rest, Ends rest →
                expression depth ((renderTypeExpr field).toList ++ rest) = [(field, rest.dropWhile isSpace)] := by
          intro field member
          obtain ⟨descriptor, resolves⟩ := resolves_field resolved member
          have short := field_shorter member
          simp only [List.length_cons, List.length_append] at deep
          exact ⟨render_head resolves, fun rest ends => ih resolves (by omega) ends⟩
        have tuple := fields_render each (expression_close depth) rest
        have bracket := @between_other _ "[" "]" _ _ rfl '(' (by decide) (expression depth)
          ((joinTypes arguments).toList ++ ')' :: rest)
        have list := @keyword_other _ _ '(' ((joinTypes arguments).toList ++ ')' :: rest) "list" _ _
          rfl (by decide) (by decide) (expression depth)
        have maybe := @keyword_other _ _ '(' ((joinTypes arguments).toList ++ ')' :: rest) "maybe" _ _
          rfl (by decide) (by decide) (expression depth)
        rw [List.cons_append, List.append_assoc, expression_nested depth (by decide) (by decide)]
        exact (Reader.orElse_of_nil (Reader.map_of_nil bracket)).trans
          ((Reader.orElse_of_nil (Reader.map_of_nil list)).trans
            ((Reader.orElse_of_nil (Reader.map_of_nil maybe)).trans (Reader.map_of_one tuple)))

/-- The text of a type that resolves is read back. -/
theorem parseTypeExpr_render {e : TypeExpr} {descriptor : TypeDescriptor}
    (resolves : resolveType builtinTypes e = .ok descriptor) : parseTypeExpr (renderTypeExpr e) = .ok e := by
  obtain ⟨c, text, shown, visible, _⟩ := render_head resolves
  have deep : (renderTypeExpr e).toList.length ≤ (renderTypeExpr e).length + 1 := by
    rw [String.length_toList]
    omega
  have read := @expression_render _ _ e descriptor resolves deep [] (fun _ _ none => by cases none)
  rw [List.append_nil] at read
  have start : skipSpaces (renderTypeExpr e).toList = [((), (renderTypeExpr e).toList)] := by
    rw [skipSpaces, Reader.skip, shown, dropWhile_head visible]
  have whole : (do skipSpaces; let type ← expression ((renderTypeExpr e).length + 1); skipSpaces; pure type :
      Reader TypeExpr) (renderTypeExpr e).toList = [(e, [])] := by
    rw [Reader.bind_of_one start, Reader.bind_of_one read]
    rfl
  rw [parseTypeExpr, Reader.unique_of_one whole]

end Expression

/-! ### Names of column types -/

/-- A text without white space that small letters leave as it is. -/
def isPlain (text : List Char) : Bool := text.all fun c => !isSpace c && decide (c.toNat < 128) && c.toLower == c

theorem bracketed_shown (opening : String) (body : List Char) :
    bracketed opening (opening.toList ++ (body ++ [')'])) = some body := by
  simp [bracketed, stripPrefix, stripSuffixMaybe]

theorem filter_plain {text : List Char} (plain : isPlain text = true) : (text.filter fun c => !isSpace c) = text := by
  rw [List.filter_eq_self]
  intro c member
  have here := List.all_eq_true.mp plain c member
  simp only [Bool.and_eq_true] at here
  exact here.1.1

section Plain

variable [Letters]

theorem cleaned_plain {text : List Char} (plain : isPlain text = true) : cleaned text = text := by
  induction text with
  | nil => rfl
  | cons c text ih =>
      rw [isPlain, List.all_cons, Bool.and_eq_true] at plain
      obtain ⟨here, later⟩ := plain
      simp only [Bool.and_eq_true, Bool.not_eq_true', decide_eq_true_eq, beq_iff_eq] at here
      obtain ⟨⟨visible, ascii⟩, small⟩ := here
      have rest := ih later
      rw [cleaned] at rest ⊢
      simp [visible, Letters.toLower_ascii c ascii, small, rest]

/-- A name without brackets. -/
theorem plainType_word {text : List Char} (plain : isPlain text = true) (word : '(' ∉ text) {type : ColumnType}
    (named : namedType (String.ofList text) [] = some (some type)) : plainType text = some type := by
  have before : text.takeWhile (· ≠ '(') = text := List.takeWhile_eq_self_iff.mpr fun c member => by
    simp only [ne_eq, decide_not, Bool.not_eq_true', decide_eq_false_iff_not]
    exact fun same => word (same ▸ member)
  have after : text.dropWhile (· ≠ '(') = [] := List.dropWhile_eq_nil_iff.mpr fun c member => by
    simp only [ne_eq, decide_not, Bool.not_eq_true', decide_eq_false_iff_not]
    exact fun same => word (same ▸ member)
  rw [plainType, cleaned_plain plain, before, after]
  have none : typeArguments [] = [] := rfl
  rw [none, named]

/-- A name with arguments in brackets. -/
theorem plainType_arguments {word inner : List Char} {arguments : List (List Char)} (open' : '(' ∉ word)
    (plainWord : isPlain word = true) (plainInner : isPlain inner = true) (parts : inner.splitOn ',' = arguments)
    (plain : ∀ argument ∈ arguments, isPlain argument = true) {type : ColumnType}
    (named : namedType (String.ofList word) arguments = some (some type)) :
    plainType (word ++ '(' :: (inner ++ [')'])) = some type := by
  have whole : isPlain (word ++ '(' :: (inner ++ [')'])) = true := by
    have brackets : isPlain ['('] = true ∧ isPlain [')'] = true := ⟨rfl, rfl⟩
    simp only [isPlain, List.all_append, List.all_cons, List.all_nil, Bool.and_true] at brackets plainWord plainInner ⊢
    simp only [brackets, plainWord, plainInner, Bool.and_true]
  have before : (word ++ '(' :: (inner ++ [')'])).takeWhile (· ≠ '(') = word := by
    rw [List.takeWhile_append_of_pos (fun c member => by
      simpa using fun same : c = '(' => open' (same ▸ member))]
    simp
  have after : (word ++ '(' :: (inner ++ [')'])).dropWhile (· ≠ '(') = '(' :: (inner ++ [')']) := by
    rw [List.dropWhile_append_of_pos (fun c member => by
      simpa using fun same : c = '(' => open' (same ▸ member))]
    simp
  have read : typeArguments ('(' :: (inner ++ [')'])) = arguments := by
    have inside : stripSuffixMaybe [')'] (inner ++ [')']) = some inner := by
      simp [stripSuffixMaybe]
    rw [typeArguments, List.drop_one, List.tail_cons, inside]
    simp only [parts]
    exact (List.map_congr_left fun argument member => filter_plain (plain argument member)).trans (List.map_id arguments)
  rw [plainType, cleaned_plain whole, before, after, read, named]

end Plain

/-! Sizes are written in digits. -/

theorem isDigit_plain {c : Char} (digit : c.isDigit = true) :
    (!isSpace c && decide (c.toNat < 128) && c.toLower == c) = true ∧ c ≠ ',' := by
  have range : 48 ≤ c.toNat ∧ c.toNat ≤ 57 := by
    simp only [Char.isDigit, Bool.and_eq_true, decide_eq_true_eq] at digit
    exact ⟨digit.1, digit.2⟩
  have all : ∀ n ∈ List.range' 48 10,
      (!isSpace (Char.ofNat n) && decide ((Char.ofNat n).toNat < 128) && (Char.ofNat n).toLower == Char.ofNat n) = true ∧
        Char.ofNat n ≠ ',' := by decide
  have here := all c.toNat (by rw [List.mem_range'_1]; omega)
  rwa [Char.ofNat_toNat] at here

theorem digits_plain (n : Nat) : isPlain (Nat.toDigits 10 n) = true ∧ ',' ∉ Nat.toDigits 10 n := by
  have digit : ∀ c ∈ Nat.toDigits 10 n, c.isDigit = true := fun c member =>
    Nat.isDigit_of_mem_toDigits (by decide) (by decide) member
  constructor
  · exact List.all_eq_true.mpr fun c member => (isDigit_plain (digit c member)).1
  · exact fun member => (isDigit_plain (digit _ member)).2 rfl

theorem positive_digits {n : Int} (small : 0 ≤ n) (machine : n ≤ Int64.maxValue.toInt) :
    positive (Nat.toDigits 10 n.toNat) = some n := by
  have digit : (Nat.toDigits 10 n.toNat).all Char.isDigit = true := List.all_eq_true.mpr fun c member =>
    Nat.isDigit_of_mem_toDigits (by decide) (by decide) member
  have shown : (Nat.toDigits 10 n.toNat).isEmpty = false := by
    simp [Nat.toDigits_ne_nil]
  have whole : (Int64.ofNat n.toNat).toInt = n := by
    have limit : Int64.maxValue.toInt = 2 ^ 63 - 1 := rfl
    rw [Int64.toInt_ofNat_of_lt (by omega)]
    omega
  rw [positive, digit, shown, Nat.ofDigitChars_ten_toDigits, whole]
  rfl

theorem repr_size {n : Int} (small : 0 ≤ n) : n.repr.toList = Nat.toDigits 10 n.toNat := by
  obtain ⟨m, rfl⟩ := Int.eq_ofNat_of_zero_le small
  exact Nat.toList_repr

/-! ### Names that are read back -/

/-- A word is not one of the names with a text of their own in brackets. -/
def isWord (word : List Char) : Bool :=
  isPlain word && !word.contains '(' && (bracketed "enum(" word).isNone && (bracketed "runtime(" word).isNone &&
    (bracketed "domain(" word).isNone

/-- A name with sizes is not one of them either. -/
theorem bracketed_other {opening : String} {word : List Char}
    (differ : opening.toList.isPrefixOf (word ++ ['(']) = false ∧ (word ++ ['(']).isPrefixOf opening.toList = false)
    (rest : List Char) : bracketed opening (word ++ '(' :: rest) = none := by
  have other : opening.toList.isPrefixOf (word ++ '(' :: rest) = false := by
    simp only [Bool.eq_false_iff, ne_eq, List.isPrefixOf_iff_prefix] at differ ⊢
    intro starts
    have begins : word ++ ['('] <+: word ++ '(' :: rest := ⟨rest, by simp⟩
    exact (List.prefix_or_prefix_of_prefix starts begins).elim differ.1 differ.2
  rw [bracketed, stripPrefix, other]
  rfl

theorem parseLabels_strings (labels : List String) : parseLabels (labels.map .string) = some labels := by
  induction labels with
  | nil => rfl
  | cons label labels ih => rw [List.map_cons, parseLabels, ih, Option.map_some]

section Names

variable [Letters] [Decoding]

theorem parseColumnType_plain {raw : List Char} (enum : bracketed "enum(" raw = none)
    (runtime : bracketed "runtime(" raw = none) (domain : bracketed "domain(" raw = none) :
    parseColumnType raw = plainType raw := by
  rw [parseColumnType, enum, runtime]
  dsimp only
  split
  · rename_i parts
    rw [domain] at parts
    cases parts
  · rfl

/-- A word that is the name of a type. -/
theorem parseColumnType_word {word : String} {type : ColumnType} (plain : isWord word.toList = true)
    (named : namedType word [] = some (some type)) : parseColumnType word.toList = some type := by
  simp only [isWord, Bool.and_eq_true, Bool.not_eq_true', Option.isNone_iff_eq_none] at plain
  obtain ⟨⟨⟨⟨plain, bracket⟩, enum⟩, runtime⟩, domain⟩ := plain
  rw [parseColumnType_plain enum runtime domain]
  have open' : '(' ∉ word.toList := by
    simpa using bracket
  refine plainType_word plain open' ?_
  rw [String.ofList_toList]
  exact named

/-- A word with sizes that is the name of a type. -/
theorem parseColumnType_sizes {word : List Char} {inner : List Char} {sizes : List (List Char)} {type : ColumnType}
    (plain : isWord word = true)
    (other : ∀ opening ∈ ["enum(", "runtime(", "domain("],
      opening.toList.isPrefixOf (word ++ ['(']) = false ∧ (word ++ ['(']).isPrefixOf opening.toList = false)
    (plainInner : isPlain inner = true) (parts : inner.splitOn ',' = sizes)
    (plainSizes : ∀ size ∈ sizes, isPlain size = true)
    (named : namedType (String.ofList word) sizes = some (some type)) :
    parseColumnType (word ++ '(' :: (inner ++ [')'])) = some type := by
  have none := fun opening member => bracketed_other (other opening member) (inner ++ [')'])
  simp only [isWord, Bool.and_eq_true, Bool.not_eq_true'] at plain
  have open' : '(' ∉ word := by
    simpa using plain.1.1.1.2
  rw [parseColumnType_plain (none _ (by simp)) (none _ (by simp)) (none _ (by simp))]
  exact plainType_arguments open' plain.1.1.1.1 plainInner parts plainSizes named

/-- The name of a type that a column may have is read back as the type. -/
theorem parseColumnType_typeName [Hashing] {type : ColumnType} (checked : checkTypeParameters type = .ok ())
    (written : isWritten type = true)
    (reads : ∀ json ∈ namedJson type, Decoding.decode (Hashing.encode json) = .ok json) :
    parseColumnType (typeName type).toList = some type := by
  induction type with
  | int => exact @parseColumnType_word _ _ "int" .int (by decide +kernel) rfl
  | bigInt => exact @parseColumnType_word _ _ "bigint" .bigInt (by decide +kernel) rfl
  | smallInt => exact @parseColumnType_word _ _ "smallint" .smallInt (by decide +kernel) rfl
  | str => exact @parseColumnType_word _ _ "str" .str (by decide +kernel) rfl
  | bool => exact @parseColumnType_word _ _ "bool" .bool (by decide +kernel) rfl
  | float => exact @parseColumnType_word _ _ "float" .float (by decide +kernel) rfl
  | double => exact @parseColumnType_word _ _ "double" .double (by decide +kernel) rfl
  | date => exact @parseColumnType_word _ _ "date" .date (by decide +kernel) rfl
  | timestamp => exact @parseColumnType_word _ _ "timestamp" .timestamp (by decide +kernel) rfl
  | blob => exact @parseColumnType_word _ _ "blob" .blob (by decide +kernel) rfl
  | scalar kind =>
      exact @parseColumnType_word _ _ (scalarName kind) (.scalar kind) (by cases kind <;> decide +kernel)
        (by cases kind <;> rfl)
  | null => cases checked
  | varchar length =>
      have positive' : 0 < length := by
        rw [checkTypeParameters] at checked
        split at checked
        · cases checked
        · omega
      have digits := digits_plain length.toNat
      have shown : (typeName (.varchar length)).toList =
          "varchar".toList ++ '(' :: (Nat.toDigits 10 length.toNat ++ [')']) := by
        simp [typeName, repr_size (Int.le_of_lt positive')]
      rw [shown]
      refine parseColumnType_sizes (by decide +kernel) (by decide +kernel) digits.1 (List.splitOn_eq_singleton digits.2)
        (by simpa using digits.1) ?_
      have read := positive_digits (Int.le_of_lt positive') (of_decide_eq_true written)
      rw [String.ofList_toList]
      simp only [namedType, read]
      rfl
  | char length =>
      have positive' : 0 < length := by
        rw [checkTypeParameters] at checked
        split at checked
        · cases checked
        · omega
      have digits := digits_plain length.toNat
      have shown : (typeName (.char length)).toList =
          "char".toList ++ '(' :: (Nat.toDigits 10 length.toNat ++ [')']) := by
        simp [typeName, repr_size (Int.le_of_lt positive')]
      rw [shown]
      refine parseColumnType_sizes (by decide +kernel) (by decide +kernel) digits.1 (List.splitOn_eq_singleton digits.2)
        (by simpa using digits.1) ?_
      have read := positive_digits (Int.le_of_lt positive') (of_decide_eq_true written)
      rw [String.ofList_toList]
      simp only [namedType, read]
      rfl
  | decimal precision scale =>
      have range : 0 < precision ∧ precision ≤ 308 ∧ 0 ≤ scale ∧ scale ≤ precision := by
        rw [checkTypeParameters] at checked
        split at checked
        · cases checked
        · omega
      have limit : Int64.maxValue.toInt = 2 ^ 63 - 1 := rfl
      have first := digits_plain precision.toNat
      have second := digits_plain scale.toNat
      have shown : (typeName (.decimal precision scale)).toList = "decimal".toList ++
          '(' :: ((Nat.toDigits 10 precision.toNat ++ ',' :: Nat.toDigits 10 scale.toNat) ++ [')']) := by
        simp [typeName, repr_size (Int.le_of_lt range.1), repr_size range.2.2.1]
      rw [shown]
      have plain : isPlain (Nat.toDigits 10 precision.toNat ++ ',' :: Nat.toDigits 10 scale.toNat) = true := by
        have comma : isPlain [','] = true := rfl
        have left := first.1
        have right := second.1
        simp only [isPlain, List.all_append, List.all_cons, List.all_nil, Bool.and_true] at comma left right ⊢
        simp only [comma, left, right, Bool.and_true]
      refine parseColumnType_sizes (by decide +kernel) (by decide +kernel) plain
        (List.splitOn_append_cons_self_of_not_mem first.2 _) ?_ ?_
      · rw [List.splitOn_eq_singleton second.2]
        simpa using ⟨first.1, second.1⟩
      · rw [List.splitOn_eq_singleton second.2, String.ofList_toList]
        simp only [namedType, positive_digits (Int.le_of_lt range.1) (by omega), positive_digits range.2.2.1 (by omega)]
        rfl
  | enum name labels =>
      have shown : (typeName (.enum name labels)).toList =
          "enum(".toList ++ ((Hashing.encode (enumTypeJson name labels)).toList ++ [')']) := by
        simp [typeName]
      have valid : validEnumLabels labels = true := by
        rw [checkTypeParameters] at checked
        split at checked
        · assumption
        · cases checked
      have named : name ≠ "" := by
        rintro rfl
        cases written
      have read := reads (enumTypeJson name labels) List.mem_cons_self
      rw [shown, parseColumnType, bracketed_shown]
      simp only [String.ofList_toList, read, Except.toOption, Option.bind_some]
      have parsed : parseEnumType (enumTypeJson name labels) = some (name, labels) := by
        rw [enumTypeJson, parseEnumType, parseLabels_strings, Option.map_some]
      rw [parsed]
      simp [named, valid]
  | domain name base ih =>
      have comma : ',' ∉ name.toList := by
        simp only [isWritten, validTypeName, Bool.and_eq_true, List.all_eq_true] at written
        intro member
        have here := (written.1.2 ',' member).2
        revert here
        decide
      have shown : (typeName (.domain name base)).toList =
          "domain(".toList ++ ((name.toList ++ ',' :: (typeName base).toList) ++ [')']) := by
        simp [typeName]
      have enum : bracketed "enum(" (typeName (.domain name base)).toList = none := by
        rw [shown]
        rfl
      have runtime : bracketed "runtime(" (typeName (.domain name base)).toList = none := by
        rw [shown]
        rfl
      have cut : cutComma (name.toList ++ ',' :: (typeName base).toList) = some (name.toList, (typeName base).toList) := by
        rw [cutComma, List.span_eq_takeWhile_dropWhile]
        have other : ∀ c ∈ name.toList, (decide (c ≠ ',')) = true := fun c member => by
          simpa using fun same : c = ',' => comma (same ▸ member)
        rw [List.takeWhile_append_of_pos other, List.dropWhile_append_of_pos other]
        simp
      have parts : (bracketed "domain(" (typeName (.domain name base)).toList).bind cutComma =
          some (name.toList, (typeName base).toList) := by
        rw [shown, bracketed_shown, Option.bind_some, cut]
      rw [parseColumnType, enum, runtime]
      dsimp only
      split
      · rename_i found
        cases found.symm.trans parts
        have below := ih checked (Bool.and_eq_true_iff.mp written).2 reads
        rw [below, String.ofList_toList]
        rfl
      · rename_i found
        cases found.symm.trans parts
  | runtime id =>
      have shown : (typeName (.runtime id)).toList =
          "runtime(".toList ++ ((Hashing.encode (.array [.number 1, typeJson id.expression])).toList ++ [')']) := by
        simp [typeName, encodeType]
      have enum : bracketed "enum(" (typeName (.runtime id)).toList = none := by
        rw [shown]
        rfl
      have read := reads (.array [.number 1, typeJson id.expression]) List.mem_cons_self
      obtain ⟨descriptor, resolves⟩ : ∃ descriptor, resolveType builtinTypes id.expression = .ok descriptor := by
        rw [checkTypeParameters, describeType] at checked
        cases resolved : resolveType builtinTypes id.expression with
        | error message =>
            rw [resolved] at checked
            cases checked
        | ok descriptor => exact ⟨descriptor, rfl⟩
      obtain ⟨parsed, same⟩ := parseTypeJson_typeJson id.expression resolves
      have decoded : decodeType builtinTypes (Hashing.encode (.array [.number 1, typeJson id.expression])) = .ok id := by
        rw [decodeType, read]
        simp only [bind, Except.bind, parseTypeEnvelope, if_true, parsed, parseEither, resolves, same]
        rfl
      rw [parseColumnType, enum, shown, bracketed_shown]
      simp only [String.ofList_toList, decoded]

/-- Type expressions and the types of columns are read back from their names, and a column
is received as it was sent, its type never taken for text. -/
theorem type_names_round_trip [Hashing] :
    (∀ (e : TypeExpr) (descriptor : TypeDescriptor), resolveType builtinTypes e = .ok descriptor →
        parseTypeExpr (renderTypeExpr e) = .ok e) ∧
      ∀ (name : String) (column : Column), checkTypeParameters column.type = .ok () → isWritten column.type = true →
        (∀ json ∈ namedJson column.type, Decoding.decode (Hashing.encode json) = .ok json) →
        parseColumnType (typeName column.type).toList = some column.type ∧ toColumn (toWire (name, column)) = (name, column) := by
  refine ⟨fun e descriptor resolves => parseTypeExpr_render resolves, fun name column checked written reads => ?_⟩
  have read := parseColumnType_typeName checked written reads
  refine ⟨read, ?_⟩
  rw [toColumn, toWire, read]
  rfl

end Names

/-! ### A domain over an enumeration -/

@[reducible] def asciiLetters : Letters := ⟨Char.isAlphanum, Char.toLower, fun _ _ => rfl, fun _ _ => rfl⟩

/-- The JSON text of one value. -/
@[reducible] def oneText (text : String) : Hashing :=
  ⟨fun _ n => n, fun salt _ => salt, fun salt _ => salt, fun salt _ => salt, fun _ => text⟩

@[reducible] def oneValue (text : String) (json : Json) : Decoding :=
  ⟨fun given => if given = text then .ok json else .error "unexpected text"⟩

theorem domain_name_round_trip :
    @parseColumnType asciiLetters (oneValue "[\"mood\",[\"a,b)\"]]" (enumTypeJson "mood" ["a,b)"]))
        (@typeName (oneText "[\"mood\",[\"a,b)\"]]") (.domain "feeling" (.enum "mood" ["a,b)"]))).toList =
      some (.domain "feeling" (.enum "mood" ["a,b)"])) ∧
    @parseTypeExpr asciiLetters "(Maybe [Int], String)" = .ok (tupleType [maybeType (listType intType), stringType]) := by
  have both := @type_names_round_trip asciiLetters
    (oneValue "[\"mood\",[\"a,b)\"]]" (enumTypeJson "mood" ["a,b)"])) (oneText "[\"mood\",[\"a,b)\"]]")
  refine ⟨(both.2 "c" (plainColumn (.domain "feeling" (.enum "mood" ["a,b)"]))) (by decide +kernel) (by decide +kernel) ?_).1,
    both.1 (tupleType [maybeType (listType intType), stringType]) _ rfl⟩
  intro json member
  cases List.mem_singleton.mp member
  rfl

end ChuSQL.Model
