import ChuSQL.Library.Reading
import ChuSQL.Model.Encoding
import ChuSQL.Model.Table

/-! The names of column types, as they are stored and sent, and what they are read as. -/

set_option autoImplicit false

namespace ChuSQL.Model

open Library

/-- The classes of letters and their cases, which are plain on the ASCII characters. -/
class Letters where
  isAlphaNum : Char → Bool
  toLower : Char → Char
  isAlphaNum_ascii : ∀ c : Char, c.toNat < 128 → isAlphaNum c = c.isAlphanum
  toLower_ascii : ∀ c : Char, c.toNat < 128 → toLower c = c.toLower

/-- The JSON value of a text. -/
class Decoding where
  decode : String → Except String Json

/-- The white space of Unicode. -/
def isSpace (c : Char) : Bool :=
  c == ' ' || decide (9 ≤ c.toNat ∧ c.toNat ≤ 13) || decide (0x2000 ≤ c.toNat ∧ c.toNat ≤ 0x200A) ||
    [0xA0, 0x1680, 0x202F, 0x205F, 0x3000].contains c.toNat

/-! ### Type expressions -/

section Expression

variable [Letters]

def skipSpaces : Reader Unit := Reader.skip isSpace

/-- A letter in either case. -/
def character (c : Char) : Reader Char := Reader.satisfy fun ch => Letters.toLower ch == c

def characters : List Char → Reader Unit
  | [] => pure ()
  | c :: word => do
      let _ ← character c
      characters word

/-- A keyword, which ends where no letter, digit or underscore follows. -/
def token (word : String) : Reader Unit := do
  characters word.toList
  let rest ← Reader.look
  match rest with
  | c :: _ => if Letters.isAlphaNum c || c == '_' then Reader.fail else skipSpaces
  | [] => skipSpaces

def symbol (text : String) : Reader Unit := do
  Reader.string text.toList
  skipSpaces

def between {Result : Type} (opening closing : String) (inner : Reader Result) : Reader Result := do
  symbol opening
  let result ← inner
  symbol closing
  pure result

def listType (child : TypeExpr) : TypeExpr := .apply 5 [child]
def maybeType (child : TypeExpr) : TypeExpr := .apply 6 [child]
def tupleType (fields : List TypeExpr) : TypeExpr := .apply 7 fields

/-- A type nested at most so deep. -/
def expression : Nat → Reader TypeExpr
  | 0 => Reader.fail
  | depth + 1 =>
      Reader.orElse (do token "int"; pure intType) <|
      Reader.orElse (do token "double"; pure doubleType) <|
      Reader.orElse (do token "bool"; pure boolType) <|
      Reader.orElse (do token "string"; pure stringType) <|
      Reader.orElse (listType <$> between "[" "]" (expression depth)) <|
      Reader.orElse (listType <$> do token "list"; expression depth) <|
      Reader.orElse (maybeType <$> do token "maybe"; expression depth) <|
      tupleType <$> between "(" ")" (Reader.sepBy (expression depth) (symbol ","))

/-- Each type inside another takes a character, so the length of the text is deep enough. -/
def parseTypeExpr (source : String) : Except String TypeExpr :=
  match Reader.unique (do skipSpaces; let type ← expression (source.length + 1); skipSpaces; pure type) source.toList with
  | some type => .ok type
  | none => .error "invalid runtime type expression"

end Expression

/-! ### Names of column types -/

section Names

def parseTypeEnvelope : Json → Except String TypeExpr
  | .array [.number version, expression] =>
      if version = 1 then parseTypeJson expression
      else .error "unsupported type encoding version or invalid envelope"
  | .array _ => .error "unsupported type encoding version or invalid envelope"
  | _ => .error "invalid type envelope"

def decodeType [Decoding] (registry : TypeRegistry) (text : String) : Except String TypeId := do
  let json ← Decoding.decode text
  let expression ← parseEither (parseTypeEnvelope json)
  let descriptor ← resolveType registry expression
  pure descriptor.id

/-- The name of an enumeration with its labels. -/
def enumTypeJson (name : String) (labels : List String) : Json := .array [.string name, .array (labels.map .string)]

def parseLabels : List Json → Option (List String)
  | [] => some []
  | .string label :: rest => (parseLabels rest).map (label :: ·)
  | _ => none

def parseEnumType : Json → Option (String × List String)
  | .array [.string name, .array labels] => (parseLabels labels).map fun labels => (name, labels)
  | _ => none

def typeName [Hashing] : ColumnType → String
  | .int => "int"
  | .bigInt => "bigint"
  | .smallInt => "smallint"
  | .str => "str"
  | .enum name labels => "enum(" ++ Hashing.encode (enumTypeJson name labels) ++ ")"
  | .varchar length => "varchar(" ++ toString length ++ ")"
  | .char length => "char(" ++ toString length ++ ")"
  | .bool => "bool"
  | .float => "float"
  | .double => "double"
  | .decimal precision scale => "decimal(" ++ toString precision ++ "," ++ toString scale ++ ")"
  | .date => "date"
  | .timestamp => "timestamp"
  | .blob => "blob"
  | .scalar kind => scalarName kind
  | .null => "null"
  | .domain name base => "domain(" ++ name ++ "," ++ typeName base ++ ")"
  | .runtime id => "runtime(" ++ encodeType id ++ ")"

/-! ### Reading a name -/

def scalarTypes : List (String × ScalarType) :=
  [("time", .time), ("timetz", .timeTZ), ("timestamptz", .timestampTZ), ("rfc3339", .timestampTZ), ("uuid", .uuid),
    ("json", .json), ("jsonb", .json), ("inet", .inet), ("cidr", .cidr), ("macaddr", .mac), ("interval", .interval)]

def stripPrefix (start text : List Char) : Option (List Char) :=
  if start.isPrefixOf text then some (text.drop start.length) else none

def stripSuffixMaybe (ending text : List Char) : Option (List Char) :=
  if ending.isSuffixOf text then some (text.take (text.length - ending.length)) else none

/-- What stands between the opening and a closing bracket at the end. -/
def bracketed (opening : String) (raw : List Char) : Option (List Char) :=
  (stripPrefix opening.toList raw).bind (stripSuffixMaybe [')'])

/-- A machine integer written in digits. -/
def positive (text : List Char) : Option Int :=
  if !text.isEmpty && text.all Char.isDigit then some (Int64.ofNat (Nat.ofDigitChars 10 text 0)).toInt else none

/-- Cut at the first comma. -/
def cutComma (text : List Char) : Option (List Char × List Char) :=
  match text.span (· ≠ ',') with
  | (name, _ :: rest) => some (name, rest)
  | (_, []) => none

/-- The type of a name with its arguments, or that there is none, where the name is known. -/
def namedType : String → List (List Char) → Option (Option ColumnType)
  | "int", [] => some (some .int)
  | "integer", [] => some (some .int)
  | "bigint", [] => some (some .bigInt)
  | "smallint", [] => some (some .smallInt)
  | "int2", [] => some (some .smallInt)
  | "int4", [] => some (some .int)
  | "int8", [] => some (some .bigInt)
  | "str", [] => some (some .str)
  | "text", [] => some (some .str)
  | "varchar", [] => some (some .str)
  | "varchar", [n] => some ((positive n).map .varchar)
  | "char", [] => some (some (.char 1))
  | "char", [n] => some ((positive n).map .char)
  | "bool", [] => some (some .bool)
  | "boolean", [] => some (some .bool)
  | "float", [] => some (some .float)
  | "real", [] => some (some .float)
  | "float4", [] => some (some .float)
  | "float8", [] => some (some .double)
  | "double", [] => some (some .double)
  | "decimal", [] => some (some (.decimal 10 0))
  | "numeric", [] => some (some (.decimal 10 0))
  | "decimal", [p] => some ((positive p).map (.decimal · 0))
  | "numeric", [p] => some ((positive p).map (.decimal · 0))
  | "decimal", [p, s] => some ((positive p).bind fun p => (positive s).map (.decimal p))
  | "numeric", [p, s] => some ((positive p).bind fun p => (positive s).map (.decimal p))
  | "date", [] => some (some .date)
  | "timestamp", [] => some (some .timestamp)
  | "datetime", [] => some (some .timestamp)
  | "blob", [] => some (some .blob)
  | "bytea", [] => some (some .blob)
  | "binary", [] => some (some .blob)
  | "varbinary", [] => some (some .blob)
  | name, [] => (lookup name scalarTypes).map fun kind => some (.scalar kind)
  | _, _ => none

/-- The parts of a domain are shorter than its name. -/
theorem domain_shorter {raw name definition : List Char}
    (parts : (bracketed "domain(" raw).bind cutComma = some (name, definition)) : definition.length < raw.length := by
  have shorter : ∀ body, bracketed "domain(" raw = some body → body.length < raw.length := by
    intro body found
    obtain ⟨inner, opened, closed⟩ := Option.bind_eq_some_iff.mp found
    rw [stripPrefix] at opened
    rw [stripSuffixMaybe] at closed
    split at opened
    · rename_i starts
      cases opened
      split at closed
      · cases closed
        have long := (List.isPrefixOf_iff_prefix.mp starts).length_le
        simp only [List.length_take, List.length_drop, List.length_cons, List.length_nil]
        have : "domain(".toList.length = 7 := rfl
        omega
      · cases closed
    · cases opened
  obtain ⟨body, found, cut⟩ := Option.bind_eq_some_iff.mp parts
  have rest : definition.length ≤ body.length := by
    rw [cutComma, List.span_eq_takeWhile_dropWhile] at cut
    split at cut
    · rename_i left comma right equal
      cases cut
      have total := congrArg (fun pair => pair.2.length) equal
      have shrinks := (List.dropWhile_suffix (l := body) (p := fun c => decide (c ≠ ','))).length_le
      simp only [List.length_cons] at total
      omega
    · cases cut
  exact Nat.lt_of_le_of_lt rest (shorter body found)

variable [Letters]

/-- The name without spaces, in small letters. -/
def cleaned (raw : List Char) : List Char := (raw.filter fun c => !isSpace c).map Letters.toLower

/-- What stands in the brackets, cut at the commas. -/
def typeArguments (rest : List Char) : List (List Char) :=
  match stripSuffixMaybe [')'] (rest.drop 1) with
  | none => []
  | some inner => (inner.splitOn ',').map fun part => part.filter fun c => !isSpace c

/-- A name that is no enumeration, runtime type or domain. -/
def plainType (raw : List Char) : Option ColumnType :=
  match namedType (String.ofList ((cleaned raw).takeWhile (· ≠ '(')))
      (typeArguments ((cleaned raw).dropWhile (· ≠ '('))) with
  | some type => type
  | none =>
      match parseTypeExpr (String.ofList raw) >>= resolveType builtinTypes with
      | .ok descriptor => some (.runtime descriptor.id)
      | .error _ => none

variable [Decoding]

/-- The column type of a name, or nothing where it is none. -/
def parseColumnType (raw : List Char) : Option ColumnType :=
  match bracketed "enum(" raw with
  | some body =>
      match (Decoding.decode (String.ofList body)).toOption.bind parseEnumType with
      | some (name, labels) => if name ≠ "" ∧ validEnumLabels labels then some (.enum name labels) else none
      | none => none
  | none =>
      match bracketed "runtime(" raw with
      | some body =>
          match decodeType builtinTypes (String.ofList body) with
          | .ok id => some (.runtime id)
          | .error _ => none
      | none =>
          match _parts : (bracketed "domain(" raw).bind cutComma with
          | some (name, definition) => (parseColumnType definition).map (.domain (String.ofList name))
          | none => plainType raw
termination_by raw.length
decreasing_by exact domain_shorter _parts

end Names

/-! ### The types a column may have -/

/-- Check the sizes and labels of a type. -/
def checkTypeParameters : ColumnType → Except String Unit
  | .domain _ base => checkTypeParameters base
  | .runtime id => (describeType builtinTypes id).map fun _ => ()
  | .enum _ labels =>
      if validEnumLabels labels then .ok ()
      else .error "ENUM requires distinct labels of at most 63 UTF-8 bytes without NUL"
  | .null => .error "NULL is only valid as an inferred query output"
  | .decimal precision scale =>
      if precision ≤ 0 ∨ 308 < precision ∨ scale < 0 ∨ precision < scale then
        .error "invalid decimal precision or scale"
      else .ok ()
  | .varchar length => if length ≤ 0 then .error "character length must be positive" else .ok ()
  | .char length => if length ≤ 0 then .error "character length must be positive" else .ok ()
  | _ => .ok ()

/-- The name of a domain or an enumeration, as its definition is checked. -/
def validTypeName (name : String) : Bool :=
  !name.isEmpty && name.toList.all fun c => decide (c.toNat < 128) && (c.isAlphanum || c == '_')

/-- A type as it is written: its names are checked ones, and its sizes machine integers. -/
def isWritten : ColumnType → Bool
  | .domain name base => validTypeName name && isWritten base
  | .enum name _ => validTypeName name
  | .varchar length | .char length => decide (length ≤ Int64.maxValue.toInt)
  | _ => true

/-- The JSON values in the name of a type. -/
def namedJson : ColumnType → List Json
  | .domain _ base => namedJson base
  | .enum name labels => [enumTypeJson name labels]
  | .runtime id => [.array [.number 1, typeJson id.expression]]
  | _ => []

/-! ### Columns on the wire -/

structure SchemaColumn where
  name : String
  type : String
  nullable : Bool
  default : Option Value
  autoIncrement : Bool
  primaryKey : Bool
  unique : Bool
  check : Option String

/-- A column as it is sent. -/
def toWire [Hashing] (entry : String × Column) : SchemaColumn :=
  ⟨entry.1, typeName entry.2.type, entry.2.nullable, entry.2.default, entry.2.autoIncrement, entry.2.primaryKey,
    entry.2.unique, entry.2.check⟩

/-- A column as it is received; a type that is not known counts as text. -/
def toColumn [Letters] [Decoding] (sent : SchemaColumn) : String × Column :=
  (sent.name, ⟨(parseColumnType sent.type.toList).getD .str, sent.nullable, sent.default, sent.autoIncrement,
    sent.unique, sent.primaryKey, sent.check⟩)

end ChuSQL.Model
