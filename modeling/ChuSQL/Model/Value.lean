import ChuSQL.Model.Encoding

/-! Values of a row: their canonical form, their order, their equality and their hash. -/

set_option autoImplicit false

namespace ChuSQL.Model

open Library

inductive Value where
  | null
  | int (n : Int64)
  | float (d : Double)
  | str (text : String)
  | bool (flag : Bool)
  | enum (name : String) (labels : List String) (label : String)
  | runtime (id : TypeId) (value : RuntimeValue)

namespace Value

/-- The derived equality, in which the two zeros are equal. -/
def same : Value → Value → Bool
  | null, null => true
  | int left, int right => left == right
  | float left, float right => left.same right
  | str left, str right => left == right
  | bool left, bool right => left == right
  | enum name labels label, enum other others second => name == other && labels == others && label == second
  | runtime id value, runtime other second => id == other && value.same second
  | _, _ => false

end Value

/-- A conversion of a machine integer, rounding to nearest. -/
def fromIntegral (n : Int64) : Double := Double.ofInt n.toInt

/-- Whether the double is a whole number that an integer stands for exactly. -/
def wholeDouble (d : Double) : Bool :=
  !d.isNaN && !d.isInfinite && decide (|d.value| ≤ 9007199254740992) &&
    d.same (fromIntegral (Int64.ofInt d.truncate))

/-- The key of a comparison: a whole double becomes an integer. -/
def canonicalValue : Value → Value
  | .float d => if wholeDouble d then .int (Int64.ofInt d.truncate) else .float d
  | value => value

/-- The order among values of different families. -/
def valueRank : Value → Int
  | .null => 0
  | .int _ => 1
  | .float _ => 1
  | .str _ => 2
  | .bool _ => 3
  | .runtime _ _ => 4
  | .enum _ _ _ => 5

/-- The order of canonical values. -/
def compareCanonical : Value → Value → Ordering
  | .null, .null => .eq
  | .null, _ => .lt
  | _, .null => .gt
  | .int x, .int y => compare x.toInt y.toInt
  | .int x, .float y => (fromIntegral x).compare y
  | .float x, .int y => x.compare (fromIntegral y)
  | .float x, .float y => x.compare y
  | .str x, .str y => compare x y
  | .bool x, .bool y => compare x y
  | .enum name labels x, .enum other others y =>
      (compare name other).then ((compare labels others).then (compare (labels.idxOf? x) (others.idxOf? y)))
  | .runtime id x, .runtime other y => (id.compare other).then (x.compare y)
  | x, y => compare (valueRank x) (valueRank y)

/-- The order of values: NULL first, numbers across their types. -/
def compareValue (a b : Value) : Ordering := compareCanonical (canonicalValue a) (canonicalValue b)

def valuesEqual (a b : Value) : Bool := (canonicalValue a).same (canonicalValue b)

/-! ### Hashing -/

/-- The hashes of the scalars, and the text of an encoded JSON value. -/
class Hashing where
  int : Int64 → Int64 → Int64
  double : Int64 → Double → Int64
  bool : Int64 → Bool → Int64
  string : Int64 → String → Int64
  encode : Json → String

section Hash

variable [Hashing]

/-- The hash of a list mixes in its elements and then its length. -/
def hashList {α : Type} (each : Int64 → α → Int64) (salt : Int64) (items : List α) : Int64 :=
  Hashing.int (items.foldl each salt) (Int64.ofNat items.length)

mutual

def RuntimeValue.hashWithSalt (salt : Int64) : RuntimeValue → Int64
  | .int n => Hashing.int (Hashing.int salt 1) n
  | .double n => Hashing.double (Hashing.int salt 2) (if n.same Double.zero then Double.zero else n)
  | .bool flag => Hashing.bool (Hashing.int salt 3) flag
  | .string text => Hashing.string (Hashing.int salt 4) text
  | .list values => Hashing.int (hashElements (Hashing.int salt 5) values) (Int64.ofNat values.length)
  | .maybe none => Hashing.int (Hashing.int salt 6) 0
  | .maybe (some value) => value.hashWithSalt (Hashing.int (Hashing.int salt 6) 1)
  | .tuple values => Hashing.int (hashElements (Hashing.int salt 7) values) (Int64.ofNat values.length)

def RuntimeValue.hashElements (salt : Int64) : List RuntimeValue → Int64
  | [] => salt
  | value :: values => RuntimeValue.hashElements (value.hashWithSalt salt) values

end

/-- The encoded identity of a type. -/
def encodeType (id : TypeId) : String := Hashing.encode (.array [.number 1, typeJson id.expression])

def hashKey : Value → Int64
  | .null => Hashing.int 0 0
  | .int n => Hashing.int 1 n
  | .float d => Hashing.double 1 d
  | .str text => Hashing.string 2 text
  | .bool flag => Hashing.bool 3 flag
  | .enum name labels label =>
      Hashing.string (hashList Hashing.string (Hashing.string 5 name) labels) label
  | .runtime id value => value.hashWithSalt (Hashing.string 4 (encodeType id))

def hashValue (value : Value) : Int64 := hashKey (canonicalValue value)

end Hash

end ChuSQL.Model
