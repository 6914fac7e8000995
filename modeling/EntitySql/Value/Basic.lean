import EntitySql.Value.Binary64
import EntitySql.Value.Calendar

/-!
Bind values. A value pairs a datum with the SQL type it is bound as. The two are kept apart: an
enumeration member may be bound by name or by ordinal, and the same number bound as `integer`
and as `bigint` makes two different values.
-/

namespace EntitySql

inductive SqlType
  | boolean
  | smallInt
  | integer
  | bigInt
  | real
  | double
  | text
  | bytes
  | timestamp
  | date
  | enumName
  | enumOrdinal
  deriving DecidableEq, Repr, Inhabited

def SqlType.name : SqlType → String
  | .boolean => "boolean"
  | .smallInt => "smallint"
  | .integer => "integer"
  | .bigInt => "bigint"
  | .real => "real"
  | .double => "double"
  | .text => "text"
  | .bytes => "bytes"
  | .timestamp => "timestamp"
  | .date => "date"
  | .enumName => "enum name"
  | .enumOrdinal => "enum ordinal"

/-- What a value holds. Integers of every width share one constructor, as do both widths of
floating-point numbers; the binding type tells them apart. -/
inductive Datum
  | null
  | bool (b : Bool)
  | int (n : Int64)
  | float (x : Binary64)
  | text (s : String)
  | bytes (bytes : List UInt8)
  | timestamp (t : Timestamp)
  | date (d : Date)
  deriving DecidableEq, Repr, Inhabited

namespace Datum

def isNull : Datum → Bool
  | .null => true
  | _ => false

def int? : Datum → Option Int64
  | .int n => some n
  | _ => none

def text? : Datum → Option String
  | .text s => some s
  | _ => none

def timestamp? : Datum → Option Timestamp
  | .timestamp t => some t
  | _ => none

/-- Equality of contents, with floating-point numbers compared as numbers: a NaN differs from
itself and the two zeros agree. -/
def equal : Datum → Datum → Bool
  | .float x, .float y => x.equal y
  | left, right => left == right

end Datum

/-- A datum and the type it is bound as. -/
structure Value where
  datum : Datum
  type : SqlType
  deriving DecidableEq, Repr, Inhabited

/-- A member of an enumeration, with its place in the declaration counted from zero. -/
structure EnumMember where
  name : String
  ordinal : Int32
  deriving DecidableEq, Repr

namespace Value

/-- A NULL of the given type; the datum alone would not tell the type. -/
def null (type : SqlType) : Value := ⟨.null, type⟩

def bool (b : Bool) : Value := ⟨.bool b, .boolean⟩

def smallInt (n : Int16) : Value := ⟨.int n.toInt64, .smallInt⟩

def integer (n : Int32) : Value := ⟨.int n.toInt64, .integer⟩

def bigInt (n : Int64) : Value := ⟨.int n, .bigInt⟩

/-- A single-precision number, given by its bits and held in double precision. -/
def real (bits : UInt32) : Value := ⟨.float (.ofBinary32 bits), .real⟩

def double (x : Binary64) : Value := ⟨.float x, .double⟩

def text (s : String) : Value := ⟨.text s, .text⟩

def bytes (bytes : List UInt8) : Value := ⟨.bytes bytes, .bytes⟩

def timestamp (t : Timestamp) : Value := ⟨.timestamp t, .timestamp⟩

def date (d : Date) : Value := ⟨.date d, .date⟩

def enumName (member : EnumMember) : Value := ⟨.text member.name, .enumName⟩

def enumOrdinal (member : EnumMember) : Value := ⟨.int member.ordinal.toInt64, .enumOrdinal⟩

def isNull (v : Value) : Bool := v.datum.isNull

@[simp] theorem isNull_null (type : SqlType) : (null type).isNull = true := rfl

/-- Equality of both parts, with the datum compared by `Datum.equal`. -/
def equal (v w : Value) : Bool := v.datum.equal w.datum && v.type == w.type

/-- The value that counts rows: a `bigint`, which ends where 64-bit integers do. -/
def count (n : Nat) : Value :=
  bigInt (if (n : Int) ≤ Int64.maxValue.toInt then Int64.ofNat n else Int64.maxValue)

end Value

/-- Counting goes on without gaps up to the largest integer. -/
theorem toInt_add_one {n : Int64} (h : n.toInt + 1 ≤ Int64.maxValue.toInt) :
    (n + 1).toInt = n.toInt + 1 := by
  have hlow := n.le_toInt
  have hmax : Int64.maxValue.toInt = 9223372036854775807 := rfl
  have hone : (1 : Int64).toInt = 1 := rfl
  rw [Int64.toInt_add, hone]
  apply Int.bmod_eq_of_le <;> omega

end EntitySql
