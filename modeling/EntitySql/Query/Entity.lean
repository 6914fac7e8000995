import EntitySql.Query.Error
import EntitySql.Criteria.Scope

/-!
Queries about the row of a single entity. The entity is seen through a function from property
paths to values; the row is found by the identifier and, if there is one, by the version.
-/

namespace EntitySql

def saturatingSucc (n : Int64) : Int64 := if n = Int64.maxValue then n else n + 1

/-- The version after `current`, bound as the same type. A version that is missing, null or no
integer starts over at one. -/
def nextVersion : Option Value → Value
  | some ⟨.int n, type⟩ => ⟨.int (saturatingSucc n), type⟩
  | some ⟨_, type⟩ => ⟨.int 1, type⟩
  | none => .bigInt 1

namespace Metamodel

def valueOf (m : Metamodel) (read : String → Option Value) (c : Column) :
    Except CompileError Value :=
  match read c.path with
  | some value => .ok value
  | none => .error (.missingValue m.entity c.path)

/-- The test that a column still has the value that the entity has for it. Nothing equals null,
so null is tested for. -/
def holds (c : Column) (value : Value) : Test :=
  if value.isNull then .isNull false c.path else .compare .eq c.path value

/-- Criteria for the one row of an entity: its identifier and the version it was read with. -/
def rowCriteria (m : Metamodel) (read : String → Option Value) :
    Except CompileError Criteria := do
  if m.ids.isEmpty then throw (.noIdentifier m.entity)
  let tests ← (m.ids ++ m.version.toList).mapM fun c => do
    return Criterion.test (holds c (← m.valueOf read c))
  (Criteria.build [.restrict tests]).mapError .criteria

/-- Whether an UPDATE of an entity sets a column to the value that the entity has for it. What
identifies the row stays, and so does its creation time; the version has a rule of its own. -/
def isUpdated (m : Metamodel) (c : Column) : Bool :=
  !(m.version.toList ++ m.createdAt.toList).any (·.path == c.path) &&
    !m.isId c && !c.isIdentity

end Metamodel

/-- Supplies every column that the database does not fill in. -/
def Insert.ofEntity (m : Metamodel) (read : String → Option Value) :
    Except CompileError Insert := do
  let row ← m.supplied.mapM fun c => do return (c.path, ← m.valueOf read c)
  return { target := m, rows := [row] }

/-- The assignment that advances a version. A null version is set outright, since null plus one
is null. -/
def Assignment.advance (c : Column) (current : Value) : Assignment :=
  ⟨c.path, if current.isNull then .bound (nextVersion (some current)) else .increment 1⟩

/-- Sets the updated columns and advances the version. -/
def Update.ofEntity (m : Metamodel) (read : String → Option Value) :
    Except CompileError Update := do
  let criteria ← m.rowCriteria read
  let assignments ← (m.columns.filter m.isUpdated).mapM fun c => do
    return Assignment.mk c.path (.bound (← m.valueOf read c))
  let version ← m.version.toList.mapM fun c => do
    return Assignment.advance c (← m.valueOf read c)
  return { target := m, assignments := assignments ++ version, criteria }

def Delete.ofEntity (m : Metamodel) (read : String → Option Value) :
    Except CompileError Delete := do
  return { target := m, criteria := ← m.rowCriteria read }

end EntitySql
