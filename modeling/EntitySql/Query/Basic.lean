import EntitySql.Criteria.Basic
import EntitySql.Metamodel.Basic

/-!
Queries: everything that is needed to render one statement, as plain data. There are four kinds,
each about the rows of one entity.
-/

namespace EntitySql

inductive QueryKind
  | select
  | insert
  | update
  | delete
  deriving DecidableEq, Repr

def QueryKind.sql : QueryKind → String
  | .select => "SELECT"
  | .insert => "INSERT"
  | .update => "UPDATE"
  | .delete => "DELETE"

/-- What a SELECT returns: every mapped column of the rows, or their number. -/
inductive Projection
  | entity
  | count
  deriving DecidableEq, Repr

structure Select where
  target : Metamodel
  criteria : Criteria
  distinct : Bool := false
  projection : Projection := .entity

/-- A row gives values to property references, in any order. -/
structure Insert where
  target : Metamodel
  rows : List (List (String × Value))

/-- What a column is set to: a bound value, or its old value plus a number. -/
inductive NewValue
  | bound (value : Value)
  | increment (amount : Int64)
  deriving DecidableEq, Repr

structure Assignment where
  property : String
  value : NewValue
  deriving DecidableEq, Repr

/-- Without a where clause an UPDATE touches every row, which has to be allowed explicitly. -/
structure Update where
  target : Metamodel
  assignments : List Assignment
  criteria : Criteria
  allowMissingWhere : Bool := false

/-- Without a where clause a DELETE empties the table, which has to be allowed explicitly. -/
structure Delete where
  target : Metamodel
  criteria : Criteria
  allowMissingWhere : Bool := false

inductive Query
  | select (q : Select)
  | insert (q : Insert)
  | update (q : Update)
  | delete (q : Delete)

namespace Query

def kind : Query → QueryKind
  | select _ => .select
  | insert _ => .insert
  | update _ => .update
  | delete _ => .delete

def target : Query → Metamodel
  | select q => q.target
  | insert q => q.target
  | update q => q.target
  | delete q => q.target

/-- The criteria, except for an INSERT, which has none. -/
def criteria? : Query → Option Criteria
  | select q => some q.criteria
  | insert _ => none
  | update q => some q.criteria
  | delete q => some q.criteria

end Query
end EntitySql
