import EntitySql.Criteria.Basic
import EntitySql.Dialect
import EntitySql.Query.Basic

/-!
What can go wrong between an entity and a statement about it.
-/

namespace EntitySql

/-- The clauses that restrict which of the matching rows a mutation touches. -/
inductive PagingClause
  | orderBy
  | limit
  | offset
  deriving DecidableEq, Repr

def PagingClause.sql : PagingClause → String
  | .orderBy => "ORDER BY"
  | .limit => "LIMIT"
  | .offset => "OFFSET"

inductive CompileError
  | unknownProperty (entity property : String)
  | missingWhereClause (entity : String) (operation : QueryKind)
  | emptyAssignment (entity : String)
  | emptyInsert (entity : String)
  | missingValue (entity property : String)
  | noIdentifier (entity : String)
  | unsupportedSequence (dialect : Dialect) (sequence : String)
  | unsupportedNullOrdering (dialect : Dialect)
  | unsupportedPaging (operation : QueryKind) (dialect : Dialect) (clause : PagingClause)
  | statement (error : StatementError)
  | criteria (error : CriteriaError)
  deriving DecidableEq, Repr

/-- Faults of the statement or of the criteria speak for themselves. -/
def CompileError.message : CompileError → String
  | .unknownProperty entity property =>
    "entity `" ++ entity ++ "` has no property `" ++ property ++ "`"
  | .missingWhereClause entity operation =>
    operation.sql ++ " on entity `" ++ entity ++ "` has no where clause"
  | .emptyAssignment entity => "update on entity `" ++ entity ++ "` assigns nothing"
  | .emptyInsert entity => "insert on entity `" ++ entity ++ "` has no rows"
  | .missingValue entity property =>
    "entity `" ++ entity ++ "`: no value for property `" ++ property ++ "`"
  | .noIdentifier entity =>
    "entity `" ++ entity ++ "` has no identifier to address a single row"
  | .unsupportedSequence dialect sequence =>
    "dialect `" ++ dialect.name ++ "` does not support sequence `" ++ sequence ++ "`"
  | .unsupportedNullOrdering dialect =>
    "dialect `" ++ dialect.name ++ "` does not support NULLS FIRST/LAST"
  | .unsupportedPaging operation dialect clause =>
    "dialect `" ++ dialect.name ++ "` cannot apply " ++ clause.sql ++ " to " ++ operation.sql
  | .statement error => error.message
  | .criteria error => error.message

end EntitySql
