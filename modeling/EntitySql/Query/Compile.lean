import EntitySql.Query.Clause

/-!
Statements for queries. Every value that a query holds ends up bound to a placeholder; the text
is made of keywords and mapped names alone.
-/

namespace EntitySql

/-- Counting takes no order and no paging. Distinct rows are counted over a subquery, since
there is only ever one row that holds the count. -/
def Select.draft (d : Dialect) (q : Select) : Except CompileError Draft := do
  let source := d.tableDraft q.target.table
  let columns := d.columnList q.target.columns
  let filter ← d.whereClause q.target q.criteria
  match q.projection, q.distinct with
  | .count, false => return .sql "SELECT COUNT(*) FROM " ++ source ++ filter
  | .count, true =>
    return .sql "SELECT COUNT(*) FROM (SELECT DISTINCT " ++ columns ++ .sql " FROM " ++ source ++
      filter ++ .sql ") AS distinct_rows"
  | .entity, distinct =>
    let order ← d.orderClause q.target q.criteria
    return .sql (if distinct then "SELECT DISTINCT " else "SELECT ") ++ columns ++
      .sql " FROM " ++ source ++ filter ++ order ++ d.paging q.criteria.offset q.criteria.limit

/-- The values of a row in column order. References are resolved first; of several values for
one column the first counts. -/
def Insert.rowValues (m : Metamodel) (row : List (String × Value)) :
    Except CompileError (List Value) := do
  let resolved ← row.mapM fun (property, value) => do
    return ((← m.resolve property).path, value)
  m.supplied.mapM fun c =>
    match resolved.lookup c.path with
    | some value => .ok value
    | none => .error (.missingValue m.entity c.path)

/-- One tuple for each row, over the columns that the database does not fill in. -/
def Insert.draft (d : Dialect) (q : Insert) : Except CompileError Draft := do
  if q.rows.isEmpty then throw (.emptyInsert q.target.entity)
  let tuples ← q.rows.mapM fun row => do
    return (Draft.bindAll (← Insert.rowValues q.target row) ", ").paren
  return .sql "INSERT INTO " ++ d.tableDraft q.target.table ++ .sql " (" ++
    d.columnList q.target.supplied ++ .sql ") VALUES " ++ .sepBy ", " tuples

def Assignment.draft (d : Dialect) (m : Metamodel) (a : Assignment) :
    Except CompileError Draft := do
  let column ← d.propertySql m a.property
  match a.value with
  | .bound value => return .sql column ++ .sql " = " ++ .bind value
  | .increment amount =>
    return .sql column ++ .sql " = " ++ .sql column ++ .sql " + " ++ .bind (.bigInt amount)

def Update.draft (d : Dialect) (q : Update) : Except CompileError Draft := do
  if q.assignments.isEmpty then throw (.emptyAssignment q.target.entity)
  requireWhere .update q.target q.criteria q.allowMissingWhere
  let items ← q.assignments.mapM (Assignment.draft d q.target)
  let filter ← d.whereClause q.target q.criteria
  let paging ← d.mutationPaging .update q.target q.criteria
  return .sql "UPDATE " ++ d.tableDraft q.target.table ++ .sql " SET " ++ .sepBy ", " items ++
    filter ++ paging

def Delete.draft (d : Dialect) (q : Delete) : Except CompileError Draft := do
  requireWhere .delete q.target q.criteria q.allowMissingWhere
  let filter ← d.whereClause q.target q.criteria
  let paging ← d.mutationPaging .delete q.target q.criteria
  return .sql "DELETE FROM " ++ d.tableDraft q.target.table ++ filter ++ paging

namespace Query

def draft (d : Dialect) : Query → Except CompileError Draft
  | select q => q.draft d
  | insert q => q.draft d
  | update q => q.draft d
  | delete q => q.draft d

/-- The statement of a query. A mapped name that brings in a placeholder is found out here. -/
def compile (d : Dialect) (log : Bool) (q : Query) : Except CompileError Statement := do
  ((← q.draft d).build log).mapError .statement

end Query

def SequenceSpec.statement (d : Dialect) (log : Bool) (spec : SequenceSpec) :
    Except CompileError Statement :=
  match d.sequenceSql? (d.enquote spec.name spec.quoted) with
  | some sql => ((Draft.sql sql).build log).mapError .statement
  | none => .error (.unsupportedSequence d spec.name)

end EntitySql
