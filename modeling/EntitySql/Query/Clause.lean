import EntitySql.Query.Predicate

/-!
The clauses that statements are made of: names of tables and columns, WHERE, ORDER BY, and the
limits of mutations.
-/

namespace EntitySql

namespace Metamodel

def resolve (m : Metamodel) (property : String) : Except CompileError Column :=
  match m.column? property with
  | some c => .ok c
  | none => .error (.unknownProperty m.entity property)

theorem resolve_eq_ok_iff {m : Metamodel} {property : String} {c : Column} :
    m.resolve property = .ok c ↔ m.column? property = some c := by
  unfold resolve
  split
  next found hfound => simp [hfound]
  next hnone => simp [hnone]

end Metamodel

namespace Dialect

/-- The name of a table, after its schema if it has one. Both are quoted or neither is. -/
def tableDraft (d : Dialect) (t : Table) : Draft :=
  match t.schema with
  | some schema => .sql (d.enquote schema t.quoted) ++ .sql "." ++ .sql (d.enquote t.name t.quoted)
  | none => .sql (d.enquote t.name t.quoted)

def columnSql (d : Dialect) (c : Column) : String := d.enquote c.column c.quoted

def columnList (d : Dialect) (columns : List Column) : Draft :=
  .sepBy ", " (columns.map fun c => .sql (d.columnSql c))

def propertySql (d : Dialect) (m : Metamodel) (property : String) :
    Except CompileError String := do
  return d.columnSql (← m.resolve property)

def predicate (d : Dialect) (m : Metamodel) (criteria : List Criterion) :
    Except CompileError Draft :=
  Criterion.siblingsDraft (d.propertySql m) none criteria

def whereClause (d : Dialect) (m : Metamodel) (criteria : Criteria) :
    Except CompileError Draft := do
  if criteria.hasWhere then return .sql " WHERE " ++ (← d.predicate m criteria.restrictions)
  else return ∅

def sortDraft (d : Dialect) (m : Metamodel) (item : SortItem) : Except CompileError Draft := do
  let column ← d.propertySql m item.property
  let sorted : Draft := .sql column ++ .sql (" " ++ item.direction.sql)
  match item.nulls with
  | none => return sorted
  | some nulls =>
    if d.supportsNullsOrdering then return sorted ++ .sql (" " ++ nulls.sql)
    else throw (.unsupportedNullOrdering d)

def orderClause (d : Dialect) (m : Metamodel) (criteria : Criteria) :
    Except CompileError Draft := do
  if criteria.order.isEmpty then return ∅
  else return .sql " ORDER BY " ++ .sepBy ", " (← criteria.order.mapM (d.sortDraft m))

/-- Order and limit of a mutation. A dialect that has no words for them fails, so that what was
declared is never dropped. -/
def mutationPaging (d : Dialect) (operation : QueryKind) (m : Metamodel) (criteria : Criteria) :
    Except CompileError Draft := do
  if criteria.offset.isSome then throw (.unsupportedPaging operation d .offset)
  if criteria.limit.isNone && criteria.order.isEmpty then return ∅
  if !d.supportsMutationLimit then
    throw (.unsupportedPaging operation d (if criteria.limit.isSome then .limit else .orderBy))
  return (← d.orderClause m criteria) ++ countClause " LIMIT " criteria.limit

end Dialect

/-- A mutation must restrict its rows unless it is allowed not to. -/
def requireWhere (operation : QueryKind) (m : Metamodel) (criteria : Criteria) (allowed : Bool) :
    Except CompileError Unit :=
  if criteria.hasWhere || allowed then .ok ()
  else .error (.missingWhereClause m.entity operation)

end EntitySql
