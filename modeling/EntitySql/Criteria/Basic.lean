import EntitySql.Value.Basic

/-!
Criteria: which rows a statement is about, in which order, and how many of them. Properties are
named by reference; only compilation resolves the names.
-/

namespace EntitySql

inductive Comparison
  | eq
  | ne
  | lt
  | le
  | gt
  | ge
  deriving DecidableEq, Repr

def Comparison.sql : Comparison → String
  | .eq => "="
  | .ne => "<>"
  | .lt => "<"
  | .le => "<="
  | .gt => ">"
  | .ge => ">="

/-- A condition on one property. All but comparisons come with their negation. -/
inductive Test
  | compare (op : Comparison) (property : String) (value : Value)
  | isNull (negated : Bool) (property : String)
  | like (negated : Bool) (property : String) (pattern : Value)
  | between (negated : Bool) (property : String) (low high : Value)
  | inList (negated : Bool) (property : String) (values : List Value)
  deriving DecidableEq, Repr

namespace Test

def property : Test → String
  | compare _ property _ => property
  | isNull _ property => property
  | like _ property _ => property
  | between _ property _ _ => property
  | inList _ property _ => property

def values : Test → List Value
  | compare _ _ value => [value]
  | isNull _ _ => []
  | like _ _ pattern => [pattern]
  | between _ _ low high => [low, high]
  | inList _ _ values => values

end Test

/-- How a group joins its siblings: `and` and `not` groups are AND-ed to what stands before
them, an `or` group is OR-ed to everything before it. -/
inductive GroupKind
  | and
  | or
  | not
  deriving DecidableEq, Repr

def GroupKind.name : GroupKind → String
  | .and => "and"
  | .or => "or"
  | .not => "not"

/-- A node of a where clause: a test or a group of nodes. -/
inductive Criterion
  | test (test : Test)
  | group (kind : GroupKind) (members : List Criterion)
  deriving Repr

inductive SortDirection
  | asc
  | desc
  deriving DecidableEq, Repr

def SortDirection.sql : SortDirection → String
  | .asc => "ASC"
  | .desc => "DESC"

inductive NullOrdering
  | first
  | last
  deriving DecidableEq, Repr

def NullOrdering.sql : NullOrdering → String
  | .first => "NULLS FIRST"
  | .last => "NULLS LAST"

/-- One item of an ordering; without a place for nulls the database decides. -/
structure SortItem where
  property : String
  direction : SortDirection
  nulls : Option NullOrdering := none
  deriving DecidableEq, Repr

/-- Predicate, ordering, limit and offset of a statement. The default constrains nothing. -/
structure Criteria where
  restrictions : List Criterion := []
  order : List SortItem := []
  limit : Option Nat := none
  offset : Option Nat := none
  deriving Repr, Inhabited

namespace Criteria

def hasWhere (criteria : Criteria) : Bool := !criteria.restrictions.isEmpty

def isUnconstrained (criteria : Criteria) : Bool :=
  criteria.restrictions.isEmpty && criteria.order.isEmpty &&
    criteria.limit.isNone && criteria.offset.isNone

end Criteria

inductive CriteriaError
  | negativeLimit (limit : Int64)
  | negativeOffset (offset : Int64)
  | emptyGroup (kind : GroupKind)
  | emptyInList (property : String)
  | emptyProperty
  deriving DecidableEq, Repr

def CriteriaError.message : CriteriaError → String
  | .negativeLimit limit => s!"limit must not be negative, got {limit.toInt}"
  | .negativeOffset offset => s!"offset must not be negative, got {offset.toInt}"
  | .emptyGroup kind => "empty `" ++ kind.name ++ "` group in where clause"
  | .emptyInList property => "empty IN list for property `" ++ property ++ "`"
  | .emptyProperty => "criterion references an empty property name"

end EntitySql
