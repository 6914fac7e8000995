import EntitySql.Criteria.Basic

/-!
Declaring criteria. Declarations accumulate in a scope; the scope is then materialized, which
checks everything at once. Materializing is a reading of the scope and changes nothing.
-/

namespace EntitySql

inductive Declaration
  | restrict (criteria : List Criterion)
  | sort (items : List SortItem)
  | limit (n : Int64)
  | offset (n : Int64)
  | materialize
  deriving Repr

/-- What has been declared so far. Numbers are not yet checked. -/
structure Scope where
  restrictions : List Criterion := []
  order : List SortItem := []
  limit : Option Int64 := none
  offset : Option Int64 := none
  deriving Repr, Inhabited

def checkProperty (property : String) : Except CriteriaError Unit :=
  if property.isEmpty then .error .emptyProperty else .ok ()

/-- A list of candidates must not be empty: `IN ()` is no SQL. -/
def Test.check (test : Test) : Except CriteriaError Unit := do
  checkProperty test.property
  match test with
  | .inList _ property [] => .error (.emptyInList property)
  | _ => .ok ()

mutual

/-- Checks a node before its members, and members from left to right. -/
def Criterion.check : Criterion → Except CriteriaError Unit
  | .test condition => condition.check
  | .group kind [] => .error (.emptyGroup kind)
  | .group _ (first :: rest) => do
    first.check
    Criterion.checkAll rest

def Criterion.checkAll : List Criterion → Except CriteriaError Unit
  | [] => .ok ()
  | first :: rest => do
    first.check
    Criterion.checkAll rest

end

/-- The count given by a declared number, which must not be negative. -/
def checkCount (refuse : Int64 → CriteriaError) : Option Int64 → Except CriteriaError (Option Nat)
  | none => .ok none
  | some n => if n < 0 then .error (refuse n) else .ok (some n.toInt.toNat)

namespace Scope

/-- Where criteria and sort items add up, as if declared in one block; of limits and of offsets
the last one counts. -/
def declare (scope : Scope) : Declaration → Scope
  | .restrict criteria => { scope with restrictions := scope.restrictions ++ criteria }
  | .sort items => { scope with order := scope.order ++ items }
  | .limit n => { scope with limit := some n }
  | .offset n => { scope with offset := some n }
  | .materialize => scope

/-- The criteria declared in the scope. Faults are looked for in the limit, the offset, the
where clause and the ordering, in this order. -/
def materialize (scope : Scope) : Except CriteriaError Criteria := do
  let limit ← checkCount .negativeLimit scope.limit
  let offset ← checkCount .negativeOffset scope.offset
  Criterion.checkAll scope.restrictions
  scope.order.forM fun item => checkProperty item.property
  return { restrictions := scope.restrictions, order := scope.order, limit, offset }

def snapshots (scope : Scope) : List Declaration → List (Except CriteriaError Criteria)
  | [] => []
  | .materialize :: rest => scope.materialize :: snapshots scope rest
  | declaration :: rest => snapshots (scope.declare declaration) rest

end Scope

def Criteria.build (declarations : List Declaration) : Except CriteriaError Criteria :=
  (declarations.foldl Scope.declare {}).materialize

end EntitySql
