import EntitySql.Query.Error

/-!
Where clauses as SQL. Siblings are rendered in one pass from left to right: an `or` group is OR-ed
to everything before it, everything else is AND-ed to it. A disjunction that is AND-ed to something
needs parentheses, since SQL would otherwise group differently.
-/

namespace EntitySql

def Test.draft (column : String) : Test → Draft
  | .compare op _ value => .sql column ++ .sql (" " ++ op.sql ++ " ") ++ .bind value
  | .isNull negated _ =>
    .sql column ++ .sql (if negated then " IS NOT NULL" else " IS NULL")
  | .like negated _ pattern =>
    .sql column ++ .sql (if negated then " NOT LIKE " else " LIKE ") ++ .bind pattern
  | .between negated _ low high =>
    .sql column ++ .sql (if negated then " NOT BETWEEN " else " BETWEEN ") ++ .bind low ++
      .sql " AND " ++ .bind high
  | .inList negated _ values =>
    .sql column ++ .sql (if negated then " NOT IN (" else " IN (") ++
      .bindAll values ", " ++ .sql ")"

/-- Siblings rendered so far, with whether the last of them was OR-ed to the others. -/
structure Fragment where
  draft : Draft
  disjunction : Bool

/-- A criterion, itself already rendered, after its siblings. -/
def Fragment.join (before : Option Fragment) (criterion : Criterion) (here : Draft) : Fragment :=
  match before, criterion with
  | none, _ => ⟨here, false⟩
  | some left, .group .or _ => ⟨left.draft ++ .sql " OR " ++ here, true⟩
  | some left, _ =>
    ⟨(if left.disjunction then left.draft.paren else left.draft) ++ .sql " AND " ++ here, false⟩

namespace Criterion

variable (column : String → Except CompileError String)

mutual

def draft : Criterion → Except CompileError Draft
  | test condition => do return condition.draft (← column condition.property)
  | group .not members => do return .sql "NOT " ++ (← siblingsDraft none members).paren
  | group _ members => do return (← siblingsDraft none members).paren

/-- The SQL of siblings after those already rendered. -/
def siblingsDraft (before : Option Fragment) : List Criterion → Except CompileError Draft
  | [] => return (before.map Fragment.draft).getD ∅
  | criterion :: rest => do
    let here ← criterion.draft
    siblingsDraft (some (.join before criterion here)) rest

end

end Criterion
end EntitySql
