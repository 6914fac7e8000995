import EntitySql.Query.Clause

/-!
Where clauses as boolean expressions. Siblings nest to the left, so that an expression shows what
each AND and OR joins. Its SQL is that of the pass over the siblings.
-/

namespace EntitySql

/-- A boolean expression over tests. A group always shows its parentheses. -/
inductive Condition
  | empty
  | test (condition : Test)
  | and (left right : Condition)
  | or (left right : Condition)
  | not (inner : Condition)
  | group (inner : Condition)
  deriving Repr

namespace Condition

mutual

def ofCriterion : Criterion → Condition
  | .test condition => test condition
  | .group .not members => not (group (ofSiblings none members))
  | .group _ members => group (ofSiblings none members)

def ofSiblings (before : Option Condition) : List Criterion → Condition
  | [] => before.getD empty
  | criterion :: rest =>
    let here := ofCriterion criterion
    let joined :=
      match before, criterion with
      | none, _ => here
      | some left, .group .or _ => or left here
      | some left, _ => and left here
    ofSiblings (some joined) rest

end

def isDisjunction : Condition → Bool
  | or _ _ => true
  | _ => false

theorem isDisjunction_ofCriterion (criterion : Criterion) :
    (ofCriterion criterion).isDisjunction = false := by
  cases criterion with
  | test t => rfl
  | group kind members => cases kind <;> rfl

/-- The SQL of an expression, with property references resolved from left to right. -/
def draft (column : String → Except CompileError String) : Condition → Except CompileError Draft
  | empty => .ok ∅
  | test condition => do return condition.draft (← column condition.property)
  | and left right => do
    let first ← left.draft column
    let second ← right.draft column
    return (if left.isDisjunction then first.paren else first) ++ .sql " AND " ++ second
  | or left right => do
    let first ← left.draft column
    let second ← right.draft column
    return first ++ .sql " OR " ++ second
  | not inner => do return .sql "NOT " ++ (← inner.draft column)
  | group inner => do return (← inner.draft column).paren

def fragment (column : String → Except CompileError String) (condition : Condition) :
    Except CompileError Fragment := do
  return ⟨← condition.draft column, condition.isDisjunction⟩

section
variable (column : String → Except CompileError String)

private theorem fragment_or (left right : Condition) (members : List Criterion) :
    (or left right).fragment column = do
      let before ← left.fragment column
      return .join (some before) (.group .or members) (← right.draft column) := by
  unfold fragment
  rw [draft]
  cases left.draft column with
  | error e => rfl
  | ok first => cases right.draft column <;> rfl

private theorem fragment_and (left right : Condition) {criterion : Criterion}
    (h : ∀ before here, Fragment.join (some before) criterion here =
      ⟨(if before.disjunction then before.draft.paren else before.draft) ++ .sql " AND " ++ here,
        false⟩) :
    (and left right).fragment column = do
      let before ← left.fragment column
      return .join (some before) criterion (← right.draft column) := by
  simp only [h]
  unfold fragment
  rw [draft]
  cases left.draft column with
  | error e => rfl
  | ok first => cases right.draft column <;> rfl

mutual

theorem draft_ofCriterion (criterion : Criterion) :
    (ofCriterion criterion).draft column = criterion.draft column := by
  match criterion with
  | .test t => rfl
  | .group .and members | .group .or members =>
    exact congrArg (fun body => do return (← body).paren) (draft_ofSiblings members)
  | .group .not members =>
    rw [ofCriterion, draft, draft, draft_ofSiblings members, Criterion.draft]
    cases Criterion.siblingsDraft column none members <;> rfl

theorem draft_ofSiblings (criteria : List Criterion) :
    (ofSiblings none criteria).draft column = Criterion.siblingsDraft column none criteria := by
  match criteria with
  | [] => rfl
  | criterion :: rest =>
    rw [ofSiblings, draft_ofSiblings_some, fragment, draft_ofCriterion, Criterion.siblingsDraft,
      isDisjunction_ofCriterion]
    cases criterion.draft column <;> rfl

/-- The invariant of the pass: it has rendered the expression of the siblings before. -/
theorem draft_ofSiblings_some (before : Condition) (criteria : List Criterion) :
    (ofSiblings (some before) criteria).draft column =
      before.fragment column >>= fun left =>
        Criterion.siblingsDraft column (some left) criteria := by
  match criteria with
  | [] =>
    rw [ofSiblings, fragment]
    change before.draft column = _
    cases before.draft column <;> rfl
  | criterion :: rest =>
    have hnext : ∀ joined : Condition,
        (joined.fragment column = do
          let left ← before.fragment column
          return .join (some left) criterion (← (ofCriterion criterion).draft column)) →
        (ofSiblings (some joined) rest).draft column = before.fragment column >>= fun left =>
          Criterion.siblingsDraft column (some left) (criterion :: rest) := by
      intro joined hjoined
      rw [draft_ofSiblings_some, hjoined, draft_ofCriterion, bind_assoc]
      apply bind_congr
      intro left
      rw [bind_assoc, Criterion.siblingsDraft]
      exact bind_congr fun here => pure_bind _ _
    match criterion with
    | .group .or members => exact hnext _ (fragment_or column before _ members)
    | .group .and members | .group .not members | .test t =>
      exact hnext _ (fragment_and column before _ fun _ _ => rfl)

end

end

end Condition

/-- Both ways to render a where clause give the same draft, and report the same error. -/
theorem Dialect.predicate_eq (d : Dialect) (m : Metamodel) (criteria : List Criterion) :
    d.predicate m criteria = (Condition.ofSiblings none criteria).draft (d.propertySql m) :=
  (Condition.draft_ofSiblings (d.propertySql m) criteria).symm

end EntitySql
