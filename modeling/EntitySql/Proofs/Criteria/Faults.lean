import EntitySql.Criteria.Scope

/-!
Faults of declared criteria. What may be wrong with a scope can be read off it as a list: first the
limit and the offset, then the where clause node by node, each node before its members, and last the
ordering. Criteria are made exactly if the list is empty, and refused for the first entry otherwise.
-/

namespace EntitySql

def refuseFirst : List CriteriaError → Except CriteriaError Unit
  | [] => .ok ()
  | fault :: _ => .error fault

theorem refuseFirst_append (faults more : List CriteriaError) :
    refuseFirst (faults ++ more) = (do refuseFirst faults; refuseFirst more) := by
  cases faults <;> rfl

theorem refuseFirst_flatMap {α : Type} (faults : α → List CriteriaError) (l : List α) :
    refuseFirst (l.flatMap faults) = l.forM fun a => refuseFirst (faults a) := by
  induction l with
  | nil => rfl
  | cons a rest ih =>
    rw [List.flatMap_cons, refuseFirst_append, ih]
    rfl

/-! Names and numbers. -/

def nameFaults (property : String) : List CriteriaError :=
  if property = "" then [.emptyProperty] else []

private theorem checkProperty_eq (property : String) :
    checkProperty property = refuseFirst (nameFaults property) := by
  unfold checkProperty nameFaults
  simp only [String.isEmpty_iff]
  split <;> rfl

@[simp] theorem nameFaults_eq_nil_iff {property : String} :
    nameFaults property = [] ↔ property ≠ "" := by
  simp [nameFaults]

def countFaults (refuse : Int64 → CriteriaError) : Option Int64 → List CriteriaError
  | some n => if n < 0 then [refuse n] else []
  | none => []

private theorem countFaults_eq_nil_iff {refuse : Int64 → CriteriaError} {number : Option Int64} :
    countFaults refuse number = [] ↔ ∀ n, number = some n → 0 ≤ n := by
  cases number <;> simp [countFaults, Int64.not_lt]

theorem checkCount_eq (refuse : Int64 → CriteriaError) (number : Option Int64) :
    checkCount refuse number =
      (refuseFirst (countFaults refuse number)).map fun _ => number.map (·.toInt.toNat) := by
  cases number with
  | none => rfl
  | some n => by_cases hn : n < 0 <;> simp [checkCount, countFaults, hn, refuseFirst, Except.map]

/-! Where clauses. -/

mutual

/-- A node and the nodes below it: every node before its members, members from left to right. -/
def Criterion.nodes : Criterion → List Criterion
  | .test t => [.test t]
  | .group kind members => .group kind members :: Criterion.nodesAll members

def Criterion.nodesAll : List Criterion → List Criterion
  | [] => []
  | first :: rest => first.nodes ++ Criterion.nodesAll rest

end

/-- What is wrong with a test. Its list of candidates counts after its property. -/
def Test.faults (t : Test) : List CriteriaError :=
  nameFaults t.property ++
    match t with
    | .inList _ property [] => [.emptyInList property]
    | _ => []

/-- What is wrong with a node itself, whatever its members. -/
def Criterion.faults : Criterion → List CriteriaError
  | .test t => t.faults
  | .group kind [] => [.emptyGroup kind]
  | .group _ (_ :: _) => []

theorem Test.check_eq (t : Test) : t.check = refuseFirst t.faults := by
  unfold Test.check Test.faults
  rw [refuseFirst_append, checkProperty_eq]
  cases t with
  | inList negated property values => cases values <;> rfl
  | _ => rfl

mutual

/-- A node is checked before its members, so the first fault in the order of the nodes is found. -/
theorem Criterion.check_eq (criterion : Criterion) :
    criterion.check = refuseFirst (criterion.nodes.flatMap Criterion.faults) := by
  match criterion with
  | .test t =>
    rw [Criterion.check, t.check_eq, nodes, List.flatMap_singleton]
    rfl
  | .group kind [] => rfl
  | .group kind (first :: rest) =>
    rw [Criterion.check, nodes, List.flatMap_cons]
    exact checkAll_eq (first :: rest)

theorem Criterion.checkAll_eq (criteria : List Criterion) :
    Criterion.checkAll criteria =
      refuseFirst ((Criterion.nodesAll criteria).flatMap Criterion.faults) := by
  match criteria with
  | [] => rfl
  | first :: rest =>
    rw [Criterion.checkAll, nodesAll, List.flatMap_append, refuseFirst_append,
      first.check_eq, checkAll_eq rest]

end

/-- A node stands among siblings, or among the members of a group at any depth below them. -/
inductive Criterion.Within (criterion : Criterion) : List Criterion → Prop
  | sibling {siblings : List Criterion} (h : criterion ∈ siblings) : criterion.Within siblings
  | member {kind : GroupKind} {members siblings : List Criterion}
      (hgroup : .group kind members ∈ siblings) (h : criterion.Within members) :
      criterion.Within siblings

namespace Criterion

theorem Within.mono {criterion : Criterion} {siblings others : List Criterion}
    (h : criterion.Within siblings) (hsubset : siblings ⊆ others) : criterion.Within others := by
  cases h with
  | sibling h => exact .sibling (hsubset h)
  | member hgroup h => exact .member (hsubset hgroup) h

mutual

theorem within_of_mem_nodes {criterion root : Criterion} (h : criterion ∈ root.nodes) :
    criterion.Within [root] := by
  match root with
  | .test t => exact .sibling h
  | .group kind members =>
    rcases List.mem_cons.mp h with rfl | h
    · exact .sibling (by simp)
    · exact .member (List.mem_singleton_self _) (within_of_mem_nodesAll h)

theorem within_of_mem_nodesAll {criterion : Criterion} {siblings : List Criterion}
    (h : criterion ∈ nodesAll siblings) : criterion.Within siblings := by
  match siblings with
  | [] => cases h
  | first :: rest =>
    rcases List.mem_append.mp h with h | h
    · exact (within_of_mem_nodes h).mono (by simp)
    · exact (within_of_mem_nodesAll h).mono (by simp)

end

private theorem mem_nodes_self (criterion : Criterion) : criterion ∈ criterion.nodes := by
  cases criterion <;> simp [nodes]

theorem nodes_subset {criterion : Criterion} {siblings : List Criterion}
    (h : criterion ∈ siblings) : criterion.nodes ⊆ nodesAll siblings := by
  induction siblings with
  | nil => cases h
  | cons first rest ih =>
    rcases List.mem_cons.mp h with rfl | h
    · exact List.subset_append_left _ _
    · exact List.Subset.trans (ih h) (List.subset_append_right _ _)

theorem mem_nodesAll_iff {criterion : Criterion} {siblings : List Criterion} :
    criterion ∈ nodesAll siblings ↔ criterion.Within siblings := by
  refine ⟨within_of_mem_nodesAll, fun h => ?_⟩
  induction h with
  | sibling h => exact nodes_subset h criterion.mem_nodes_self
  | @member kind members siblings hgroup _ ih =>
    apply nodes_subset hgroup
    rw [nodes]
    exact List.mem_cons_of_mem _ ih

end Criterion

/-! Scopes. -/

namespace Scope

/-- What is wrong with a scope, in the order in which it counts. -/
def faults (scope : Scope) : List CriteriaError :=
  countFaults .negativeLimit scope.limit ++ (countFaults .negativeOffset scope.offset ++
    ((Criterion.nodesAll scope.restrictions).flatMap Criterion.faults ++
      scope.order.flatMap fun item => nameFaults item.property))

/-- The criteria that a scope declares, taken at its word. -/
def criteria (scope : Scope) : Criteria where
  restrictions := scope.restrictions
  order := scope.order
  limit := scope.limit.map (·.toInt.toNat)
  offset := scope.offset.map (·.toInt.toNat)

theorem materialize_eq (scope : Scope) :
    scope.materialize = (refuseFirst scope.faults).map fun _ => scope.criteria := by
  have hsorted : (scope.order.forM fun item => checkProperty item.property) =
      refuseFirst (scope.order.flatMap fun item => nameFaults item.property) := by
    rw [refuseFirst_flatMap]
    simp only [checkProperty_eq]
  unfold materialize faults criteria
  rw [hsorted, checkCount_eq, checkCount_eq, Criterion.checkAll_eq]
  simp only [refuseFirst_append]
  cases refuseFirst (countFaults .negativeLimit scope.limit) with
  | error e => rfl
  | ok _ =>
    cases refuseFirst (countFaults .negativeOffset scope.offset) with
    | error e => rfl
    | ok _ =>
      cases refuseFirst ((Criterion.nodesAll scope.restrictions).flatMap Criterion.faults) with
      | error e => rfl
      | ok _ => rfl

/-- Nothing that was declared is out of bounds or left empty, at any depth. -/
structure WellFormed (scope : Scope) : Prop where
  limit : ∀ n, scope.limit = some n → 0 ≤ n
  offset : ∀ n, scope.offset = some n → 0 ≤ n
  groups : ∀ kind members, (Criterion.group kind members).Within scope.restrictions → members ≠ []
  candidates : ∀ negated property values,
    (Criterion.test (.inList negated property values)).Within scope.restrictions → values ≠ []
  tested : ∀ t, (Criterion.test t).Within scope.restrictions → t.property ≠ ""
  sorted : ∀ item ∈ scope.order, item.property ≠ ""

structure Declares (scope : Scope) (criteria : Criteria) : Prop where
  restrictions : criteria.restrictions = scope.restrictions
  order : criteria.order = scope.order
  limit : criteria.limit.map Int.ofNat = scope.limit.map Int64.toInt
  offset : criteria.offset.map Int.ofNat = scope.offset.map Int64.toInt

end Scope

theorem Test.faults_eq_nil_iff {t : Test} :
    t.faults = [] ↔ t.property ≠ "" ∧
      ∀ negated property values, t = .inList negated property values → values ≠ [] := by
  unfold Test.faults
  rw [List.append_eq_nil_iff, nameFaults_eq_nil_iff, and_congr_right_iff]
  intro _
  cases t with
  | inList negated property values =>
    cases values with
    | nil => exact iff_of_false (by simp) fun h => h negated property [] rfl rfl
    | cons value rest =>
      refine iff_of_true rfl ?_
      rintro _ _ _ ⟨⟩
      exact List.cons_ne_nil value rest
  | _ => simp

theorem Criterion.faults_group_eq_nil_iff {kind : GroupKind} {members : List Criterion} :
    (group kind members).faults = [] ↔ members ≠ [] := by
  cases members <;> simp [Criterion.faults]

namespace Scope

theorem faults_eq_nil_iff {scope : Scope} : scope.faults = [] ↔ scope.WellFormed := by
  have hwhere : (Criterion.nodesAll scope.restrictions).flatMap Criterion.faults = [] ↔
      ∀ criterion : Criterion, criterion.Within scope.restrictions → criterion.faults = [] := by
    simp only [List.flatMap_eq_nil_iff, Criterion.mem_nodesAll_iff]
  have hsorted : (scope.order.flatMap fun item => nameFaults item.property) = [] ↔
      ∀ item ∈ scope.order, item.property ≠ "" := by
    simp only [List.flatMap_eq_nil_iff, nameFaults_eq_nil_iff]
  unfold faults
  rw [List.append_eq_nil_iff, List.append_eq_nil_iff, List.append_eq_nil_iff,
    countFaults_eq_nil_iff, countFaults_eq_nil_iff, hwhere, hsorted]
  constructor
  · rintro ⟨hlimit, hoffset, hnodes, hsorted⟩
    have htest : ∀ t, (Criterion.test t).Within scope.restrictions → t.faults = [] :=
      fun t ht => hnodes _ ht
    exact {
      limit := hlimit
      offset := hoffset
      groups := fun _ _ hgroup => Criterion.faults_group_eq_nil_iff.mp (hnodes _ hgroup)
      candidates := fun negated property values ht =>
        (Test.faults_eq_nil_iff.mp (htest _ ht)).2 negated property values rfl
      tested := fun t ht => (Test.faults_eq_nil_iff.mp (htest t ht)).1
      sorted := hsorted }
  · intro h
    refine ⟨h.limit, h.offset, fun criterion hwithin => ?_, h.sorted⟩
    cases criterion with
    | test t =>
      refine Test.faults_eq_nil_iff.mpr ⟨h.tested t hwithin, ?_⟩
      rintro negated property values rfl
      exact h.candidates negated property values hwithin
    | group kind members =>
      exact Criterion.faults_group_eq_nil_iff.mpr (h.groups kind members hwithin)

private theorem toInt_counts {number : Option Int64} (h : ∀ n, number = some n → 0 ≤ n) :
    (number.map (·.toInt.toNat)).map Int.ofNat = number.map Int64.toInt := by
  cases number with
  | none => rfl
  | some n =>
    have hnonneg : 0 ≤ n.toInt := Int64.le_iff_toInt_le.mp (h n rfl)
    exact congrArg some (Int.toNat_of_nonneg hnonneg)

theorem WellFormed.declares {scope : Scope} (h : scope.WellFormed) :
    scope.Declares scope.criteria where
  restrictions := rfl
  order := rfl
  limit := toInt_counts h.limit
  offset := toInt_counts h.offset

/-- A scope yields criteria exactly if it is well formed, and then just those it declares.
Otherwise it is refused for the first of its faults. -/
theorem materialize_or_first_fault (scope : Scope) :
    ((∃ criteria, scope.materialize = .ok criteria) ↔ scope.WellFormed) ∧
      (∀ criteria, scope.materialize = .ok criteria → scope.Declares criteria) ∧
      ∀ e, scope.materialize = .error e ↔ scope.faults.head? = some e := by
  rw [materialize_eq, ← faults_eq_nil_iff]
  cases hfaults : scope.faults with
  | nil =>
    have hdeclares := (faults_eq_nil_iff.mp hfaults).declares
    refine ⟨⟨fun _ => rfl, fun _ => ⟨scope.criteria, rfl⟩⟩, ?_, ?_⟩
    · rintro criteria ⟨⟩
      exact hdeclares
    · simp [refuseFirst, Except.map]
  | cons fault rest => simp [refuseFirst, Except.map]

/-- Five faults: the list of candidates counts after the property, and before the next group. -/
example : faults {
    limit := some (-1)
    restrictions := [.group .not [.test (.inList false "" []), .group .or []]]
    order := [⟨"", .asc, none⟩] } =
    [.negativeLimit (-1), .emptyProperty, .emptyInList "", .emptyGroup .or, .emptyProperty] := by
  decide

end Scope
end EntitySql
