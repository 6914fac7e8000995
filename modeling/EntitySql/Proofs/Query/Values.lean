import EntitySql.Proofs.Query.Account
import EntitySql.Proofs.Query.Binding

/-!
The values of compiled statements. They are those that the query holds, in the order in which it
holds them, followed by the limit and the offset as they were last declared. Numbers that are
declared fit into 64 bits, so none of them is cut off.
-/

namespace EntitySql

namespace Declaration

def limit? : Declaration → Option Int64
  | limit n => some n
  | _ => none

def offset? : Declaration → Option Int64
  | offset n => some n
  | _ => none

/-- The last of the declared numbers that is a count, as the value to be bound for it. -/
def lastCount (number? : Declaration → Option Int64) (declared : List Declaration) : List Value :=
  ((declared.filterMap number?).filter (0 ≤ ·)).getLast?.toList.map Value.bigInt

end Declaration

namespace Scope

theorem field_foldl_declare {field : Scope → Option Int64} {number? : Declaration → Option Int64}
    (hdeclare : ∀ (scope : Scope) d, field (scope.declare d) = (number? d).or (field scope))
    (declared : List Declaration) (scope : Scope) :
    field (declared.foldl declare scope) =
      (declared.filterMap number?).getLast?.or (field scope) := by
  induction declared generalizing scope with
  | nil => rfl
  | cons d rest ih =>
    rw [List.foldl_cons, ih, hdeclare]
    cases hd : number? d with
    | none => simp [hd]
    | some n => simp [hd, List.getLast?_cons]

theorem limit_declare (scope : Scope) (d : Declaration) :
    (scope.declare d).limit = d.limit?.or scope.limit := by
  cases d <;> rfl

theorem offset_declare (scope : Scope) (d : Declaration) :
    (scope.declare d).offset = d.offset?.or scope.offset := by
  cases d <;> rfl

end Scope

theorem Value.count_toNatClampNeg {n : Int64} (h : 0 ≤ n) :
    count n.toNatClampNeg = .bigInt n := by
  have hnonneg : 0 ≤ n.toInt := Int64.le_iff_toInt_le.mp h
  have hbound : (n.toNatClampNeg : Int) ≤ Int64.maxValue.toInt := by
    rw [Int64.toNatClampNeg, Int.toNat_of_nonneg hnonneg]
    exact n.toInt_le
  rw [count, if_pos hbound]
  congr 1
  exact Int64.ofNat_toNatClampNeg n h

private theorem counts_of_checkCount {refuse : Int64 → CriteriaError} {numbers : List Int64}
    {count : Option Nat} (h : checkCount refuse numbers.getLast? = .ok count) :
    count.toList.map Value.count =
      (numbers.filter (0 ≤ ·)).getLast?.toList.map Value.bigInt := by
  cases hlast : numbers.getLast? with
  | none =>
    rw [hlast] at h
    cases h
    rw [List.getLast?_eq_none_iff.mp hlast]
    rfl
  | some n =>
    rw [hlast, checkCount] at h
    split at h
    next => cases h
    next hnot =>
      cases h
      have hnonneg : 0 ≤ n := Int64.not_lt.mp hnot
      obtain ⟨before, rfl⟩ := List.getLast?_eq_some_iff.mp hlast
      simp [List.filter_append, hnonneg, Value.count_toNatClampNeg hnonneg]

theorem Criteria.counts_of_build {declared : List Declaration} {criteria : Criteria}
    (h : Criteria.build declared = .ok criteria) :
    criteria.limit.toList.map Value.count = Declaration.lastCount Declaration.limit? declared ∧
      criteria.offset.toList.map Value.count =
        Declaration.lastCount Declaration.offset? declared := by
  unfold Criteria.build Scope.materialize at h
  obtain ⟨limit, hlimit, h⟩ := Except.bind_eq_ok_iff.mp h
  obtain ⟨offset, hoffset, h⟩ := Except.bind_eq_ok_iff.mp h
  obtain ⟨-, -, h⟩ := Except.bind_eq_ok_iff.mp h
  obtain ⟨-, -, h⟩ := Except.bind_eq_ok_iff.mp h
  rw [← Except.pure_eq_ok_iff.mp h]
  rw [Scope.field_foldl_declare Scope.limit_declare, Option.or_none] at hlimit
  rw [Scope.field_foldl_declare Scope.offset_declare, Option.or_none] at hoffset
  exact ⟨counts_of_checkCount hlimit, counts_of_checkCount hoffset⟩

private theorem Query.bound_counts {q : Query} {declared : List Declaration}
    (h : ∀ criteria ∈ q.criteria?, Criteria.build declared = .ok criteria) :
    q.bound (q.counts (·.limit)) (q.counts (·.offset)) =
      q.bound (Declaration.lastCount Declaration.limit? declared)
        (Declaration.lastCount Declaration.offset? declared) := by
  cases hq : q.criteria? with
  | none =>
    cases q with
    | insert q => rfl
    | select q | update q | delete q => cases hq
  | some criteria =>
    obtain ⟨hlimit, hoffset⟩ := Criteria.counts_of_build (h criteria hq)
    simp only [Query.counts, hq, Option.bind_some, hlimit, hoffset]

/-- A compiled statement binds what its query holds, in order, and nothing else. -/
theorem compiled_values (d : Dialect) (log : Bool) {q : Query} {descriptor : Descriptor}
    (haccepted : Metamodel.ofDescriptor descriptor = .ok q.target) {declared : List Declaration}
    (hcriteria : ∀ criteria ∈ q.criteria?, Criteria.build declared = .ok criteria) {s : Statement}
    (hs : q.compile d log = .ok s) :
    q.bound (Declaration.lastCount Declaration.limit? declared)
      (Declaration.lastCount Declaration.offset? declared) = some s.values := by
  obtain ⟨draft, hdraft, -, rfl⟩ := Query.compile_eq_ok_iff.mp hs
  have hyields := Query.yields_draft d (Metamodel.compatible_of_ofDescriptor haccepted)
  rw [hdraft] at hyields
  rw [← Query.bound_counts hcriteria]
  exact hyields.2

/-- Late tasks and some others, up to the largest count, which replaces two other limits. -/
def lateTasks : List Declaration := [
  .limit (-1), .limit 3,
  .restrict [.test (.between false "due.day" (.integer 1) (.integer 2)),
    .group .or [.test (.like true "title" (.text "%x")), .test (.isNull false "day")]],
  .offset 40,
  .restrict [.group .not [.test (.inList false "id" [.bigInt 7, .bigInt 8])]],
  .limit Int64.maxValue]

def selection (m : Metamodel) (criteria : Criteria) : Query := .select { target := m, criteria }

theorem lateTasks_values :
    ∃ m criteria s, Metamodel.ofDescriptor task = .ok m ∧
      Criteria.build lateTasks = .ok criteria ∧
      (selection m criteria).compile .postgres true = .ok s ∧
      s.values = [.integer 1, .integer 2, .text "%x", .bigInt 7, .bigInt 8,
        .bigInt Int64.maxValue, .bigInt 40] := by
  obtain ⟨m, criteria, draft, haccepted, hcriteria, hdraft, heq, hbound⟩ :
      ∃ m criteria draft, Metamodel.ofDescriptor task = .ok m ∧
        Criteria.build lateTasks = .ok criteria ∧
        (selection m criteria).draft .postgres = .ok draft ∧ draft.stray = draft.hidden ∧
        (selection m criteria).bound (Declaration.lastCount Declaration.limit? lateTasks)
            (Declaration.lastCount Declaration.offset? lateTasks) =
          some [.integer 1, .integer 2, .text "%x", .bigInt 7, .bigInt 8,
            .bigInt Int64.maxValue, .bigInt 40] :=
    ⟨_, _, _, rfl, rfl, rfl, by decide, rfl⟩
  have hs : (selection m criteria).compile .postgres true = .ok (draft.finish true) :=
    Query.compile_of_draft hdraft heq
  have hmaterialized : ∀ found ∈ (selection m criteria).criteria?,
      Criteria.build lateTasks = .ok found := by
    rintro found ⟨⟩
    exact hcriteria
  have hvalues := compiled_values .postgres true haccepted hmaterialized hs
  exact ⟨m, criteria, _, haccepted, hcriteria, hs, Option.some.inj (hvalues.symm.trans hbound)⟩

end EntitySql
