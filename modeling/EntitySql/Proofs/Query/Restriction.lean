import EntitySql.Proofs.Query.Account
import EntitySql.Proofs.Query.Effect

/-!
What mutations are restricted to. A where clause that was declared has a test in it, however the
declarations were split into blocks and groups. Mutations of an entity test the identifier and the
version, and nothing else.
-/

namespace EntitySql

/-! Checked criteria have no empty groups, so they have a test unless there are none of them. -/

theorem Criterion.tests_ne_nil_of_check (criterion : Criterion) (h : criterion.check = .ok ()) :
    criterion.tests ≠ [] := by
  match criterion with
  | .test t => simp [tests]
  | .group kind [] => cases h
  | .group kind (first :: rest) =>
    obtain ⟨_, hfirst, -⟩ := Except.bind_eq_ok_iff.mp h
    rw [tests, testsAll]
    exact List.append_ne_nil_of_left_ne_nil (tests_ne_nil_of_check first hfirst) _

theorem Criteria.tests_ne_nil_of_build {declared : List Declaration} {criteria : Criteria}
    (h : Criteria.build declared = .ok criteria) (hwhere : criteria.hasWhere = true) :
    criteria.tests ≠ [] := by
  unfold Criteria.build Scope.materialize at h
  obtain ⟨limit, -, h⟩ := Except.bind_eq_ok_iff.mp h
  obtain ⟨offset, -, h⟩ := Except.bind_eq_ok_iff.mp h
  obtain ⟨_, hchecked, h⟩ := Except.bind_eq_ok_iff.mp h
  obtain ⟨_, -, h⟩ := Except.bind_eq_ok_iff.mp h
  cases Except.pure_eq_ok_iff.mp h
  rw [Criteria.tests]
  cases hrestrictions : (declared.foldl Scope.declare {}).restrictions with
  | nil => simp [Criteria.hasWhere, hrestrictions] at hwhere
  | cons first rest =>
    rw [hrestrictions] at hchecked
    obtain ⟨_, hfirst, -⟩ := Except.bind_eq_ok_iff.mp hchecked
    exact List.append_ne_nil_of_left_ne_nil (first.tests_ne_nil_of_check hfirst) _

theorem Condition.chars_ne_nil {column : String → Except CompileError String}
    {condition : Condition} {draft : Draft} (h : condition.draft column = .ok draft)
    (htests : condition.tests ≠ []) : draft.chars ≠ [] := by
  cases condition with
  | empty => contradiction
  | test t =>
    obtain ⟨name, -, rfl⟩ := Except.map_eq_ok_iff.mp h
    cases t with
    | isNull negated _ => cases negated <;> simp [Test.draft]
    | _ => simp [Test.draft]
  | and left right | or left right =>
    obtain ⟨first, -, h⟩ := Except.bind_eq_ok_iff.mp h
    obtain ⟨second, -, rfl⟩ := Except.map_eq_ok_iff.mp h
    simp
  | not inner =>
    obtain ⟨body, -, rfl⟩ := Except.map_eq_ok_iff.mp h
    simp
  | group inner =>
    obtain ⟨body, -, rfl⟩ := Except.map_eq_ok_iff.mp h
    simp [Draft.paren]

namespace Dialect

variable {d : Dialect} {m : Metamodel}

theorem chars_predicate_ne_nil {criteria : Criteria} {predicate : Draft}
    (h : d.predicate m criteria.restrictions = .ok predicate) (htests : criteria.tests ≠ []) :
    predicate.chars ≠ [] := by
  rw [predicate_eq] at h
  refine Condition.chars_ne_nil h ?_
  rw [Condition.tests_ofSiblings]
  exact htests

theorem whereClause_eq_ok {criteria : Criteria} {filter : Draft}
    (hwhere : criteria.hasWhere = true) (h : d.whereClause m criteria = .ok filter) :
    ∃ predicate, d.predicate m criteria.restrictions = .ok predicate ∧
      filter = .sql " WHERE " ++ predicate := by
  rw [whereClause, if_pos hwhere] at h
  obtain ⟨predicate, hpredicate, rfl⟩ := Except.map_eq_ok_iff.mp h
  exact ⟨predicate, hpredicate, rfl⟩

end Dialect

private theorem hasWhere_of_requireWhere {operation : QueryKind} {m : Metamodel}
    {criteria : Criteria} (h : requireWhere operation m criteria false = .ok ()) :
    criteria.hasWhere = true := by
  unfold requireWhere at h
  split at h
  next hwhere => simpa using hwhere
  next => cases h

/-! The parts of a mutation with a where clause. -/

section
variable {d : Dialect} {draft : Draft}

def Update.head (d : Dialect) (m : Metamodel) (items : List Draft) : Draft :=
  .sql "UPDATE " ++ d.tableDraft m.table ++ .sql " SET " ++ .sepBy ", " items

def Delete.head (d : Dialect) (m : Metamodel) : Draft :=
  .sql "DELETE FROM " ++ d.tableDraft m.table

theorem Update.draft_eq_ok {q : Update} (h : q.draft d = .ok draft) :
    (q.allowMissingWhere = false → q.criteria.hasWhere = true) ∧
      (q.criteria.hasWhere = true → ∃ items predicate paging,
        d.predicate q.target q.criteria.restrictions = .ok predicate ∧
        d.mutationPaging .update q.target q.criteria = .ok paging ∧
        draft = Update.head d q.target items ++ .sql " WHERE " ++ predicate ++ paging) := by
  unfold Update.draft at h
  obtain ⟨-, h⟩ := Except.guard_eq_ok_iff.mp h
  obtain ⟨_, hrequired, h⟩ := Except.bind_eq_ok_iff.mp h
  obtain ⟨items, -, h⟩ := Except.bind_eq_ok_iff.mp h
  obtain ⟨filter, hfilter, h⟩ := Except.bind_eq_ok_iff.mp h
  obtain ⟨paging, hpaging, rfl⟩ := Except.map_eq_ok_iff.mp h
  constructor
  · intro hallow
    rw [hallow] at hrequired
    exact hasWhere_of_requireWhere hrequired
  · intro hwhere
    obtain ⟨predicate, hpredicate, rfl⟩ := Dialect.whereClause_eq_ok hwhere hfilter
    exact ⟨items, predicate, paging, hpredicate, hpaging, by
      rw [Update.head, Draft.append_assoc _ (.sql " WHERE ")]⟩

theorem Delete.draft_eq_ok {q : Delete} (h : q.draft d = .ok draft) :
    (q.allowMissingWhere = false → q.criteria.hasWhere = true) ∧
      (q.criteria.hasWhere = true → ∃ predicate paging,
        d.predicate q.target q.criteria.restrictions = .ok predicate ∧
        d.mutationPaging .delete q.target q.criteria = .ok paging ∧
        draft = Delete.head d q.target ++ .sql " WHERE " ++ predicate ++ paging) := by
  unfold Delete.draft at h
  obtain ⟨_, hrequired, h⟩ := Except.bind_eq_ok_iff.mp h
  obtain ⟨filter, hfilter, h⟩ := Except.bind_eq_ok_iff.mp h
  obtain ⟨paging, hpaging, rfl⟩ := Except.map_eq_ok_iff.mp h
  constructor
  · intro hallow
    rw [hallow] at hrequired
    exact hasWhere_of_requireWhere hrequired
  · intro hwhere
    obtain ⟨predicate, hpredicate, rfl⟩ := Dialect.whereClause_eq_ok hwhere hfilter
    exact ⟨predicate, paging, hpredicate, hpaging, by
      rw [Delete.head, Draft.append_assoc _ (.sql " WHERE ")]⟩

end

/-! Tests that are AND-ed stand one after the other, without parentheses. -/

section
variable {α : Type} {column : String → Except CompileError String} {test : α → Test}
  {sql : α → String}

private theorem Condition.draft_ofTests_after (l : List α)
    (hcolumn : ∀ a ∈ l, column (test a).property = .ok (sql a)) {left : Condition} {first : Draft}
    (hleft : left.draft column = .ok first) (hplain : left.isDisjunction = false) :
    (ofSiblings (some left) (l.map fun a => .test (test a))).draft column =
      .ok (.sepBy " AND " (first :: l.map fun a => (test a).draft (sql a))) := by
  induction l generalizing left first with
  | nil => exact hleft
  | cons a rest ih =>
    obtain ⟨ha, hrest⟩ := List.forall_mem_cons.mp hcolumn
    have hjoined : (and left (.test (test a))).draft column =
        .ok (first ++ .sql " AND " ++ (test a).draft (sql a)) := by
      simp only [draft, hleft, ha, hplain]
      rfl
    change (ofSiblings (some (and left (.test (test a)))) _).draft column = _
    refine (ih hrest hjoined rfl).trans (congrArg Except.ok ?_)
    cases rest with
    | nil => rfl
    | cons next rest => simp only [List.map_cons, Draft.sepBy, Draft.append_assoc]

theorem Condition.draft_ofTests (l : List α)
    (hcolumn : ∀ a ∈ l, column (test a).property = .ok (sql a)) :
    (ofSiblings none (l.map fun a => .test (test a))).draft column =
      .ok (.sepBy " AND " (l.map fun a => (test a).draft (sql a))) := by
  cases l with
  | nil => rfl
  | cons a rest =>
    obtain ⟨ha, hrest⟩ := List.forall_mem_cons.mp hcolumn
    have hfirst : (Condition.test (test a)).draft column = .ok ((test a).draft (sql a)) := by
      simp only [draft, ha]
      rfl
    exact draft_ofTests_after rest hrest hfirst rfl

end

def Dialect.keyDraft (d : Dialect) (c : Column) (value : Value) : Draft :=
  .sql (d.columnSql c) ++ if value.isNull then .sql " IS NULL" else .sql " = " ++ .bind value

def Dialect.keysDraft (d : Dialect) (m : Metamodel) (value : Column → Value) : Draft :=
  .sepBy " AND " (m.keys.map fun c => d.keyDraft c (value c))

namespace Metamodel

variable {m : Metamodel} {read : String → Option Value}

theorem property_holds (c : Column) (value : Value) : (holds c value).property = c.path := by
  unfold holds
  split <;> rfl

private theorem draft_holds (d : Dialect) (c : Column) (value : Value) :
    (holds c value).draft (d.columnSql c) = d.keyDraft c value := by
  unfold holds Dialect.keyDraft
  split
  · rfl
  · rw [Test.draft, Draft.append_assoc]
    rfl

theorem column?_of_mem (h : m.columns.Pairwise Column.Compatible) {c : Column}
    (hc : c ∈ m.columns) : m.column? c.path = some c := by
  obtain ⟨found, hfound, hpath⟩ := Option.map_eq_some_iff.mp (column?_path hc)
  rw [hfound, eq_of_path_eq h (m.mem_columns_of_column? hfound) hc hpath]

theorem predicate_of_keys (h : m.columns.Pairwise Column.Compatible) (d : Dialect)
    (value : Column → Value) :
    d.predicate m ((m.keys.map fun c => holds c (value c)).map .test) =
      .ok (d.keysDraft m value) := by
  have hcolumn : ∀ c ∈ m.keys,
      d.propertySql m (holds c (value c)).property = .ok (d.columnSql c) := by
    intro c hc
    rw [Dialect.propertySql, property_holds,
      resolve_eq_ok_iff.mpr (column?_of_mem h (keys_subset m hc))]
    rfl
  rw [Dialect.predicate_eq, List.map_map]
  refine (Condition.draft_ofTests m.keys hcolumn).trans ?_
  simp only [draft_holds]
  rfl

structure Locates (m : Metamodel) (read : String → Option Value) (criteria : Criteria) : Prop where
  identified : m.ids ≠ []
  read_eq : ∀ c ∈ m.keys, read c.path = some (current read c)
  eq : criteria = { restrictions := (m.keys.map fun c => holds c (current read c)).map .test }

theorem locates_of_rowCriteria {criteria : Criteria} (h : m.rowCriteria read = .ok criteria) :
    m.Locates read criteria := by
  refine ⟨?_, ?_, eq_of_rowCriteria h⟩
  · unfold rowCriteria at h
    obtain ⟨hids, -⟩ := Except.guard_eq_ok_iff.mp h
    simpa using hids
  · unfold rowCriteria at h
    obtain ⟨-, h⟩ := Except.guard_eq_ok_iff.mp h
    obtain ⟨tests, htests, -⟩ := Except.bind_eq_ok_iff.mp h
    exact read_of_mapM_valueOf htests

namespace Locates

variable {criteria : Criteria} (h : m.Locates read criteria)

include h

theorem hasWhere : criteria.hasWhere = true := by
  obtain ⟨c, rest, hids⟩ := List.exists_cons_of_ne_nil h.identified
  rw [h.eq, keys, hids]
  rfl

theorem predicate_eq (hcompatible : m.columns.Pairwise Column.Compatible) (d : Dialect) :
    d.predicate m criteria.restrictions = .ok (d.keysDraft m (current read)) := by
  rw [h.eq]
  exact predicate_of_keys hcompatible d (current read)

theorem paging_eq (d : Dialect) (operation : QueryKind) :
    d.mutationPaging operation m criteria = .ok ∅ := by
  rw [h.eq]
  rfl

end Locates

end Metamodel

open Metamodel

section
variable {m : Metamodel} {read : String → Option Value} {d : Dialect} {draft : Draft}

theorem Update.draft_of_ofEntity {q : Update} (h : Update.ofEntity m read = .ok q)
    (hcompatible : m.columns.Pairwise Column.Compatible) (hdraft : q.draft d = .ok draft) :
    m.Locates read q.criteria ∧ ∃ items,
      draft = Update.head d m items ++ .sql " WHERE " ++ d.keysDraft m (current read) := by
  unfold Update.ofEntity at h
  obtain ⟨criteria, hcriteria, h⟩ := Except.bind_eq_ok_iff.mp h
  obtain ⟨updated, -, h⟩ := Except.bind_eq_ok_iff.mp h
  obtain ⟨version, -, h⟩ := Except.bind_eq_ok_iff.mp h
  cases Except.pure_eq_ok_iff.mp h
  have hlocates := locates_of_rowCriteria hcriteria
  obtain ⟨items, predicate, paging, hpredicate, hpaging, rfl⟩ :=
    (Update.draft_eq_ok hdraft).2 hlocates.hasWhere
  cases Except.ok.inj ((hlocates.predicate_eq hcompatible d).symm.trans hpredicate)
  cases Except.ok.inj ((hlocates.paging_eq d .update).symm.trans hpaging)
  exact ⟨hlocates, items, Draft.append_empty _⟩

theorem Delete.draft_of_ofEntity {q : Delete} (h : Delete.ofEntity m read = .ok q)
    (hcompatible : m.columns.Pairwise Column.Compatible) (hdraft : q.draft d = .ok draft) :
    m.Locates read q.criteria ∧
      draft = Delete.head d m ++ .sql " WHERE " ++ d.keysDraft m (current read) := by
  unfold Delete.ofEntity at h
  obtain ⟨criteria, hcriteria, rfl⟩ := Except.map_eq_ok_iff.mp h
  have hlocates := locates_of_rowCriteria hcriteria
  obtain ⟨predicate, paging, hpredicate, hpaging, rfl⟩ :=
    (Delete.draft_eq_ok hdraft).2 hlocates.hasWhere
  cases Except.ok.inj ((hlocates.predicate_eq hcompatible d).symm.trans hpredicate)
  cases Except.ok.inj ((hlocates.paging_eq d .delete).symm.trans hpaging)
  exact ⟨hlocates, Draft.append_empty _⟩

end

end EntitySql
