import EntitySql.Proofs.Condition.Meaning
import EntitySql.Proofs.Metamodel.Layout
import EntitySql.Proofs.Query.Rendering

/-!
What queries account for. A query may have several faults; its draft is refused for the first of
them, and only for one of them. Without faults it binds its values, in an order that can be read
off the query.
-/

namespace EntitySql

/-- Fails with the first of the faults, if there are any, and otherwise finds something good. -/
def Yields {α : Type} (faults : List CompileError) (good : α → Prop) :
    Except CompileError α → Prop
  | .ok a => faults = [] ∧ good a
  | .error e => faults.head? = some e

section
variable {α β : Type} {faults more : List CompileError} {good : α → Prop} {fine : β → Prop}

theorem yields_pure {a : α} (h : good a) : Yields [] good (pure a) := ⟨rfl, h⟩

theorem yields_throw {e : CompileError} : Yields [e] good (throw e) := rfl

theorem Yields.imp {x : Except CompileError α} {weaker : α → Prop} (hx : Yields faults good x)
    (h : ∀ a, good a → weaker a) : Yields faults weaker x := by
  cases x with
  | error e => exact hx
  | ok a => exact ⟨hx.1, h a hx.2⟩

/-- Faults of what comes later count only if nothing failed before. -/
theorem Yields.bind {x : Except CompileError α} {f : α → Except CompileError β}
    (hx : Yields faults good x) (hf : ∀ a, good a → Yields more fine (f a)) :
    Yields (faults ++ more) fine (x >>= f) := by
  cases x with
  | error e =>
    change (faults ++ more).head? = some e
    rw [List.head?_append, (hx : faults.head? = some e), Option.some_or]
  | ok a =>
    obtain ⟨rfl, ha⟩ := hx
    exact hf a ha

theorem Yields.map {x : Except CompileError α} {f : α → β} (hx : Yields faults good x)
    (hf : ∀ a, good a → fine (f a)) : Yields faults fine (f <$> x) := by
  cases x with
  | error e => exact hx
  | ok a => exact ⟨hx.1, hf a hx.2⟩

private theorem yields_ite {c : Prop} [Decidable c] {x y : Except CompileError α}
    (hx : c → Yields faults good x) (hy : ¬c → Yields faults good y) :
    Yields faults good (if c then x else y) := by
  split
  · exact hx ‹_›
  · exact hy ‹_›

theorem yields_guard {c : Prop} [Decidable c] {e : CompileError}
    {rest : Unit → Except CompileError α} (hrest : Yields more good (rest ())) :
    Yields ((if c then [e] else []) ++ more) good (if c then throw e >>= rest else rest ()) := by
  split
  · exact (rfl : (e :: more).head? = some e)
  · exact hrest

theorem yields_mapM {f : α → Except CompileError β} {faults : α → List CompileError}
    {good : α → β → Prop} {l : List α} (h : ∀ a ∈ l, Yields (faults a) (good a) (f a)) :
    Yields (l.flatMap faults) (List.Forall₂ good l) (l.mapM f) := by
  induction l with
  | nil => exact yields_pure .nil
  | cons a rest ih =>
    rw [List.mapM_cons, List.flatMap_cons]
    apply (h a (by simp)).bind
    intro b hb
    apply (ih fun a ha => h a (by simp [ha])).map
    intro bs hbs
    exact .cons hb hbs

end

/-! References, and the tests of a where clause. -/

namespace Metamodel

def unresolved (m : Metamodel) (properties : List String) : List CompileError :=
  (properties.filter fun property => (m.column? property).isNone).map
    (.unknownProperty m.entity ·)

@[simp] theorem unresolved_nil (m : Metamodel) : m.unresolved [] = [] := rfl

@[simp] theorem unresolved_append (m : Metamodel) (left right : List String) :
    m.unresolved (left ++ right) = m.unresolved left ++ m.unresolved right := by
  simp [unresolved]

private theorem unresolved_map {α : Type} (m : Metamodel) (f : α → String) (l : List α) :
    m.unresolved (l.map f) = l.flatMap fun a => m.unresolved [f a] := by
  induction l with
  | nil => rfl
  | cons a rest ih =>
    rw [List.map_cons, List.flatMap_cons, ← ih, ← unresolved_append]
    rfl

theorem yields_resolve (m : Metamodel) (property : String) :
    Yields (m.unresolved [property]) (fun c => m.column? property = some c)
      (m.resolve property) := by
  unfold resolve unresolved
  split
  next c hc => exact ⟨by simp [hc], hc⟩
  next hnone => simp [Yields, hnone]

end Metamodel

def Condition.tests : Condition → List Test
  | empty => []
  | test t => [t]
  | and left right | or left right => left.tests ++ right.tests
  | not inner | group inner => inner.tests

mutual

theorem Condition.tests_ofCriterion (criterion : Criterion) :
    (ofCriterion criterion).tests = criterion.tests := by
  match criterion with
  | .test t => rfl
  | .group .and members => exact tests_ofSiblings none members
  | .group .or members => exact tests_ofSiblings none members
  | .group .not members => exact tests_ofSiblings none members

theorem Condition.tests_ofSiblings (before : Option Condition) (criteria : List Criterion) :
    (ofSiblings before criteria).tests =
      (before.elim [] Condition.tests) ++ Criterion.testsAll criteria := by
  match criteria with
  | [] => cases before <;> simp [ofSiblings, Condition.tests, Criterion.testsAll]
  | criterion :: rest =>
    have hhere := tests_ofCriterion criterion
    have hjoined : ∀ joined : Condition,
        joined.tests = before.elim [] Condition.tests ++ criterion.tests →
        (ofSiblings (some joined) rest).tests =
          before.elim [] Condition.tests ++ Criterion.testsAll (criterion :: rest) := by
      intro joined h
      rw [tests_ofSiblings (some joined) rest, Option.elim_some, h, Criterion.testsAll,
        List.append_assoc]
    match before, criterion with
    | none, _ => exact hjoined _ hhere
    | some left, .group .or _ => exact hjoined _ (congrArg (left.tests ++ ·) hhere)
    | some left, .group .and _ => exact hjoined _ (congrArg (left.tests ++ ·) hhere)
    | some left, .group .not _ => exact hjoined _ (congrArg (left.tests ++ ·) hhere)
    | some left, .test _ => exact hjoined _ (congrArg (left.tests ++ ·) hhere)

end

namespace Draft

@[simp] theorem values_paren (draft : Draft) : draft.paren.values = draft.values := by
  simp [paren]

theorem values_sepBy (separator : String) (drafts : List Draft) :
    (sepBy separator drafts).values = drafts.flatMap values := by
  induction drafts with
  | nil => rfl
  | cons draft rest ih =>
    cases rest with
    | nil => simp [sepBy]
    | cons next rest => simp [sepBy, ih]

private theorem values_sepBy_of_forall₂ {α : Type} {values : α → List Value} {l : List α}
    {drafts : List Draft} (h : List.Forall₂ (fun a draft => draft.values = values a) l drafts)
    (separator : String) : (sepBy separator drafts).values = l.flatMap values := by
  rw [values_sepBy]
  induction h with
  | nil => rfl
  | cons hdraft _ ih => rw [List.flatMap_cons, List.flatMap_cons, hdraft, ih]

end Draft

theorem Test.values_draft (column : String) (t : Test) : (t.draft column).values = t.values := by
  cases t <;> simp [Test.draft, Test.values]

section
variable (d : Dialect) (m : Metamodel)

theorem Dialect.yields_propertySql (property : String) :
    Yields (m.unresolved [property]) (fun _ => True) (d.propertySql m property) :=
  (m.yields_resolve property).map fun _ _ => trivial

theorem Condition.yields_draft (condition : Condition) :
    Yields (m.unresolved (condition.tests.map Test.property))
      (fun draft => draft.values = condition.tests.flatMap Test.values)
      (condition.draft (d.propertySql m)) := by
  induction condition with
  | empty => exact ⟨rfl, rfl⟩
  | test t =>
    apply (d.yields_propertySql m t.property).map
    intro column _
    simp [Condition.tests, Test.values_draft]
  | and left right ihleft ihright =>
    simp only [Condition.tests, List.map_append, Metamodel.unresolved_append]
    apply ihleft.bind
    intro first hfirst
    apply ihright.map
    intro second hsecond
    split <;> simp [hfirst, hsecond]
  | or left right ihleft ihright =>
    simp only [Condition.tests, List.map_append, Metamodel.unresolved_append]
    apply ihleft.bind
    intro first hfirst
    apply ihright.map
    intro second hsecond
    simp [hfirst, hsecond]
  | not inner ih =>
    apply ih.map
    intro draft hdraft
    simpa [Condition.tests] using hdraft
  | group inner ih =>
    apply ih.map
    intro draft hdraft
    simpa [Condition.tests] using hdraft

end

/-! Clauses. -/

namespace Criteria

def tests (criteria : Criteria) : List Test := Criterion.testsAll criteria.restrictions

def whereFaults (m : Metamodel) (criteria : Criteria) : List CompileError :=
  m.unresolved (criteria.tests.map Test.property)

def whereValues (criteria : Criteria) : List Value := criteria.tests.flatMap Test.values

end Criteria

/-- MySQL has no words for the place of nulls. -/
def SortItem.faults (d : Dialect) (m : Metamodel) (item : SortItem) : List CompileError :=
  m.unresolved [item.property] ++
    if d = .mysql ∧ item.nulls.isSome then [.unsupportedNullOrdering d] else []

namespace Criteria

def orderFaults (d : Dialect) (m : Metamodel) (criteria : Criteria) : List CompileError :=
  criteria.order.flatMap (SortItem.faults d m)

/-- Only MySQL limits and orders mutations, and no dialect offsets them. -/
def pagingFaults (d : Dialect) (operation : QueryKind) (m : Metamodel) (criteria : Criteria) :
    List CompileError :=
  (if criteria.offset.isSome then [.unsupportedPaging operation d .offset] else []) ++
    (if d = .mysql then criteria.orderFaults d m
    else if criteria.limit.isSome then [.unsupportedPaging operation d .limit]
    else if criteria.order ≠ [] then [.unsupportedPaging operation d .orderBy] else [])

end Criteria

namespace Dialect

variable (d : Dialect) (m : Metamodel)

theorem yields_whereClause (criteria : Criteria) :
    Yields (criteria.whereFaults m) (fun draft => draft.values = criteria.whereValues)
      (d.whereClause m criteria) := by
  have hcondition := Condition.yields_draft d m (.ofSiblings none criteria.restrictions)
  rw [Condition.tests_ofSiblings, ← d.predicate_eq] at hcondition
  unfold whereClause
  split
  · apply hcondition.map
    intro draft hdraft
    rw [Draft.values_append, hdraft]
    rfl
  next hnone =>
    have hempty : criteria.restrictions = [] := by simpa [Criteria.hasWhere] using hnone
    simp [Yields, Criteria.whereFaults, Criteria.whereValues, Criteria.tests, hempty,
      Criterion.testsAll, pure, Except.pure]

theorem yields_sortDraft (item : SortItem) :
    Yields (item.faults d m) (fun draft => draft.values = []) (d.sortDraft m item) := by
  unfold sortDraft SortItem.faults
  apply (d.yields_propertySql m item.property).bind
  intro column _
  cases item.nulls with
  | none => simp [Yields, pure, Except.pure]
  | some nulls => cases d <;> simp [Yields, supportsNullsOrdering, pure, Except.pure, throw,
      throwThe, MonadExceptOf.throw]

theorem yields_orderClause (criteria : Criteria) :
    Yields (criteria.orderFaults d m) (fun draft => draft.values = [])
      (d.orderClause m criteria) := by
  unfold orderClause Criteria.orderFaults
  split
  next hnone => simp [Yields, List.isEmpty_iff.mp hnone, pure, Except.pure]
  next =>
    apply (yields_mapM fun item _ => d.yields_sortDraft m item).map
    intro drafts hdrafts
    rw [Draft.values_append, Draft.values_sepBy_of_forall₂ hdrafts]
    simp

@[simp] theorem values_countClause (keyword : String) (n : Option Nat) :
    (countClause keyword n).values = n.toList.map Value.count := by
  cases n <;> simp [countClause]

/-- A stand-in for a limit is written into the text and not bound. -/
theorem values_paging (offset limit : Option Nat) :
    (d.paging offset limit).values =
      limit.toList.map Value.count ++ offset.toList.map Value.count := by
  unfold paging
  split <;> simp

theorem yields_mutationPaging (operation : QueryKind) (criteria : Criteria) :
    Yields (criteria.pagingFaults d operation m)
      (fun draft => draft.values = criteria.limit.toList.map Value.count)
      (d.mutationPaging operation m criteria) := by
  unfold mutationPaging Criteria.pagingFaults
  apply yields_guard
  have horder : Yields (criteria.orderFaults d m)
      (fun draft => draft.values = criteria.limit.toList.map Value.count)
      ((· ++ countClause " LIMIT " criteria.limit) <$> d.orderClause m criteria) := by
    apply (d.yields_orderClause m criteria).map
    intro draft hdraft
    rw [Draft.values_append, hdraft, values_countClause, List.nil_append]
  apply yields_ite
  · intro hnone
    obtain ⟨hlimit, hempty⟩ : criteria.limit = none ∧ criteria.order = [] := by
      simpa using hnone
    simp [Yields, Criteria.orderFaults, hlimit, hempty, pure, Except.pure]
  · intro hsome
    cases d with
    | mysql => exact horder
    | generic | postgres =>
      cases hlimit : criteria.limit with
      | some n => exact yields_throw
      | none =>
        have hsorted : criteria.order ≠ [] := by simpa [hlimit] using hsome
        rw [if_neg (by decide), if_neg (by simp), if_pos hsorted]
        exact yields_throw

end Dialect

theorem yields_requireWhere (operation : QueryKind) (m : Metamodel) (criteria : Criteria)
    (allowed : Bool) :
    Yields (if criteria.restrictions = [] ∧ allowed = false then
        [.missingWhereClause m.entity operation] else []) (fun _ => True)
      (requireWhere operation m criteria allowed) := by
  unfold requireWhere
  cases hwhere : criteria.restrictions <;> cases allowed <;>
    simp [Yields, Criteria.hasWhere, hwhere]

/-! Rows of values. -/

theorem mapM_eq_some_of_forall₂ {α β : Type} {f : α → Option β} {l : List α} {found : List β}
    (h : List.Forall₂ (fun a b => f a = some b) l found) : l.mapM f = some found := by
  induction h with
  | nil => rfl
  | cons hfirst _ ih => simp [List.mapM_cons, hfirst, ih]

namespace Metamodel

/-- The first value of a row whose reference stands for the column. -/
def given? (m : Metamodel) (row : List (String × Value)) (c : Column) : Option Value :=
  (row.find? fun entry => m.column? entry.1 = some c).map Prod.snd

end Metamodel

namespace Insert

def rowFaults (m : Metamodel) (row : List (String × Value)) : List CompileError :=
  m.unresolved (row.map Prod.fst) ++ m.supplied.flatMap fun c =>
    if m.given? row c = none then [.missingValue m.entity c.path] else []

theorem lookup_eq_given? {m : Metamodel} (hcompatible : m.columns.Pairwise Column.Compatible)
    {row resolved : List (String × Value)}
    (h : List.Forall₂ (fun entry found => ∃ c, m.column? entry.1 = some c ∧
      found = (c.path, entry.2)) row resolved) {c : Column} (hc : c ∈ m.columns) :
    resolved.lookup c.path = m.given? row c := by
  induction h with
  | nil => rfl
  | @cons entry _ row resolved hentry _ ih =>
    obtain ⟨other, hother, rfl⟩ := hentry
    have hpath : c.path = other.path ↔ other = c := by
      constructor
      · intro hpath
        exact (m.eq_of_path_eq hcompatible hc (m.mem_columns_of_column? hother) hpath).symm
      · rintro rfl
        rfl
    unfold Metamodel.given? at ih ⊢
    by_cases hsame : other = c
    · simp [hother, hsame]
    · have hne : (c.path == other.path) = false := by simpa [hpath] using hsame
      simp [List.lookup_cons, hother, hsame, hne, ih]

theorem yields_rowValues {m : Metamodel} (hcompatible : m.columns.Pairwise Column.Compatible)
    (row : List (String × Value)) :
    Yields (rowFaults m row) (fun values => m.supplied.mapM (m.given? row) = some values)
      (rowValues m row) := by
  unfold rowValues rowFaults
  rw [Metamodel.unresolved_map]
  have hresolve : ∀ entry ∈ row, Yields (m.unresolved [entry.1])
      (fun found => ∃ c, m.column? entry.1 = some c ∧ found = (c.path, entry.2))
      ((fun c => (c.path, entry.2)) <$> m.resolve entry.1) :=
    fun entry _ => (m.yields_resolve entry.1).map fun c hc => ⟨c, hc, rfl⟩
  apply (yields_mapM hresolve).bind
  intro resolved hresolved
  have hgiven : ∀ values,
      List.Forall₂ (fun c value => m.given? row c = some value) m.supplied values →
        m.supplied.mapM (m.given? row) = some values :=
    fun values hvalues => mapM_eq_some_of_forall₂ hvalues
  refine Yields.imp (yields_mapM fun c hc => ?_) hgiven
  rw [lookup_eq_given? hcompatible hresolved (List.mem_filter.mp hc).1]
  cases m.given? row c with
  | none => exact yields_throw
  | some value => exact yields_pure rfl

end Insert

/-! Queries. -/

def Select.faults (d : Dialect) (q : Select) : List CompileError :=
  q.criteria.whereFaults q.target ++
    if q.projection = .entity then q.criteria.orderFaults d q.target else []

def Insert.faults (q : Insert) : List CompileError :=
  (if q.rows = [] then [.emptyInsert q.target.entity] else []) ++
    q.rows.flatMap (Insert.rowFaults q.target)

def Update.faults (d : Dialect) (q : Update) : List CompileError :=
  (if q.assignments = [] then [.emptyAssignment q.target.entity] else []) ++
    ((if q.criteria.restrictions = [] ∧ q.allowMissingWhere = false then
      [.missingWhereClause q.target.entity .update] else []) ++
    (q.target.unresolved (q.assignments.map (·.property)) ++
    (q.criteria.whereFaults q.target ++ q.criteria.pagingFaults d .update q.target)))

def Delete.faults (d : Dialect) (q : Delete) : List CompileError :=
  (if q.criteria.restrictions = [] ∧ q.allowMissingWhere = false then
      [.missingWhereClause q.target.entity .delete] else []) ++
    (q.criteria.whereFaults q.target ++ q.criteria.pagingFaults d .delete q.target)

/-- The amount of an increment is bound too. -/
def NewValue.value : NewValue → Value
  | bound value => value
  | increment amount => .bigInt amount

namespace Query

/-- What is wrong with a query, in the order in which it counts. -/
def faults (d : Dialect) : Query → List CompileError
  | select q => q.faults d
  | insert q => q.faults
  | update q => q.faults d
  | delete q => q.faults d

/-- What a query is to bind, in order, given what is to be bound for its limit and its offset.
Rows have to give a value for every column that they supply. -/
def bound (limit offset : List Value) : Query → Option (List Value)
  | select q =>
    some (q.criteria.whereValues ++ if q.projection = .entity then limit ++ offset else [])
  | insert q =>
    (q.rows.mapM fun row => q.target.supplied.mapM (q.target.given? row)).map List.flatten
  | update q => some (q.assignments.map (·.value.value) ++ (q.criteria.whereValues ++ limit))
  | delete q => some (q.criteria.whereValues ++ limit)

end Query

section
variable (d : Dialect)

theorem Dialect.values_tableDraft (t : Table) : (d.tableDraft t).values = [] := by
  unfold tableDraft
  split <;> simp

theorem Dialect.values_columnList (columns : List Column) : (d.columnList columns).values = [] := by
  rw [columnList, Draft.values_sepBy]
  simp

theorem Select.yields_draft (q : Select) :
    Yields (q.faults d)
      (fun draft => draft.values = q.criteria.whereValues ++
        if q.projection = .entity then
          q.criteria.limit.toList.map Value.count ++ q.criteria.offset.toList.map Value.count
        else [])
      (q.draft d) := by
  unfold Select.draft Select.faults
  apply (d.yields_whereClause q.target q.criteria).bind
  intro filter hfilter
  cases q.projection with
  | count =>
    cases q.distinct <;> apply yields_pure <;>
      simp [hfilter, d.values_tableDraft, d.values_columnList]
  | entity =>
    apply (d.yields_orderClause q.target q.criteria).map
    intro order horder
    simp [hfilter, horder, d.values_tableDraft, d.values_columnList, d.values_paging]

theorem Insert.yields_draft {q : Insert}
    (hcompatible : q.target.columns.Pairwise Column.Compatible) :
    Yields q.faults (fun draft =>
        (q.rows.mapM fun row => q.target.supplied.mapM (q.target.given? row)).map List.flatten =
          some draft.values)
      (q.draft d) := by
  have htuple : ∀ row ∈ q.rows, Yields (rowFaults q.target row)
      (fun draft => q.target.supplied.mapM (q.target.given? row) = some draft.values)
      ((fun values => (Draft.bindAll values ", ").paren) <$> rowValues q.target row) := by
    intro row _
    apply (yields_rowValues hcompatible row).map
    intro values hvalues
    simpa using hvalues
  unfold Insert.draft Insert.faults
  simp only [List.isEmpty_iff]
  apply yields_guard
  apply (yields_mapM htuple).map
  intro tuples htuples
  rw [mapM_eq_some_of_forall₂ (List.forall₂_map_right_iff.mpr htuples)]
  simp [d.values_tableDraft, d.values_columnList, Draft.values_sepBy, List.flatMap]

theorem Assignment.yields_draft (m : Metamodel) (a : Assignment) :
    Yields (m.unresolved [a.property]) (fun draft => draft.values = [a.value.value])
      (a.draft d m) := by
  unfold Assignment.draft
  rw [← List.append_nil (m.unresolved _)]
  apply (d.yields_propertySql m a.property).bind
  intro column _
  cases a.value with
  | bound value => exact yields_pure (by simp [NewValue.value])
  | increment amount => exact yields_pure (by simp [NewValue.value])

theorem Update.yields_draft (q : Update) :
    Yields (q.faults d)
      (fun draft => draft.values = q.assignments.map (·.value.value) ++
        (q.criteria.whereValues ++ q.criteria.limit.toList.map Value.count))
      (q.draft d) := by
  unfold Update.draft Update.faults
  simp only [List.isEmpty_iff]
  apply yields_guard
  apply (yields_requireWhere .update q.target q.criteria q.allowMissingWhere).bind
  intro _ _
  rw [Metamodel.unresolved_map]
  apply (yields_mapM fun a _ => a.yields_draft d q.target).bind
  intro items hitems
  apply (d.yields_whereClause q.target q.criteria).bind
  intro filter hfilter
  apply (d.yields_mutationPaging q.target .update q.criteria).map
  intro paging hpaging
  have hset := Draft.values_sepBy_of_forall₂ hitems ", "
  rw [← List.map_eq_flatMap] at hset
  simp [hset, hfilter, hpaging, d.values_tableDraft]

theorem Delete.yields_draft (q : Delete) :
    Yields (q.faults d)
      (fun draft => draft.values =
        q.criteria.whereValues ++ q.criteria.limit.toList.map Value.count)
      (q.draft d) := by
  unfold Delete.draft Delete.faults
  apply (yields_requireWhere .delete q.target q.criteria q.allowMissingWhere).bind
  intro _ _
  apply (d.yields_whereClause q.target q.criteria).bind
  intro filter hfilter
  apply (d.yields_mutationPaging q.target .delete q.criteria).map
  intro paging hpaging
  simp [hfilter, hpaging, d.values_tableDraft]

namespace Query

def counts (number? : Criteria → Option Nat) (q : Query) : List Value :=
  (q.criteria?.bind number?).toList.map Value.count

theorem yields_draft {q : Query} (hcompatible : q.target.columns.Pairwise Column.Compatible) :
    Yields (q.faults d)
      (fun draft => q.bound (q.counts (·.limit)) (q.counts (·.offset)) = some draft.values)
      (q.draft d) := by
  cases q with
  | select q => exact (q.yields_draft d).imp fun _ h => congrArg some h.symm
  | insert q => exact Insert.yields_draft d hcompatible
  | update q => exact (q.yields_draft d).imp fun _ h => congrArg some h.symm
  | delete q => exact (q.yields_draft d).imp fun _ h => congrArg some h.symm

end Query

end

/-- A query is refused for the first of its faults, if it has any. If it has none, what is left to
go wrong are the placeholders of the statement. -/
theorem compile_reports_first_fault (d : Dialect) (log : Bool) {q : Query} {descriptor : Descriptor}
    (haccepted : Metamodel.ofDescriptor descriptor = .ok q.target) (e : CompileError) :
    (q.faults d).head? = some e ↔
      q.compile d log = .error e ∧ ∀ fault, e ≠ .statement fault := by
  have hyields := Query.yields_draft d (Metamodel.compatible_of_ofDescriptor haccepted)
  have hmeets := q.meets_draft d
  unfold Query.compile
  cases hdraft : q.draft d with
  | error first =>
    rw [hdraft] at hyields hmeets
    have hfirst : (q.faults d).head? = some first := hyields
    constructor
    · intro h
      cases hfirst.symm.trans h
      exact ⟨rfl, hmeets⟩
    · rintro ⟨h, -⟩
      cases h
      exact hfirst
  | ok draft =>
    rw [hdraft] at hyields
    have hnone : q.faults d = [] := hyields.1
    constructor
    · intro h
      simp [hnone] at h
    · rintro ⟨h, hother⟩
      change (draft.build log).mapError CompileError.statement = .error e at h
      cases hbuild : draft.build log with
      | error fault =>
        rw [hbuild] at h
        exact absurd (Except.error.inj h).symm (hother fault)
      | ok st =>
        rw [hbuild] at h
        cases h

def task : Descriptor where
  name := "Task"
  members := [
    .property "id" [.id],
    .property "title" [],
    .embedded "due" { name := "Due", members := [.property "day" []] }]

/-- Three faults: a reference inside a group, an offset, and the place of nulls. -/
def overdue (m : Metamodel) : Query :=
  .update {
    target := m
    assignments := [⟨"title", .bound (.text "late")⟩]
    criteria := {
      restrictions := [.test (.isNull true "day"),
        .group .not [.test (.compare .eq "owner" (.text "me"))]]
      order := [⟨"due.day", .asc, some .last⟩]
      offset := some 5 } }

theorem overdue_reports_owner :
    ∃ m, Metamodel.ofDescriptor task = .ok m ∧
      (overdue m).faults .mysql = [.unknownProperty "Task" "owner",
        .unsupportedPaging .update .mysql .offset, .unsupportedNullOrdering .mysql] ∧
      (overdue m).compile .mysql true = .error (.unknownProperty "Task" "owner") := by
  have haccepted : Metamodel.ofDescriptor task = .ok _ := rfl
  exact ⟨_, haccepted, rfl, ((compile_reports_first_fault .mysql true haccepted _).mp rfl).1⟩

end EntitySql
