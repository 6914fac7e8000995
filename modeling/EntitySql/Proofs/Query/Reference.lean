import EntitySql.Proofs.Query.Restriction

/-!
References to columns. A full path always stands for its own column, whatever bare names other
columns have, and a bare name stands for a column only if nothing else could be meant. So references
may be spelled out in full, one by one and wherever they stand in a query: the outcome of compiling
it stays the same.
-/

namespace EntitySql

private theorem eq_singleton_of_mem_iff {α : Type} {l : List α} {a : α} (hnodup : l.Nodup)
    (h : ∀ b, b ∈ l ↔ b = a) : l = [a] := by
  rw [← List.perm_singleton, List.perm_ext_iff_of_nodup hnodup (List.nodup_singleton a)]
  simpa using h

namespace Metamodel

variable {m : Metamodel}

theorem column?_eq_some_iff (hcompatible : m.columns.Pairwise Column.Compatible)
    {property : String} {c : Column} :
    m.column? property = some c ↔
      c ∈ m.columns ∧ (c.path = property ∨
        (∀ other ∈ m.columns, other.path ≠ property) ∧
          ∀ other ∈ m.columns, other.name = property ↔ other = c) := by
  constructor
  · intro h
    refine ⟨m.mem_columns_of_column? h, ?_⟩
    unfold column? at h
    split at h
    next found hfound =>
      cases h
      exact .inl (by simpa using List.find?_some hfound)
    next hnone =>
      split at h
      next found hfound =>
        cases h
        refine .inr ⟨by simpa using hnone, fun other hother => ?_⟩
        have hmem : other ∈ m.columns.filter (·.name == property) ↔ other = c := by
          rw [hfound, List.mem_singleton]
        simpa [hother] using hmem
      next => contradiction
  · rintro ⟨hc, rfl | ⟨hnone, honly⟩⟩
    · exact column?_of_mem hcompatible hc
    · have hfind : m.columns.find? (·.path == property) = none := by simpa using hnone
      have hfilter : m.columns.filter (·.name == property) = [c] := by
        apply eq_singleton_of_mem_iff ((nodup_columns hcompatible).filter _)
        intro other
        rw [List.mem_filter, beq_iff_eq]
        constructor
        · rintro ⟨hother, hname⟩
          exact (honly other hother).mp hname
        · rintro rfl
          exact ⟨hc, (honly other hc).mpr rfl⟩
      simp [column?, hfind, hfilter]

/-- A reference as it is, or in full: as the path of the column that it stands for. -/
inductive Respells (m : Metamodel) (property : String) : String → Prop
  | kept : m.Respells property property
  | inFull {c : Column} (h : m.column? property = some c) : m.Respells property c.path

theorem Respells.of_path {property path : String}
    (h : (m.column? property).map (·.path) = some path) : m.Respells property path := by
  obtain ⟨c, hc, rfl⟩ := Option.map_eq_some_iff.mp h
  exact .inFull hc

theorem Respells.resolve_eq (hcompatible : m.columns.Pairwise Column.Compatible)
    {property other : String} (h : m.Respells property other) :
    m.resolve other = m.resolve property := by
  cases h with
  | kept => rfl
  | inFull h =>
    rw [resolve_eq_ok_iff.mpr h]
    exact resolve_eq_ok_iff.mpr (column?_of_mem hcompatible (m.mem_columns_of_column? h))

end Metamodel

/-! Queries that differ in the spelling of references. -/

def Test.about (property : String) : Test → Test
  | compare op _ value => compare op property value
  | isNull negated _ => isNull negated property
  | like negated _ pattern => like negated property pattern
  | between negated _ low high => between negated property low high
  | inList negated _ values => inList negated property values

@[simp] theorem Test.property_about (property : String) (t : Test) :
    (t.about property).property = property := by
  cases t <;> rfl

/-- The draft of a test shows its property by the column alone. -/
@[simp] theorem Test.draft_about (column property : String) (t : Test) :
    (t.about property).draft column = t.draft column := by
  cases t <;> rfl

mutual

/-- Each reference in a node and below it is kept or spelled out in full; all else is the same. -/
inductive Criterion.Respelled (m : Metamodel) : Criterion → Criterion → Prop
  | test {t : Test} {property : String} (h : m.Respells t.property property) :
    Criterion.Respelled m (.test t) (.test (t.about property))
  | group {kind : GroupKind} {members others : List Criterion}
    (h : Criterion.AllRespelled m members others) :
    Criterion.Respelled m (.group kind members) (.group kind others)

inductive Criterion.AllRespelled (m : Metamodel) : List Criterion → List Criterion → Prop
  | nil : Criterion.AllRespelled m [] []
  | cons {first other : Criterion} {rest others : List Criterion}
    (hfirst : Criterion.Respelled m first other) (hrest : Criterion.AllRespelled m rest others) :
    Criterion.AllRespelled m (first :: rest) (other :: others)

end

def SortItem.Respelled (m : Metamodel) (item other : SortItem) : Prop :=
  ∃ property, m.Respells item.property property ∧ other = { item with property }

def Assignment.Respelled (m : Metamodel) (a other : Assignment) : Prop :=
  ∃ property, m.Respells a.property property ∧ other = { a with property }

structure Criteria.Respelled (m : Metamodel) (criteria other : Criteria) : Prop where
  restrictions : Criterion.AllRespelled m criteria.restrictions other.restrictions
  order : List.Forall₂ (SortItem.Respelled m) criteria.order other.order
  limit : other.limit = criteria.limit
  offset : other.offset = criteria.offset

/-- A row with its references respelled gives the same values in the same order. -/
def Insert.RowRespelled (m : Metamodel) (row other : List (String × Value)) : Prop :=
  List.Forall₂ (fun entry entry' => m.Respells entry.1 entry'.1 ∧ entry'.2 = entry.2) row other

inductive Query.Respelled : Query → Query → Prop
  | select (q : Select) {criteria : Criteria} (h : q.criteria.Respelled q.target criteria) :
    Query.Respelled (.select q) (.select { q with criteria })
  | insert (q : Insert) {rows : List (List (String × Value))}
    (h : List.Forall₂ (Insert.RowRespelled q.target) q.rows rows) :
    Query.Respelled (.insert q) (.insert { q with rows })
  | update (q : Update) {assignments : List Assignment} {criteria : Criteria}
    (hset : List.Forall₂ (Assignment.Respelled q.target) q.assignments assignments)
    (h : q.criteria.Respelled q.target criteria) :
    Query.Respelled (.update q) (.update { q with assignments, criteria })
  | delete (q : Delete) {criteria : Criteria} (h : q.criteria.Respelled q.target criteria) :
    Query.Respelled (.delete q) (.delete { q with criteria })

/-! Conditions. Parentheses depend on the shape of a condition, so the shape is kept as well. -/

namespace Condition

structure Alike (column : String → Except CompileError String) (left right : Condition) : Prop where
  draft : right.draft column = left.draft column
  isDisjunction : right.isDisjunction = left.isDisjunction

section
variable {column : String → Except CompileError String} {left left' right right' : Condition}

theorem Alike.and (hleft : Alike column left left') (hright : Alike column right right') :
    Alike column (.and left right) (.and left' right') :=
  ⟨by simp only [Condition.draft, hleft.draft, hleft.isDisjunction, hright.draft], rfl⟩

theorem Alike.or (hleft : Alike column left left') (hright : Alike column right right') :
    Alike column (.or left right) (.or left' right') :=
  ⟨by simp only [Condition.draft, hleft.draft, hright.draft], rfl⟩

theorem Alike.group (h : Alike column left left') : Alike column (.group left) (.group left') :=
  ⟨by simp only [Condition.draft, h.draft], rfl⟩

theorem Alike.not (h : Alike column left left') : Alike column (.not left) (.not left') :=
  ⟨by simp only [Condition.draft, h.draft], rfl⟩

end

section
variable {m : Metamodel} {column : String → Except CompileError String}

mutual

theorem alike_ofCriterion
    (hcolumn : ∀ property other, m.Respells property other → column other = column property)
    {criterion other : Criterion} (h : criterion.Respelled m other) :
    Alike column (ofCriterion criterion) (ofCriterion other) := by
  match criterion with
  | .test t =>
    cases h with
    | test h =>
      refine ⟨?_, rfl⟩
      simp only [ofCriterion, Condition.draft, Test.property_about, Test.draft_about,
        hcolumn _ _ h]
  | .group kind members =>
    cases h with
    | group h =>
      have hmembers := (alike_ofSiblings hcolumn h .none).group
      cases kind with
      | not => exact hmembers.not
      | and | or => exact hmembers

theorem alike_ofSiblings
    (hcolumn : ∀ property other, m.Respells property other → column other = column property)
    {siblings others : List Criterion} (h : Criterion.AllRespelled m siblings others)
    {before before' : Option Condition} (hbefore : Option.Rel (Alike column) before before') :
    Alike column (ofSiblings before siblings) (ofSiblings before' others) := by
  match siblings with
  | [] =>
    cases h with
    | nil =>
      cases hbefore with
      | none => exact ⟨rfl, rfl⟩
      | some hleft => exact hleft
  | first :: rest =>
    cases h with
    | cons hfirst hrest =>
      have hhere := alike_ofCriterion hcolumn hfirst
      cases hbefore with
      | none => exact alike_ofSiblings hcolumn hrest (.some hhere)
      | some hleft =>
        cases hfirst with
        | test _ => exact alike_ofSiblings hcolumn hrest (.some (hleft.and hhere))
        | @group kind _ _ _ =>
          cases kind with
          | or => exact alike_ofSiblings hcolumn hrest (.some (hleft.or hhere))
          | and | not => exact alike_ofSiblings hcolumn hrest (.some (hleft.and hhere))

end

end

end Condition

/-! Clauses. -/

theorem Criterion.AllRespelled.isEmpty_eq {m : Metamodel} {siblings others : List Criterion}
    (h : AllRespelled m siblings others) : others.isEmpty = siblings.isEmpty := by
  cases h <;> rfl

private theorem isEmpty_eq_of_forall₂ {α β : Type} {R : α → β → Prop} {l : List α} {others : List β}
    (h : List.Forall₂ R l others) : others.isEmpty = l.isEmpty := by
  cases h <;> rfl

namespace Dialect

variable {m : Metamodel} (hcompatible : m.columns.Pairwise Column.Compatible) (d : Dialect)

include hcompatible

theorem propertySql_respelled (property other : String) (h : m.Respells property other) :
    d.propertySql m other = d.propertySql m property := by
  rw [propertySql, propertySql, h.resolve_eq hcompatible]

section
variable {criteria other : Criteria} (h : criteria.Respelled m other)

include h

theorem whereClause_respelled : d.whereClause m other = d.whereClause m criteria := by
  have hpredicate : d.predicate m other.restrictions = d.predicate m criteria.restrictions := by
    rw [d.predicate_eq, d.predicate_eq]
    exact
      (Condition.alike_ofSiblings (d.propertySql_respelled hcompatible) h.restrictions .none).draft
  unfold whereClause Criteria.hasWhere
  rw [h.restrictions.isEmpty_eq, hpredicate]

theorem orderClause_respelled : d.orderClause m other = d.orderClause m criteria := by
  have hitem : ∀ item item', SortItem.Respelled m item item' →
      d.sortDraft m item' = d.sortDraft m item := by
    rintro item _ ⟨property, hproperty, rfl⟩
    simp only [sortDraft, d.propertySql_respelled hcompatible _ _ hproperty]
  unfold orderClause
  rw [isEmpty_eq_of_forall₂ h.order, Except.mapM_eq_of_forall₂ h.order hitem]

theorem mutationPaging_respelled (operation : QueryKind) :
    d.mutationPaging operation m other = d.mutationPaging operation m criteria := by
  unfold mutationPaging
  rw [h.offset, h.limit, isEmpty_eq_of_forall₂ h.order, d.orderClause_respelled hcompatible h]

end

theorem assignment_respelled (a other : Assignment) (h : a.Respelled m other) :
    other.draft d m = a.draft d m := by
  obtain ⟨property, hproperty, rfl⟩ := h
  simp only [Assignment.draft, d.propertySql_respelled hcompatible _ _ hproperty]

end Dialect

theorem requireWhere_respelled {m : Metamodel} {criteria other : Criteria}
    (h : criteria.Respelled m other) (operation : QueryKind) (allowed : Bool) :
    requireWhere operation m other allowed = requireWhere operation m criteria allowed := by
  unfold requireWhere Criteria.hasWhere
  rw [h.restrictions.isEmpty_eq]

/-! Queries. -/

section
variable {d : Dialect}

theorem Select.draft_respelled (q : Select) {criteria : Criteria}
    (hcompatible : q.target.columns.Pairwise Column.Compatible)
    (h : q.criteria.Respelled q.target criteria) :
    ({ q with criteria } : Select).draft d = q.draft d := by
  simp only [Select.draft, d.whereClause_respelled hcompatible h,
    d.orderClause_respelled hcompatible h, h.limit, h.offset]

theorem Insert.rowValues_respelled {m : Metamodel}
    (hcompatible : m.columns.Pairwise Column.Compatible) (row other : List (String × Value))
    (h : RowRespelled m row other) : rowValues m other = rowValues m row := by
  unfold rowValues
  rw [Except.mapM_eq_of_forall₂ h]
  rintro ⟨property, value⟩ ⟨property', _⟩ ⟨hproperty, rfl⟩
  simp only [hproperty.resolve_eq hcompatible]

theorem Insert.draft_respelled (q : Insert) {rows : List (List (String × Value))}
    (hcompatible : q.target.columns.Pairwise Column.Compatible)
    (h : List.Forall₂ (RowRespelled q.target) q.rows rows) :
    ({ q with rows } : Insert).draft d = q.draft d := by
  have htuple (row other : List (String × Value)) (hrow : RowRespelled q.target row other) :
      (do return (Draft.bindAll (← rowValues q.target other) ", ").paren) =
        (do return (Draft.bindAll (← rowValues q.target row) ", ").paren) := by
    rw [rowValues_respelled hcompatible row other hrow]
  simp only [Insert.draft, isEmpty_eq_of_forall₂ h, Except.mapM_eq_of_forall₂ h htuple]

theorem Update.draft_respelled (q : Update) {assignments : List Assignment} {criteria : Criteria}
    (hcompatible : q.target.columns.Pairwise Column.Compatible)
    (hset : List.Forall₂ (Assignment.Respelled q.target) q.assignments assignments)
    (h : q.criteria.Respelled q.target criteria) :
    ({ q with assignments, criteria } : Update).draft d = q.draft d := by
  simp only [Update.draft, isEmpty_eq_of_forall₂ hset,
    Except.mapM_eq_of_forall₂ hset (d.assignment_respelled hcompatible), requireWhere_respelled h,
    d.whereClause_respelled hcompatible h, d.mutationPaging_respelled hcompatible h]

theorem Delete.draft_respelled (q : Delete) {criteria : Criteria}
    (hcompatible : q.target.columns.Pairwise Column.Compatible)
    (h : q.criteria.Respelled q.target criteria) :
    ({ q with criteria } : Delete).draft d = q.draft d := by
  simp only [Delete.draft, requireWhere_respelled h, d.whereClause_respelled hcompatible h,
    d.mutationPaging_respelled hcompatible h]

end

theorem Query.draft_respelled {q other : Query}
    (hcompatible : q.target.columns.Pairwise Column.Compatible) (h : q.Respelled other)
    (d : Dialect) : other.draft d = q.draft d := by
  cases h with
  | select q h => exact q.draft_respelled hcompatible h
  | insert q h => exact q.draft_respelled hcompatible h
  | update q hset h => exact q.draft_respelled hcompatible hset h
  | delete q h => exact q.draft_respelled hcompatible h

/-- A reference stands for the column of that path, or else for the only column of that name, so a
full path stands for its column whatever names there are. Spelling out references makes no
difference to what a query compiles to, nor to how it is refused. -/
theorem references_in_full {descriptor : Descriptor} {m : Metamodel}
    (haccepted : Metamodel.ofDescriptor descriptor = .ok m) :
    (∀ property c, m.column? property = some c ↔
      c ∈ m.columns ∧ (c.path = property ∨
        (∀ other ∈ m.columns, other.path ≠ property) ∧
          ∀ other ∈ m.columns, other.name = property ↔ other = c)) ∧
    (∀ c ∈ m.columns, m.column? c.path = some c) ∧
    ∀ (d : Dialect) (log : Bool) (q other : Query), q.target = m → q.Respelled other →
      other.compile d log = q.compile d log := by
  have hcompatible := Metamodel.compatible_of_ofDescriptor haccepted
  refine ⟨fun property c => Metamodel.column?_eq_some_iff hcompatible,
    fun c hc => Metamodel.column?_of_mem hcompatible hc, ?_⟩
  rintro d log q other rfl hrespelled
  unfold Query.compile
  rw [Query.draft_respelled hcompatible hrespelled]

/-- The bare name of one column is the path of another. -/
def trip : Descriptor where
  name := "Trip"
  members := [
    .property "id" [.id],
    .embedded "from" { name := "Place", members := [.property "city" []] },
    .embedded "via" {
      name := "Stop"
      members := [.property "from.city" [.column (some "stop") false], .property "hour" []] }]

def delayed (m : Metamodel) (city hour : String) : Query :=
  .update {
    target := m
    assignments := [⟨hour, .increment 1⟩]
    criteria := {
      restrictions := [.group .not [.test (.compare .eq "from.city" (.text "Rome"))],
        .group .or [.test (.isNull true hour), .test (.like false city (.text "R%"))]]
      order := [⟨city, .desc, none⟩] } }

theorem trip_references :
    ∃ m, Metamodel.ofDescriptor trip = .ok m ∧
      (m.column? "from.city").map (·.column) = some "city" ∧
      (delayed m "city" "hour").Respelled (delayed m "from.city" "via.hour") ∧
      ((delayed m "city" "hour").compile .mysql true).isOk ∧
      (delayed m "from.city" "via.hour").compile .mysql true =
        (delayed m "city" "hour").compile .mysql true := by
  obtain ⟨m, haccepted, hcolumn, hcity, hhour, hok⟩ : ∃ m, Metamodel.ofDescriptor trip = .ok m ∧
      (m.column? "from.city").map (·.column) = some "city" ∧
      (m.column? "city").map (·.path) = some "from.city" ∧
      (m.column? "hour").map (·.path) = some "via.hour" ∧
      ((delayed m "city" "hour").compile .mysql true).isOk :=
    ⟨_, rfl, rfl, rfl, rfl, by decide +kernel⟩
  have hrespelled : (delayed m "city" "hour").Respelled (delayed m "from.city" "via.hour") :=
    .update _ (.cons ⟨"via.hour", .of_path hhour, rfl⟩ .nil) {
      restrictions := .cons (.group (.cons (.test .kept) .nil)) (.cons
        (.group (.cons (.test (.of_path hhour)) (.cons (.test (.of_path hcity)) .nil))) .nil)
      order := .cons ⟨"from.city", .of_path hcity, rfl⟩ .nil
      limit := rfl
      offset := rfl }
  obtain ⟨-, -, hcompile⟩ := references_in_full haccepted
  exact ⟨m, haccepted, hcolumn, hrespelled, hok, hcompile .mysql true _ _ rfl hrespelled⟩

end EntitySql
