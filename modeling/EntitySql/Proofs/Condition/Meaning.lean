import EntitySql.Criteria.Scope
import EntitySql.Proofs.Condition.Basic
import EntitySql.Proofs.Condition.Grammar
import EntitySql.Proofs.Outcome

/-!
The meaning of where clauses. What is declared is a fold over siblings; what is rendered is SQL
text, read back by the precedence of SQL. Both have the same value for every assignment of truth
values to the tests.
-/

namespace EntitySql

/-- The test as it is written, with the text of its column in place of the reference. -/
def Test.on (column : String) : Test → Test
  | compare op _ value => compare op column value
  | isNull negated _ => isNull negated column
  | like negated _ pattern => like negated column pattern
  | between negated _ low high => between negated column low high
  | inList negated _ values => inList negated column values

mutual

def Criterion.tests : Criterion → List Test
  | .test t => [t]
  | .group _ members => Criterion.testsAll members

def Criterion.testsAll : List Criterion → List Test
  | [] => []
  | criterion :: rest => criterion.tests ++ Criterion.testsAll rest

end

mutual

/-- The declared meaning of a criterion by itself. Only a `not` group changes its content. -/
def Criterion.meaning (truth : Test → Truth) : Criterion → Truth
  | .test t => truth t
  | .group .not members => (Criterion.meaningAfter truth none members).not
  | .group _ members => Criterion.meaningAfter truth none members

/-- The declared meaning of siblings after those that mean `before`: an `or` group is OR-ed with
everything before it, every other sibling AND-ed. Nothing declared restricts nothing. -/
def Criterion.meaningAfter (truth : Test → Truth) (before : Option Truth) :
    List Criterion → Truth
  | [] => before.getD .true
  | criterion :: rest =>
    let here := criterion.meaning truth
    let joined :=
      match before, criterion with
      | none, _ => here
      | some left, .group .or _ => left.or here
      | some left, _ => left.and here
    Criterion.meaningAfter truth (some joined) rest

end

def columnText (column : String → Except CompileError String) (property : String) : String :=
  match column property with
  | .ok text => text
  | .error _ => property

/-- The truth of a test on a property is that of the test on its column. -/
def resolved (column : String → Except CompileError String) (truth : Test → Truth) (t : Test) :
    Truth :=
  truth (t.on (columnText column t.property))

/-- A condition renders to text that reads as an expression of a level, with a given value under
every assignment. -/
def Condition.Renders (d : Dialect) (column : String → Except CompileError String) (level : Level)
    (condition : Condition) (meaning : (Test → Truth) → Truth) : Prop :=
  ∀ draft, condition.draft column = .ok draft →
    ∃ ts e, tokenize d draft.chars draft.values = some ts ∧ Derives level ts e ∧
      ∀ truth, e.eval truth = meaning truth

private theorem tokenize_candidates (d : Dialect) {values : List Value} (h : values ≠ []) :
    tokenize d ((Draft.bindAll values ", ").chars ++ [')']) values =
      some (valueList values ++ [.closing]) := by
  induction values with
  | nil => contradiction
  | cons value others ih =>
    cases others with
    | nil => rfl
    | cons next others =>
      have hothers := ih (by simp)
      have hchars : (Draft.bindAll (value :: next :: others) ", ").chars =
          '?' :: ',' :: ' ' :: (Draft.bindAll (next :: others) ", ").chars := by
        simp [Draft.bindAll, Draft.sepBy]
      rw [hchars, List.cons_append, List.cons_append, List.cons_append, tokenize_placeholder,
        tokenize_cons .comma (by simp) rfl, tokenize_blank, hothers]
      rfl

theorem tokenize_test {d : Dialect} {column : String} (hcolumn : IsIdentifier d column.toList)
    {t : Test} (candidates : ∀ negated property, t ≠ .inList negated property []) :
    tokenize d (t.draft column).chars (t.draft column).values = some (t.on column).tokens := by
  have hread : ∀ {tail values ts}, tokenize d tail values = some ts →
      tokenize d (column.toList ++ ' ' :: tail) values = some (.identifier column :: ts) := by
    intro tail values ts htail
    simpa using tokenize_blank_between (tokenize_identifier hcolumn) htail
  cases t with
  | compare op property value =>
    have htail : tokenize d (op.sql.toList ++ [' ', '?']) [value] =
        some [.operator op, .bound value] := by
      cases op <;> rfl
    simpa [Test.draft, Test.on, Test.tokens] using hread htail
  | isNull negated property =>
    have htail : tokenize d (if negated then "IS NOT NULL" else "IS NULL").toList [] =
        some (.keyword .is :: (negation negated ++ [.keyword .null])) := by
      cases negated <;> cases d <;> rfl
    have htest := hread htail
    cases negated <;> simpa [Test.draft, Test.on, Test.tokens] using htest
  | like negated property pattern =>
    have htail : tokenize d (if negated then "NOT LIKE ?" else "LIKE ?").toList [pattern] =
        some (negation negated ++ [.keyword .like, .bound pattern]) := by
      cases negated <;> cases d <;> rfl
    have htest := hread htail
    cases negated <;> simpa [Test.draft, Test.on, Test.tokens] using htest
  | between negated property low high =>
    have htail : tokenize d
        (if negated then "NOT BETWEEN ? AND ?" else "BETWEEN ? AND ?").toList [low, high] =
          some (negation negated ++
            [.keyword .between, .bound low, .keyword .and, .bound high]) := by
      cases negated <;> cases d <;> rfl
    have htest := hread htail
    cases negated <;> simpa [Test.draft, Test.on, Test.tokens] using htest
  | inList negated property values =>
    have hne : values ≠ [] := by
      rintro rfl
      exact candidates negated property rfl
    have hwords : tokenize d (if negated then "NOT IN" else "IN").toList [] =
        some (negation negated ++ [.keyword .among]) := by
      cases negated <;> cases d <;> rfl
    have hlist : tokenize d ('(' :: ((Draft.bindAll values ", ").chars ++ [')'])) values =
        some (.opening :: (valueList values ++ [.closing])) := by
      rw [tokenize_cons .opening (by simp) rfl, tokenize_candidates d hne]
      rfl
    have htest := hread (tokenize_blank_between hwords hlist)
    cases negated <;> simpa [Test.draft, Test.on, Test.tokens, negation] using htest

namespace Condition

/-- The level of what has been read so far: only a disjunction has to be put in parentheses
before AND. -/
def level (condition : Condition) : Level :=
  if condition.isDisjunction then .condition else .conjunction

variable {d : Dialect} {column : String → Except CompileError String} {level : Level}
  {left right : Condition} {v w : (Test → Truth) → Truth}

theorem renders_test {t : Test}
    (hcolumn : ∀ text, column t.property = .ok text → IsIdentifier d text.toList)
    (candidates : ∀ negated property, t ≠ .inList negated property []) :
    Renders d column .factor (.test t) fun truth => resolved column truth t := by
  intro draft hdraft
  obtain ⟨text, htext, hdraft⟩ := Except.bind_eq_ok_iff.mp hdraft
  cases Except.ok.inj hdraft
  have hcandidates : ∀ negated property, t.on text ≠ .inList negated property [] := by
    intro negated property h
    cases t <;> simp_all [Test.on]
  refine ⟨_, _, tokenize_test (hcolumn text htext) candidates, .test _ hcandidates, ?_⟩
  intro truth
  simp [Expression.eval, resolved, columnText, htext]

theorem Renders.ofFactor (h : Renders d column .factor left v) :
    Renders d column .conjunction left v := by
  intro draft hdraft
  obtain ⟨ts, e, hts, he, heval⟩ := h draft hdraft
  exact ⟨ts, e, hts, .ofFactor he, heval⟩

theorem Renders.ofConjunction (h : Renders d column .conjunction left v) :
    Renders d column .condition left v := by
  intro draft hdraft
  obtain ⟨ts, e, hts, he, heval⟩ := h draft hdraft
  exact ⟨ts, e, hts, .ofConjunction he, heval⟩

theorem Renders.asCondition (h : Renders d column left.level left v) :
    Renders d column .condition left v := by
  unfold Condition.level at h
  split at h
  · exact h
  · exact h.ofConjunction

theorem Renders.group (h : Renders d column .condition left v) :
    Renders d column .factor (.group left) v := by
  intro draft hdraft
  obtain ⟨inner, hinner, hdraft⟩ := Except.bind_eq_ok_iff.mp hdraft
  cases Except.ok.inj hdraft
  obtain ⟨ts, e, hts, he, heval⟩ := h inner hinner
  refine ⟨_, e, ?_, .paren he, heval⟩
  simpa [Draft.paren] using tokenize_paren hts

theorem Renders.not (h : Renders d column .factor left v) :
    Renders d column .factor (.not left) fun truth => (v truth).not := by
  intro draft hdraft
  obtain ⟨inner, hinner, hdraft⟩ := Except.bind_eq_ok_iff.mp hdraft
  cases Except.ok.inj hdraft
  obtain ⟨ts, e, hts, he, heval⟩ := h inner hinner
  have hword : tokenize d "NOT".toList [] = some [.keyword .not] := by cases d <;> rfl
  refine ⟨_, .not e, ?_, .not he, fun truth => by rw [Expression.eval, heval]⟩
  simpa using tokenize_blank_between hword hts

private theorem tokenize_operator {word : Keyword} {text spaced : String} {first second : Draft}
    {ts us : List Token} (hword : tokenize d text.toList [] = some [.keyword word])
    (hspaced : spaced.toList = ' ' :: (text.toList ++ [' ']))
    (hfirst : tokenize d first.chars first.values = some ts)
    (hsecond : tokenize d second.chars second.values = some us) :
    tokenize d (first ++ .sql spaced ++ second).chars (first ++ .sql spaced ++ second).values =
      some (ts ++ .keyword word :: us) := by
  simpa [hspaced] using tokenize_blank_between hfirst (tokenize_blank_between hword hsecond)

/-- What stands before AND holds together at least as tightly: a disjunction has parentheses. -/
theorem Renders.beforeAnd (h : Renders d column left.level left v) {draft : Draft}
    (hdraft : left.draft column = .ok draft) :
    ∃ ts e, tokenize d (if left.isDisjunction then draft.paren else draft).chars
        (if left.isDisjunction then draft.paren else draft).values = some ts ∧
      Derives .conjunction ts e ∧ ∀ truth, e.eval truth = v truth := by
  unfold Condition.level at h
  cases hleft : left.isDisjunction with
  | true =>
    rw [hleft] at h
    have hgroup : (Condition.group left).draft column = .ok draft.paren := by
      rw [Condition.draft, hdraft]
      rfl
    exact h.group.ofFactor _ hgroup
  | false =>
    rw [hleft] at h
    exact h draft hdraft

theorem renders_and (hleft : Renders d column left.level left v)
    (hright : Renders d column .factor right w) :
    Renders d column .conjunction (.and left right) fun truth => (v truth).and (w truth) := by
  intro draft hdraft
  obtain ⟨first, hfirst, hdraft⟩ := Except.bind_eq_ok_iff.mp hdraft
  obtain ⟨second, hsecond, hdraft⟩ := Except.bind_eq_ok_iff.mp hdraft
  cases Except.ok.inj hdraft
  obtain ⟨ts, e, hts, he, heval⟩ := hleft.beforeAnd hfirst
  obtain ⟨us, f, hus, hf, hevalf⟩ := hright second hsecond
  have hword : tokenize d "AND".toList [] = some [.keyword .and] := by cases d <;> rfl
  refine ⟨_, .and e f, tokenize_operator hword rfl hts hus, .and he hf, fun truth => ?_⟩
  rw [Expression.eval, heval, hevalf]

theorem renders_or (hleft : Renders d column left.level left v)
    (hright : Renders d column .factor right w) :
    Renders d column .condition (.or left right) fun truth => (v truth).or (w truth) := by
  intro draft hdraft
  obtain ⟨first, hfirst, hdraft⟩ := Except.bind_eq_ok_iff.mp hdraft
  obtain ⟨second, hsecond, hdraft⟩ := Except.bind_eq_ok_iff.mp hdraft
  cases Except.ok.inj hdraft
  obtain ⟨ts, e, hts, he, heval⟩ := hleft.asCondition first hfirst
  obtain ⟨us, f, hus, hf, hevalf⟩ := hright second hsecond
  have hword : tokenize d "OR".toList [] = some [.keyword .or] := by cases d <;> rfl
  refine ⟨_, .or e f, tokenize_operator hword rfl hts hus, .or he (.ofFactor hf),
    fun truth => ?_⟩
  rw [Expression.eval, heval, hevalf]

end Condition

/-! Checked criteria have no empty group and no empty list, so every part of them renders. -/

namespace Criterion

private theorem checkAll_cons {first : Criterion} {rest : List Criterion}
    (h : checkAll (first :: rest) = .ok ()) : first.check = .ok () ∧ checkAll rest = .ok () := by
  obtain ⟨⟨⟩, hfirst, hrest⟩ := Except.bind_eq_ok_iff.mp h
  exact ⟨hfirst, hrest⟩

private theorem members_of_check {kind : GroupKind} {members : List Criterion}
    (h : (group kind members).check = .ok ()) : members ≠ [] ∧ checkAll members = .ok () := by
  cases members with
  | nil => contradiction
  | cons first rest => exact ⟨by simp, h⟩

private theorem candidates_of_check {t : Test} (h : t.check = .ok ()) (negated : Bool)
    (property : String) : t ≠ .inList negated property [] := by
  rintro rfl
  obtain ⟨⟨⟩, -, h⟩ := Except.bind_eq_ok_iff.mp h
  contradiction

private theorem level_ofCriterion (criterion : Criterion) :
    (Condition.ofCriterion criterion).level = .conjunction := by
  simp [Condition.level, Condition.isDisjunction_ofCriterion]

section
variable {d : Dialect} {column : String → Except CompileError String}

mutual

/-- A criterion by itself renders to a factor with its declared meaning. -/
theorem renders (criterion : Criterion) (hcheck : criterion.check = .ok ())
    (hnames : ∀ t ∈ criterion.tests, ∀ text, column t.property = .ok text →
      IsIdentifier d text.toList) :
    Condition.Renders d column .factor (.ofCriterion criterion) fun truth =>
      criterion.meaning (resolved column truth) := by
  match criterion with
  | .test t =>
    have hcandidates := candidates_of_check hcheck
    exact Condition.renders_test (hnames t (by simp [tests])) hcandidates
  | .group kind members =>
    obtain ⟨hne, hmembers⟩ := members_of_check hcheck
    have hinner := renders_siblings members hne hmembers hnames
    cases kind with
    | not => exact hinner.group.not
    | and => exact hinner.group
    | or => exact hinner.group

theorem renders_siblings (criteria : List Criterion) (hne : criteria ≠ [])
    (hcheck : checkAll criteria = .ok ())
    (hnames : ∀ t ∈ testsAll criteria, ∀ text, column t.property = .ok text →
      IsIdentifier d text.toList) :
    Condition.Renders d column .condition (.ofSiblings none criteria) fun truth =>
      meaningAfter (resolved column truth) none criteria := by
  match criteria with
  | [] => contradiction
  | first :: rest =>
    obtain ⟨hfirst, hrest⟩ := checkAll_cons hcheck
    have hhere := renders first hfirst fun t ht => hnames t (by simp [testsAll, ht])
    exact renders_after rest hrest (fun t ht => hnames t (by simp [testsAll, ht]))
      (level_ofCriterion first ▸ hhere.ofFactor)

/-- Siblings that follow a rendered condition extend it to one with the declared meaning. -/
theorem renders_after (criteria : List Criterion) (hcheck : checkAll criteria = .ok ())
    (hnames : ∀ t ∈ testsAll criteria, ∀ text, column t.property = .ok text →
      IsIdentifier d text.toList)
    {before : Condition} {v : (Test → Truth) → Truth}
    (hbefore : Condition.Renders d column before.level before v) :
    Condition.Renders d column .condition (.ofSiblings (some before) criteria) fun truth =>
      meaningAfter (resolved column truth) (some (v truth)) criteria := by
  match criteria with
  | [] => exact hbefore.asCondition
  | criterion :: rest =>
    obtain ⟨hfirst, hrest⟩ := checkAll_cons hcheck
    have hhere := renders criterion hfirst fun t ht => hnames t (by simp [testsAll, ht])
    have hothers : ∀ t ∈ testsAll rest, ∀ text, column t.property = .ok text →
        IsIdentifier d text.toList := fun t ht => hnames t (by simp [testsAll, ht])
    match criterion with
    | .group .or members =>
      exact renders_after rest hrest hothers (Condition.renders_or hbefore hhere)
    | .group .and members =>
      exact renders_after rest hrest hothers (Condition.renders_and hbefore hhere)
    | .group .not members =>
      exact renders_after rest hrest hothers (Condition.renders_and hbefore hhere)
    | .test t => exact renders_after rest hrest hothers (Condition.renders_and hbefore hhere)

end

end

end Criterion

theorem Scope.checkAll_of_materialize {scope : Scope} {criteria : Criteria}
    (h : scope.materialize = .ok criteria) : Criterion.checkAll criteria.restrictions = .ok () := by
  obtain ⟨limit, -, h⟩ := Except.bind_eq_ok_iff.mp h
  obtain ⟨offset, -, h⟩ := Except.bind_eq_ok_iff.mp h
  obtain ⟨⟨⟩, hcheck, h⟩ := Except.bind_eq_ok_iff.mp h
  obtain ⟨⟨⟩, -, h⟩ := Except.bind_eq_ok_iff.mp h
  cases Except.ok.inj h
  exact hcheck

theorem Dialect.propertySql_eq_ok_iff {d : Dialect} {m : Metamodel} {property text : String} :
    d.propertySql m property = .ok text ↔
      ∃ c, m.column? property = some c ∧ d.columnSql c = text := by
  unfold propertySql
  rw [Except.bind_eq_ok_iff]
  apply exists_congr
  intro c
  rw [Metamodel.resolve_eq_ok_iff, Except.pure_eq_ok_iff]

/-- A rendered where clause, read by the precedence of SQL, has exactly one reading, and that
has the declared meaning whatever the truth of its tests. Only an absent clause has no text. -/
theorem predicate_reads_as_declared (d : Dialect) (m : Metamodel) {scope : Scope}
    {criteria : Criteria} {draft : Draft} (hscope : scope.materialize = .ok criteria)
    (hnames : ∀ t ∈ Criterion.testsAll criteria.restrictions, ∀ c,
      m.column? t.property = some c → IsIdentifier d (d.columnSql c).toList)
    (hdraft : d.predicate m criteria.restrictions = .ok draft) :
    (criteria.restrictions = [] → draft.text = "") ∧
      (criteria.restrictions ≠ [] →
        (∃ e, ReadsAs d draft.text draft.values e) ∧
        ∀ e, ReadsAs d draft.text draft.values e → ∀ truth, e.eval truth =
          Criterion.meaningAfter (resolved (d.propertySql m) truth) none
            criteria.restrictions) := by
  have hcheck := Scope.checkAll_of_materialize hscope
  have hcolumns : ∀ t ∈ Criterion.testsAll criteria.restrictions, ∀ text,
      d.propertySql m t.property = .ok text → IsIdentifier d text.toList := by
    intro t ht text htext
    obtain ⟨c, hc, rfl⟩ := Dialect.propertySql_eq_ok_iff.mp htext
    exact hnames t ht c hc
  constructor
  · intro hnone
    rw [hnone] at hdraft
    cases Except.ok.inj hdraft
    rfl
  · intro hsome
    rw [d.predicate_eq] at hdraft
    obtain ⟨ts, e, hts, he, heval⟩ :=
      Criterion.renders_siblings _ hsome hcheck hcolumns draft hdraft
    have hreads : ReadsAs d draft.text draft.values e :=
      ⟨ts, by rw [Draft.toList_text]; exact hts, he⟩
    refine ⟨⟨e, hreads⟩, fun f hf truth => ?_⟩
    rw [hf.unique hreads]
    exact heval truth

/-- A table of two columns, one of which needs quotes and has one in its name. -/
def quotedSample : Metamodel where
  entity := "Sample"
  table := { name := "sample" }
  columns := [
    { path := "a", name := "a", column := "a", quoted := false, generation := none },
    { path := "b", name := "b", column := "b\"c", quoted := true, generation := none }]
  slots := {}
  identifierLess := true
  embedded := []

/-- `a = 1`, or `a` between 1 and 2, and then not `b` null. -/
def mixedSample : List Criterion :=
  [.test (.compare .eq "a" (.integer 1)),
    .group .or [.test (.between false "a" (.integer 1) (.integer 2))],
    .group .not [.test (.isNull false "b")]]

def mixedSampleText : String :=
  "(a = ? OR (a BETWEEN ? AND ?)) AND NOT (\"b\"\"c\" IS NULL)"

theorem mixedSample_reads_as_declared :
    (∃ e, ReadsAs .generic mixedSampleText [.integer 1, .integer 1, .integer 2] e) ∧
      ∀ e, ReadsAs .generic mixedSampleText [.integer 1, .integer 1, .integer 2] e →
        ∀ truth, e.eval truth =
          ((truth (.compare .eq "a" (.integer 1))).or
            (truth (.between false "a" (.integer 1) (.integer 2)))).and
              (truth (.isNull false "\"b\"\"c\"")).not := by
  have hnames : ∀ t ∈ Criterion.testsAll mixedSample, ∀ c,
      quotedSample.column? t.property = some c →
        IsIdentifier .generic (Dialect.generic.columnSql c).toList := by
    intro t ht c hc
    simp only [mixedSample, Criterion.testsAll, Criterion.tests, List.append_nil,
      List.cons_append, List.nil_append, List.mem_cons, List.not_mem_nil, or_false] at ht
    rcases ht with rfl | rfl | rfl
    · cases Option.some.inj hc
      exact .plain 'a' [] rfl (by simp) rfl
    · cases Option.some.inj hc
      exact .plain 'a' [] rfl (by simp) rfl
    · cases Option.some.inj hc
      exact .quoted "b\"c".toList
  have hscope : ({ restrictions := mixedSample } : Scope).materialize =
      .ok { restrictions := mixedSample } := rfl
  have hdraft : Dialect.generic.predicate quotedSample mixedSample = .ok
      ((Dialect.generic.predicate quotedSample mixedSample).toOption.getD ∅) := rfl
  have hread := predicate_reads_as_declared .generic quotedSample hscope hnames hdraft
  exact hread.2 (by simp [mixedSample])

end EntitySql
