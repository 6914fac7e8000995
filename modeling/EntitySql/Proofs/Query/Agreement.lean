import EntitySql.Proofs.Query.Account
import EntitySql.Proofs.Query.Binding

/-!
Where dialects agree. A dialect shows in a statement at five points: the table, the columns, the
place of nulls, the limits of mutations and the paging of rows. Dialects that agree at these points
of a query render it alike, and refuse it alike up to their own name.
-/

namespace EntitySql

def CompileError.under (d : Dialect) : CompileError → CompileError
  | unsupportedSequence _ sequence => unsupportedSequence d sequence
  | unsupportedNullOrdering _ => unsupportedNullOrdering d
  | unsupportedPaging operation _ clause => unsupportedPaging operation d clause
  | e => e

/-- The second result is the first one as the dialect has it: the same if it is a success, and
otherwise the same failure under the name of the dialect. -/
def Echoes {α : Type} (e : Dialect) (x y : Except CompileError α) : Prop :=
  y = x.mapError (·.under e)

section
variable {α β : Type} {e : Dialect} {x y : Except CompileError α}

theorem echoes_pure (a : α) : Echoes e (pure a) (pure a) := rfl

private theorem echoes_throw {fault : CompileError} :
    Echoes e (throw fault : Except CompileError α) (throw (fault.under e)) := rfl

theorem Echoes.eq_ok {a : α} (h : Echoes e x y) (hx : x = .ok a) : y = .ok a := by
  rw [h, hx]
  rfl

theorem Echoes.bind {f g : α → Except CompileError β} (h : Echoes e x y)
    (hnext : ∀ a, Echoes e (f a) (g a)) : Echoes e (x >>= f) (y >>= g) := by
  cases x with
  | error fault =>
    rw [h]
    rfl
  | ok a =>
    rw [h]
    exact hnext a

theorem Echoes.map {f g : α → β} (h : Echoes e x y) (hnext : ∀ a, f a = g a) :
    Echoes e (f <$> x) (g <$> y) := by
  obtain rfl : f = g := funext hnext
  cases x with
  | error fault =>
    rw [h]
    rfl
  | ok a =>
    rw [h]
    rfl

theorem echoes_guard {c : Prop} [Decidable c] {fault : CompileError}
    {rest rest' : Unit → Except CompileError α} (h : ¬c → Echoes e (rest ()) (rest' ())) :
    Echoes e (if c then throw fault >>= rest else rest ())
      (if c then throw (fault.under e) >>= rest' else rest' ()) := by
  split
  · rfl
  next hc => exact h hc

theorem echoes_mapM {f g : α → Except CompileError β} (l : List α)
    (h : ∀ a ∈ l, Echoes e (f a) (g a)) : Echoes e (l.mapM f) (l.mapM g) := by
  induction l with
  | nil => exact echoes_pure []
  | cons a rest ih =>
    rw [List.mapM_cons, List.mapM_cons]
    apply (h a (by simp)).bind
    intro b
    exact (ih fun a ha => h a (by simp [ha])).map fun _ => rfl

end

/-! What has nothing to do with the dialect echoes itself. -/

theorem Metamodel.echoes_resolve (e : Dialect) (m : Metamodel) (property : String) :
    Echoes e (m.resolve property) (m.resolve property) := by
  unfold resolve
  split <;> rfl

theorem Insert.echoes_rowValues (e : Dialect) (m : Metamodel) (row : List (String × Value)) :
    Echoes e (Insert.rowValues m row) (Insert.rowValues m row) := by
  unfold Insert.rowValues
  apply (echoes_mapM row fun entry _ => (m.echoes_resolve e entry.1).map fun _ => rfl).bind
  intro resolved
  apply echoes_mapM
  intro c _
  split <;> rfl

theorem echoes_requireWhere (e : Dialect) (operation : QueryKind) (m : Metamodel)
    (criteria : Criteria) (allowed : Bool) :
    Echoes e (requireWhere operation m criteria allowed)
      (requireWhere operation m criteria allowed) := by
  unfold requireWhere
  split <;> rfl

theorem Draft.echoes_build (e : Dialect) (draft : Draft) (log : Bool) :
    Echoes e ((draft.build log).mapError .statement) ((draft.build log).mapError .statement) := by
  cases draft.build log <;> rfl

/-! The five points at which a dialect shows. -/

namespace Dialect

structure WritesAlike (d e : Dialect) (m : Metamodel) : Prop where
  table : e.tableDraft m.table = d.tableDraft m.table
  columns : ∀ c ∈ m.columns, e.columnSql c = d.columnSql c

def OrdersAlike (d e : Dialect) (criteria : Criteria) : Prop :=
  e.supportsNullsOrdering = d.supportsNullsOrdering ∨ ∀ item ∈ criteria.order, item.nulls = none

def RestrictsAlike (d e : Dialect) (criteria : Criteria) : Prop :=
  e.supportsMutationLimit = d.supportsMutationLimit ∨
    criteria.limit = none ∧ criteria.order = []

section
variable {d e : Dialect} {m : Metamodel} (hnames : WritesAlike d e m)

include hnames

theorem WritesAlike.columnList {columns : List Column} (h : columns ⊆ m.columns) :
    e.columnList columns = d.columnList columns := by
  unfold Dialect.columnList
  congr 1
  exact List.map_congr_left fun c hc => by rw [hnames.columns c (h hc)]

theorem WritesAlike.echoes_propertySql (property : String) :
    Echoes e (d.propertySql m property) (e.propertySql m property) := by
  unfold propertySql Metamodel.resolve
  split
  next c hc => exact congrArg Except.ok (hnames.columns c (m.mem_columns_of_column? hc))
  next => rfl

theorem WritesAlike.echoes_condition (condition : Condition) :
    Echoes e (condition.draft (d.propertySql m)) (condition.draft (e.propertySql m)) := by
  induction condition with
  | empty => exact echoes_pure ∅
  | test t => exact (hnames.echoes_propertySql t.property).map fun _ => rfl
  | and left right ihleft ihright =>
    apply ihleft.bind
    intro first
    exact ihright.map fun _ => rfl
  | or left right ihleft ihright =>
    apply ihleft.bind
    intro first
    exact ihright.map fun _ => rfl
  | not inner ih => exact ih.map fun _ => rfl
  | group inner ih => exact ih.map fun _ => rfl

theorem WritesAlike.echoes_whereClause (criteria : Criteria) :
    Echoes e (d.whereClause m criteria) (e.whereClause m criteria) := by
  unfold whereClause
  split
  · rw [d.predicate_eq, e.predicate_eq]
    exact (hnames.echoes_condition _).map fun _ => rfl
  · exact echoes_pure ∅

theorem WritesAlike.echoes_sortDraft {item : SortItem}
    (h : e.supportsNullsOrdering = d.supportsNullsOrdering ∨ item.nulls = none) :
    Echoes e (d.sortDraft m item) (e.sortDraft m item) := by
  unfold sortDraft
  apply (hnames.echoes_propertySql item.property).bind
  intro column
  cases hnulls : item.nulls with
  | none => exact echoes_pure _
  | some nulls =>
    have hsupports : e.supportsNullsOrdering = d.supportsNullsOrdering := by simpa [hnulls] using h
    dsimp only
    rw [hsupports]
    split
    · exact echoes_pure _
    · exact echoes_throw

theorem WritesAlike.echoes_orderClause {criteria : Criteria} (h : OrdersAlike d e criteria) :
    Echoes e (d.orderClause m criteria) (e.orderClause m criteria) := by
  have hitem : ∀ item ∈ criteria.order, Echoes e (d.sortDraft m item) (e.sortDraft m item) :=
    fun item hitem => hnames.echoes_sortDraft (h.imp_right fun hnulls => hnulls item hitem)
  unfold orderClause
  split
  · exact echoes_pure ∅
  · exact (echoes_mapM criteria.order hitem).map fun _ => rfl

theorem WritesAlike.echoes_mutationPaging (operation : QueryKind) {criteria : Criteria}
    (horder : OrdersAlike d e criteria) (h : RestrictsAlike d e criteria) :
    Echoes e (d.mutationPaging operation m criteria) (e.mutationPaging operation m criteria) := by
  unfold mutationPaging
  apply echoes_guard
  intro _
  split
  · exact echoes_pure ∅
  next hsome =>
    have hsupports : e.supportsMutationLimit = d.supportsMutationLimit := by
      refine h.resolve_right ?_
      rintro ⟨hlimit, hempty⟩
      simp [hlimit, hempty] at hsome
    rw [hsupports]
    apply echoes_guard
    intro _
    exact (hnames.echoes_orderClause horder).map fun _ => rfl

end

def Interchangeable (d e : Dialect) (q : Query) : Prop :=
  WritesAlike d e q.target ∧
    match q with
    | .select q => OrdersAlike d e q.criteria ∧ (q.projection = .entity →
        e.paging q.criteria.offset q.criteria.limit = d.paging q.criteria.offset q.criteria.limit)
    | .insert _ => True
    | .update q => OrdersAlike d e q.criteria ∧ RestrictsAlike d e q.criteria
    | .delete q => OrdersAlike d e q.criteria ∧ RestrictsAlike d e q.criteria

end Dialect

open Dialect

section
variable {d e : Dialect}

theorem Select.echoes_draft {q : Select} (hnames : WritesAlike d e q.target)
    (horder : OrdersAlike d e q.criteria) (hpaging : q.projection = .entity →
      e.paging q.criteria.offset q.criteria.limit = d.paging q.criteria.offset q.criteria.limit) :
    Echoes e (q.draft d) (q.draft e) := by
  unfold Select.draft
  apply (hnames.echoes_whereClause q.criteria).bind
  intro filter
  rw [hnames.table, hnames.columnList (List.Subset.refl q.target.columns)]
  cases hprojection : q.projection with
  | count => cases q.distinct <;> exact echoes_pure _
  | entity =>
    apply (hnames.echoes_orderClause horder).map
    intro order
    rw [hpaging hprojection]

theorem Insert.echoes_draft {q : Insert} (hnames : WritesAlike d e q.target) :
    Echoes e (q.draft d) (q.draft e) := by
  have hsupplied : q.target.supplied ⊆ q.target.columns := fun c hc => (List.mem_filter.mp hc).1
  have htuple : ∀ row ∈ q.rows, Echoes e
      ((fun values => (Draft.bindAll values ", ").paren) <$> Insert.rowValues q.target row)
      ((fun values => (Draft.bindAll values ", ").paren) <$> Insert.rowValues q.target row) :=
    fun row _ => (Insert.echoes_rowValues e q.target row).map fun _ => rfl
  unfold Insert.draft
  apply echoes_guard
  intro _
  apply (echoes_mapM q.rows htuple).map
  intro tuples
  rw [hnames.table, hnames.columnList hsupplied]

theorem Assignment.echoes_draft {m : Metamodel} (hnames : WritesAlike d e m) (a : Assignment) :
    Echoes e (a.draft d m) (a.draft e m) := by
  unfold Assignment.draft
  apply (hnames.echoes_propertySql a.property).bind
  intro column
  split <;> exact echoes_pure _

theorem Update.echoes_draft {q : Update} (hnames : WritesAlike d e q.target)
    (horder : OrdersAlike d e q.criteria) (hrestrict : RestrictsAlike d e q.criteria) :
    Echoes e (q.draft d) (q.draft e) := by
  unfold Update.draft
  apply echoes_guard
  intro _
  apply (echoes_requireWhere e .update q.target q.criteria q.allowMissingWhere).bind
  intro _
  apply (echoes_mapM q.assignments fun a _ => a.echoes_draft hnames).bind
  intro items
  apply (hnames.echoes_whereClause q.criteria).bind
  intro filter
  apply (hnames.echoes_mutationPaging .update horder hrestrict).map
  intro paging
  rw [hnames.table]

theorem Delete.echoes_draft {q : Delete} (hnames : WritesAlike d e q.target)
    (horder : OrdersAlike d e q.criteria) (hrestrict : RestrictsAlike d e q.criteria) :
    Echoes e (q.draft d) (q.draft e) := by
  unfold Delete.draft
  apply (echoes_requireWhere e .delete q.target q.criteria q.allowMissingWhere).bind
  intro _
  apply (hnames.echoes_whereClause q.criteria).bind
  intro filter
  apply (hnames.echoes_mutationPaging .delete horder hrestrict).map
  intro paging
  rw [hnames.table]

namespace Query

theorem echoes_draft {q : Query} (h : Interchangeable d e q) :
    Echoes e (q.draft d) (q.draft e) := by
  obtain ⟨hnames, hclauses⟩ := h
  cases q with
  | select q => exact Select.echoes_draft hnames hclauses.1 hclauses.2
  | insert q => exact Insert.echoes_draft hnames
  | update q => exact Update.echoes_draft hnames hclauses.1 hclauses.2
  | delete q => exact Delete.echoes_draft hnames hclauses.1 hclauses.2

theorem echoes_compile {q : Query} (h : Interchangeable d e q) (log : Bool) :
    Echoes e (q.compile d log) (q.compile e log) :=
  (echoes_draft h).bind fun draft => draft.echoes_build e log

end Query

end

/-! Generic and Postgres differ in their names only, and MySQL from both where names are quoted,
nulls get a place, mutations are restricted, or rows are skipped without a limit. -/

/-- The names of an entity stand in statements as they are. -/
structure Metamodel.Unquoted (m : Metamodel) : Prop where
  table : m.table.quoted = false
  columns : ∀ c ∈ m.columns, c.quoted = false

namespace Dialect

theorem interchangeable_postgres (q : Query) : Interchangeable .generic .postgres q := by
  refine ⟨⟨rfl, fun _ _ => rfl⟩, ?_⟩
  cases q with
  | select q => exact ⟨.inl rfl, fun _ => rfl⟩
  | insert q => trivial
  | update q => exact ⟨.inl rfl, .inl rfl⟩
  | delete q => exact ⟨.inl rfl, .inl rfl⟩

theorem writesAlike_of_unquoted {d e : Dialect} {m : Metamodel} (h : m.Unquoted) :
    WritesAlike d e m where
  table := by
    simp only [tableDraft, enquote, h.table]
    rfl
  columns c hc := by
    simp only [columnSql, enquote, h.columns c hc]
    rfl

@[simp] theorem paging_none (d : Dialect) : d.paging none none = ∅ := by
  cases d <;> rfl

private theorem paging_mysql {offset limit : Option Nat} (h : offset = none ∨ limit ≠ none) :
    mysql.paging offset limit = generic.paging offset limit := by
  cases offset with
  | none => rfl
  | some skipped =>
    cases limit with
    | none => simp at h
    | some n => rfl

end Dialect

theorem Criteria.unrestricted_of_pagingFaults {operation : QueryKind} {m : Metamodel}
    {criteria : Criteria} (h : criteria.pagingFaults .generic operation m = []) :
    criteria.limit = none ∧ criteria.order = [] := by
  obtain ⟨-, h⟩ := List.append_eq_nil_iff.mp h
  rw [if_neg (by decide)] at h
  constructor
  · by_contra hlimit
    rw [if_pos (Option.isSome_iff_ne_none.mpr hlimit)] at h
    contradiction
  · by_contra horder
    split at h <;> contradiction

namespace Query

/-- A SELECT of entities that skips rows and takes all the others. -/
def OffsetOnly : Query → Prop
  | select q => q.projection = .entity ∧ q.criteria.offset ≠ none ∧ q.criteria.limit = none
  | _ => False

/-- What a query that Generic renders leaves open to MySQL are names, nulls and skipped rows. -/
theorem interchangeable_mysql {q : Query} {draft : Draft} (hdraft : q.draft .generic = .ok draft)
    (hunquoted : q.target.Unquoted)
    (hnulls : ∀ criteria ∈ q.criteria?, ∀ item ∈ criteria.order, item.nulls = none)
    (honly : ¬q.OffsetOnly) : Interchangeable .generic .mysql q := by
  refine ⟨writesAlike_of_unquoted hunquoted, ?_⟩
  cases q with
  | select q =>
    refine ⟨.inr (hnulls _ rfl), fun hentity => paging_mysql ?_⟩
    by_contra hskips
    push Not at hskips
    exact honly ⟨hentity, hskips⟩
  | insert q => trivial
  | update q =>
    have hyields := q.yields_draft .generic
    rw [show q.draft .generic = .ok draft from hdraft] at hyields
    have hfaults := hyields.1
    simp only [Update.faults, List.append_eq_nil_iff] at hfaults
    exact ⟨.inr (hnulls _ rfl), .inr (Criteria.unrestricted_of_pagingFaults hfaults.2.2.2.2)⟩
  | delete q =>
    have hyields := q.yields_draft .generic
    rw [show q.draft .generic = .ok draft from hdraft] at hyields
    have hfaults := hyields.1
    simp only [Delete.faults, List.append_eq_nil_iff] at hfaults
    exact ⟨.inr (hnulls _ rfl), .inr (Criteria.unrestricted_of_pagingFaults hfaults.2.2)⟩

end Query

/-! A limit that stands in for a missing one adds text without placeholders. -/

namespace Region

private theorem countP_marks_insert {middle : List Char} (h : Plain middle)
    (front back : List Char) :
    (marks none (front ++ (middle ++ back))).countP isPlaceholder =
      (marks none (front ++ back)).countP isPlaceholder := by
  have hafter : after (after none front) middle = after none front :=
    h.1.after_eq fun quote hquote => isQuote_of_after (by simp) front hquote
  have hmiddle : (marks (after none front) middle).countP isPlaceholder = 0 := by
    rw [List.countP_eq_zero]
    intro mark hmark
    simp [not_isPlaceholder_of_mem h.2 hmark]
  simp only [marks_append, List.countP_append, hafter, hmiddle, Nat.zero_add]

end Region

namespace Draft

/-- Plain text between two drafts changes nothing about whether they can be built. -/
private theorem build_insert {front back : Draft} {text : String} (h : Region.Plain text.toList)
    {log : Bool} {s : Statement} (hs : (front ++ back).build log = .ok s) :
    (front ++ (sql text ++ back)).build log =
      .ok (.unchecked (front.text ++ (text ++ back.text)) s.values log) := by
  obtain ⟨hcount, rfl⟩ := Statement.make_eq_ok_iff.mp hs
  refine Statement.make_eq_ok_iff.mpr ⟨?_, ?_⟩
  · rw [placeholderCount, toList_text] at hcount ⊢
    simp only [chars_append, chars_sql, values_append, values_sql, List.nil_append] at hcount ⊢
    rw [Region.countP_marks_insert h, hcount]
  · have htext : (sql text).text = text := by simp [Draft.text]
    simp [text_append, htext]

end Draft

namespace Select

def unpaged (q : Select) : Select :=
  { q with criteria := { q.criteria with limit := none, offset := none } }

private theorem draft_of_entity (d : Dialect) {q : Select} (h : q.projection = .entity) :
    q.draft d = (· ++ d.paging q.criteria.offset q.criteria.limit) <$> q.unpaged.draft d := by
  have hwhere : d.whereClause q.unpaged.target q.unpaged.criteria =
      d.whereClause q.target q.criteria := rfl
  have horder : d.orderClause q.unpaged.target q.unpaged.criteria =
      d.orderClause q.target q.criteria := rfl
  have hpaging : d.paging q.unpaged.criteria.offset q.unpaged.criteria.limit = ∅ := d.paging_none
  have hprojection : q.unpaged.projection = .entity := h
  unfold draft
  rw [hwhere, horder, hpaging, h, hprojection]
  cases d.whereClause q.target q.criteria with
  | error e => rfl
  | ok filter =>
    cases d.orderClause q.target q.criteria with
    | error e => rfl
    | ok order =>
      simp only [Draft.append_empty]
      rfl

end Select

/-- Where rows are skipped without a limit, MySQL names the largest there is. -/
theorem Query.compile_mysql_of_offsetOnly {q : Query} {log : Bool} {s : Statement}
    (hs : q.compile .generic log = .ok s) (hunquoted : q.target.Unquoted)
    (hnulls : ∀ criteria ∈ q.criteria?, ∀ item ∈ criteria.order, item.nulls = none)
    (honly : q.OffsetOnly) :
    ∃ front, s.text = front ++ " OFFSET ?" ∧
      q.compile .mysql log =
        .ok (.unchecked (front ++ " LIMIT 18446744073709551615 OFFSET ?") s.values log) := by
  cases q with
  | insert q | update q | delete q => exact honly.elim
  | select q =>
    obtain ⟨hentity, hoffset, hlimit⟩ := honly
    obtain ⟨skipped, hoffset⟩ := Option.ne_none_iff_exists'.mp hoffset
    obtain ⟨draft, hdraft, hbuild⟩ := Except.bind_eq_ok_iff.mp hs
    have hsame : Interchangeable .generic .mysql (.select q.unpaged) :=
      ⟨writesAlike_of_unquoted hunquoted, .inr (hnulls q.criteria rfl), fun _ => rfl⟩
    have hgeneric : q.draft .generic = .ok draft := hdraft
    rw [Select.draft_of_entity .generic hentity, hoffset, hlimit] at hgeneric
    obtain ⟨front, hfront, rfl⟩ := Except.map_eq_ok_iff.mp hgeneric
    have hmysql : q.draft .mysql = .ok (front ++ Dialect.paging .mysql (some skipped) none) := by
      rw [Select.draft_of_entity .mysql hentity, hoffset, hlimit]
      exact Except.map_eq_ok_iff.mpr ⟨front, (Query.echoes_draft hsame).eq_ok hfront, rfl⟩
    have hbuild := Except.mapError_eq_ok_iff.mp hbuild
    obtain ⟨-, rfl⟩ := Statement.make_eq_ok_iff.mp hbuild
    refine ⟨front.text, ?_, ?_⟩
    · rw [Statement.text_unchecked, Draft.text_append]
      rfl
    · refine Except.bind_eq_ok_iff.mpr ⟨_, hmysql, Except.mapError_eq_ok_iff.mpr ?_⟩
      exact Draft.build_insert (by decide) hbuild

/-- Postgres answers as Generic does. So does MySQL where names are bare, nulls are given no place
and Generic compiles, except for a limit where rows are skipped without one. -/
theorem dialects_agree (log : Bool) (q : Query) :
    q.compile .postgres log = (q.compile .generic log).mapError (·.under .postgres) ∧
      (q.target.Unquoted →
        (∀ criteria ∈ q.criteria?, ∀ item ∈ criteria.order, item.nulls = none) →
        ∀ s, q.compile .generic log = .ok s →
          (¬q.OffsetOnly → q.compile .mysql log = .ok s) ∧
          (q.OffsetOnly → ∃ front, s.text = front ++ " OFFSET ?" ∧
            q.compile .mysql log =
              .ok (.unchecked (front ++ " LIMIT 18446744073709551615 OFFSET ?") s.values
                log))) := by
  refine ⟨Query.echoes_compile (interchangeable_postgres q) log, ?_⟩
  intro hunquoted hnulls s hs
  constructor
  · intro honly
    obtain ⟨draft, hdraft, -⟩ := Except.bind_eq_ok_iff.mp hs
    have hsame := Query.interchangeable_mysql hdraft hunquoted hnulls honly
    exact (Query.echoes_compile hsame log).eq_ok hs
  · exact Query.compile_mysql_of_offsetOnly hs hunquoted hnulls

def laterTasks (m : Metamodel) (limit : Option Nat) : Query :=
  .select {
    target := m
    criteria := {
      restrictions := [.test (.compare .ne "title" (.text ""))]
      order := [⟨"due.day", .asc, none⟩]
      limit
      offset := some 5 } }

def laterTasksText : String :=
  "SELECT id, title, day FROM Task WHERE title <> ? ORDER BY day ASC"

theorem laterTasks_agree :
    ∃ m, Metamodel.ofDescriptor task = .ok m ∧ m.Unquoted ∧ (laterTasks m none).OffsetOnly ∧
      (laterTasks m none).compile .generic false =
        .ok (.unchecked (laterTasksText ++ " OFFSET ?") [.text "", .count 5] false) ∧
      (laterTasks m none).compile .mysql false =
        .ok (.unchecked (laterTasksText ++ " LIMIT 18446744073709551615 OFFSET ?")
          [.text "", .count 5] false) ∧
      ∃ s, (laterTasks m (some 3)).compile .generic false = .ok s ∧
        (laterTasks m (some 3)).compile .postgres false = .ok s ∧
        (laterTasks m (some 3)).compile .mysql false = .ok s := by
  obtain ⟨m, haccepted, hunquoted, hall, s, hs⟩ : ∃ m, Metamodel.ofDescriptor task = .ok m ∧
      m.Unquoted ∧
      (laterTasks m none).compile .generic false =
        .ok (.unchecked (laterTasksText ++ " OFFSET ?") [.text "", .count 5] false) ∧
      ∃ s, (laterTasks m (some 3)).compile .generic false = .ok s :=
    ⟨_, rfl, ⟨rfl, by decide⟩, rfl, _, rfl⟩
  have hnulls : ∀ limit, ∀ criteria ∈ (laterTasks m limit).criteria?, ∀ item ∈ criteria.order,
      item.nulls = none := by
    rintro limit _ ⟨⟩ item hitem
    rw [List.mem_singleton.mp hitem]
  have honly : (laterTasks m none).OffsetOnly := ⟨rfl, nofun, rfl⟩
  have hlimited : ¬(laterTasks m (some 3)).OffsetOnly := nofun
  obtain ⟨-, hopen⟩ := dialects_agree false (laterTasks m none)
  obtain ⟨front, hfront, hmysql⟩ := (hopen hunquoted (hnulls none) _ hall).2 honly
  obtain rfl : laterTasksText = front := String.append_left_inj _ |>.mp hfront
  obtain ⟨hpostgres, hpaged⟩ := dialects_agree false (laterTasks m (some 3))
  rw [hs] at hpostgres
  exact ⟨m, haccepted, hunquoted, honly, hall, hmysql, s, hs, hpostgres,
    (hpaged hunquoted (hnulls (some 3)) s hs).1 hlimited⟩

end EntitySql
