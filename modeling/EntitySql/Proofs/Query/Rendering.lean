import EntitySql.Proofs.Condition.Basic
import EntitySql.Proofs.Outcome
import EntitySql.Proofs.Statement.Alignment
import EntitySql.Query.Compile

/-!
What drafts of queries are made of. Whatever the query, its draft holds text that is fixed by the
dialect, mapped names as the dialect writes them, and bound values. A draft that cannot be made
is refused for a fault of the query, never for one of the statement, which does not exist yet.
-/

namespace EntitySql

def Dialect.mappedNames (d : Dialect) (m : Metamodel) : List String :=
  (m.table.schema.toList ++ [m.table.name]).map (d.enquote · m.table.quoted) ++
    m.columns.map d.columnSql

/-- Raw text is plain unless it is one of the given names. -/
def Draft.MadeOf (names : List String) (draft : Draft) : Prop :=
  ∀ text, .sql text ∈ draft.pieces → Region.Plain text.toList ∨ text ∈ names

/-- What is found has a property, and a failure is no fault of a statement. -/
def Meets {α : Type} (good : α → Prop) : Except CompileError α → Prop
  | .ok a => good a
  | .error e => ∀ fault, e ≠ .statement fault

section
variable {α β : Type} {good : α → Prop} {fine : β → Prop}

theorem meets_pure {a : α} (h : good a) : Meets good (pure a) := h

theorem meets_throw {e : CompileError} (h : ∀ fault, e ≠ .statement fault) :
    Meets good (throw e) := h

theorem Meets.bind {x : Except CompileError α} {f : α → Except CompileError β} (hx : Meets good x)
    (hf : ∀ a, good a → Meets fine (f a)) : Meets fine (x >>= f) := by
  cases x with
  | error e => exact hx
  | ok a => exact hf a hx

theorem Meets.map {x : Except CompileError α} {f : α → β} (hx : Meets good x)
    (hf : ∀ a, good a → fine (f a)) : Meets fine (f <$> x) := by
  cases x with
  | error e => exact hx
  | ok a => exact hf a hx

theorem meets_ite {c : Prop} [Decidable c] {x y : Except CompileError α} (hx : c → Meets good x)
    (hy : ¬c → Meets good y) : Meets good (if c then x else y) := by
  split
  · exact hx ‹_›
  · exact hy ‹_›

theorem Meets.imp {x : Except CompileError α} {weaker : α → Prop} (hx : Meets good x)
    (h : ∀ a, good a → weaker a) : Meets weaker x := by
  cases x with
  | error e => exact hx
  | ok a => exact h a hx

theorem meets_guard {c : Prop} [Decidable c] {e : CompileError}
    {rest : Unit → Except CompileError α} (he : ∀ fault, e ≠ .statement fault)
    (hrest : ¬c → Meets good (rest ())) :
    Meets good (if c then throw e >>= rest else rest ()) :=
  meets_ite (fun _ => meets_throw he) hrest

theorem meets_mapM {f : α → Except CompileError β} {l : List α}
    (h : ∀ a ∈ l, Meets fine (f a)) : Meets (fun bs => ∀ b ∈ bs, fine b) (l.mapM f) := by
  induction l with
  | nil => exact meets_pure (by simp)
  | cons a rest ih =>
    rw [List.mapM_cons]
    apply (h a (by simp)).bind
    intro b hb
    apply (ih fun a ha => h a (by simp [ha])).bind
    intro bs hbs
    exact meets_pure (List.forall_mem_cons.mpr ⟨hb, hbs⟩)

end

namespace Draft

variable {names : List String}

theorem madeOf_empty : MadeOf names ∅ := by
  intro text htext
  cases htext

theorem madeOf_plain {text : String} (h : Region.Plain text.toList) :
    MadeOf names (sql text) := by
  intro other hother
  cases List.mem_singleton.mp hother
  exact .inl h

theorem madeOf_name {name : String} (h : name ∈ names) : MadeOf names (sql name) := by
  intro other hother
  cases List.mem_singleton.mp hother
  exact .inr h

theorem madeOf_bind (value : Value) : MadeOf names (bind value) := by
  intro text htext
  cases List.mem_singleton.mp htext

theorem MadeOf.append {left right : Draft} (hleft : MadeOf names left)
    (hright : MadeOf names right) : MadeOf names (left ++ right) := by
  intro text htext
  rcases List.mem_append.mp htext with htext | htext
  · exact hleft text htext
  · exact hright text htext

theorem MadeOf.paren {draft : Draft} (h : MadeOf names draft) : MadeOf names draft.paren :=
  ((madeOf_plain (by decide)).append h).append (madeOf_plain (by decide))

theorem MadeOf.sepBy {separator : String} (hseparator : MadeOf names (sql separator))
    {drafts : List Draft} (h : ∀ draft ∈ drafts, MadeOf names draft) :
    MadeOf names (sepBy separator drafts) := by
  induction drafts with
  | nil => exact madeOf_empty
  | cons draft rest ih =>
    have hdraft := h draft (by simp)
    have hrest := ih fun draft hdraft => h draft (by simp [hdraft])
    cases rest with
    | nil => exact hdraft
    | cons next rest => exact (hdraft.append hseparator).append hrest

theorem MadeOf.bindAll {separator : String} (hseparator : MadeOf names (sql separator))
    (values : List Value) : MadeOf names (bindAll values separator) := by
  apply hseparator.sepBy
  intro draft hdraft
  obtain ⟨value, -, rfl⟩ := List.mem_map.mp hdraft
  exact madeOf_bind value

theorem madeOf_sepBy {separator : String} (hseparator : Region.Plain separator.toList)
    {drafts : List Draft} (h : ∀ draft ∈ drafts, MadeOf names draft) :
    MadeOf names (.sepBy separator drafts) :=
  (madeOf_plain hseparator).sepBy h

theorem madeOf_bindAll {separator : String} (hseparator : Region.Plain separator.toList)
    (values : List Value) : MadeOf names (.bindAll values separator) :=
  (madeOf_plain hseparator).bindAll values

end Draft

/-! The clauses, each over names that hold the mapped ones it shows. -/

section
variable {names : List String} (d : Dialect) (m : Metamodel)

theorem Metamodel.mem_columns_of_column? {property : String} {c : Column}
    (h : m.column? property = some c) : c ∈ m.columns := by
  unfold column? at h
  split at h
  next found hfound =>
    cases h
    exact List.mem_of_find?_eq_some hfound
  next =>
    split at h
    next found hfound =>
      cases h
      exact (List.mem_filter.mp (hfound ▸ List.mem_singleton_self c)).1
    next => contradiction

theorem Metamodel.meets_resolve (property : String) :
    Meets (· ∈ m.columns) (m.resolve property) := by
  unfold resolve
  split
  next c hc => exact m.mem_columns_of_column? hc
  next => exact meets_throw (by simp)

namespace Dialect

private theorem columnSql_mem_mappedNames {c : Column} (h : c ∈ m.columns) :
    d.columnSql c ∈ d.mappedNames m :=
  List.mem_append_right _ (List.mem_map_of_mem h)

theorem meets_propertySql (property : String) :
    Meets (· ∈ d.mappedNames m) (d.propertySql m property) :=
  (m.meets_resolve property).map fun _ hc => d.columnSql_mem_mappedNames m hc

theorem madeOf_tableDraft : (d.tableDraft m.table).MadeOf (d.mappedNames m) := by
  have hname : ∀ name ∈ m.table.schema.toList ++ [m.table.name],
      d.enquote name m.table.quoted ∈ d.mappedNames m :=
    fun name h => List.mem_append_left _ (List.mem_map_of_mem h)
  have htable := Draft.madeOf_name (hname m.table.name (by simp))
  unfold tableDraft
  split
  next schema hschema =>
    have hschema := Draft.madeOf_name (hname schema (by simp [hschema]))
    exact (hschema.append (Draft.madeOf_plain (by decide))).append htable
  next => exact htable

theorem madeOf_columnList {columns : List Column} (h : columns ⊆ m.columns) :
    (d.columnList columns).MadeOf (d.mappedNames m) := by
  apply Draft.madeOf_sepBy (by decide)
  intro draft hdraft
  obtain ⟨c, hc, rfl⟩ := List.mem_map.mp hdraft
  exact Draft.madeOf_name (d.columnSql_mem_mappedNames m (h hc))

theorem madeOf_countClause {keyword : String} (hkeyword : Region.Plain keyword.toList)
    (n : Option Nat) : (countClause keyword n).MadeOf names := by
  cases n with
  | none => exact Draft.madeOf_empty
  | some n => exact (Draft.madeOf_plain hkeyword).append (Draft.madeOf_bind _)

theorem madeOf_paging (offset limit : Option Nat) : (d.paging offset limit).MadeOf names := by
  unfold paging
  split
  · exact (Draft.madeOf_plain (by decide)).append (madeOf_countClause (by decide) _)
  · exact (madeOf_countClause (by decide) limit).append (madeOf_countClause (by decide) offset)

end Dialect

theorem Test.madeOf_draft {column : String} (hcolumn : column ∈ names) (t : Test) :
    (t.draft column).MadeOf names := by
  have hname : (Draft.sql column).MadeOf names := Draft.madeOf_name hcolumn
  cases t with
  | compare op property value =>
    have hop : Region.Plain (" " ++ op.sql ++ " ").toList := by cases op <;> decide
    exact (hname.append (Draft.madeOf_plain hop)).append (Draft.madeOf_bind value)
  | isNull negated property =>
    exact hname.append (Draft.madeOf_plain (by cases negated <;> decide))
  | like negated property pattern =>
    have hword : Region.Plain (if negated then " NOT LIKE " else " LIKE ").toList := by
      cases negated <;> decide
    exact (hname.append (Draft.madeOf_plain hword)).append (Draft.madeOf_bind pattern)
  | between negated property low high =>
    have hword : Region.Plain (if negated then " NOT BETWEEN " else " BETWEEN ").toList := by
      cases negated <;> decide
    have hlow := (hname.append (Draft.madeOf_plain hword)).append (Draft.madeOf_bind low)
    exact (hlow.append (Draft.madeOf_plain (by decide))).append (Draft.madeOf_bind high)
  | inList negated property values =>
    have hword : Region.Plain (if negated then " NOT IN (" else " IN (").toList := by
      cases negated <;> decide
    have hopen := hname.append (Draft.madeOf_plain hword)
    exact (hopen.append (Draft.madeOf_bindAll (by decide) values)).append
      (Draft.madeOf_plain (by decide))

/-- Rendering a condition asks for columns and otherwise cannot fail. -/
theorem Condition.meets_draft {column : String → Except CompileError String}
    (hcolumn : ∀ property, Meets (· ∈ names) (column property)) (condition : Condition) :
    Meets (Draft.MadeOf names) (condition.draft column) := by
  induction condition with
  | empty => exact Draft.madeOf_empty
  | test t => exact (hcolumn t.property).map fun text htext => t.madeOf_draft htext
  | and left right ihleft ihright =>
    apply ihleft.bind
    intro first hfirst
    apply ihright.map
    intro second hsecond
    have hleft : (if left.isDisjunction then first.paren else first).MadeOf names := by
      split
      · exact hfirst.paren
      · exact hfirst
    exact (hleft.append (Draft.madeOf_plain (by decide))).append hsecond
  | or left right ihleft ihright =>
    apply ihleft.bind
    intro first hfirst
    apply ihright.map
    intro second hsecond
    exact (hfirst.append (Draft.madeOf_plain (by decide))).append hsecond
  | not inner ih =>
    exact ih.map fun draft hdraft => (Draft.madeOf_plain (by decide)).append hdraft
  | group inner ih => exact ih.map fun draft hdraft => hdraft.paren

namespace Dialect

theorem meets_whereClause (criteria : Criteria) :
    Meets (Draft.MadeOf (d.mappedNames m)) (d.whereClause m criteria) := by
  unfold whereClause
  split
  · have hpredicate := Condition.meets_draft (d.meets_propertySql m)
      (.ofSiblings none criteria.restrictions)
    rw [← d.predicate_eq] at hpredicate
    exact hpredicate.map fun draft hdraft => (Draft.madeOf_plain (by decide)).append hdraft
  · exact meets_pure Draft.madeOf_empty

theorem meets_sortDraft (item : SortItem) :
    Meets (Draft.MadeOf (d.mappedNames m)) (d.sortDraft m item) := by
  unfold sortDraft
  apply (d.meets_propertySql m item.property).bind
  intro column hcolumn
  have hdirection : Region.Plain (" " ++ item.direction.sql).toList := by
    cases item.direction <;> decide
  have hsorted := (Draft.madeOf_name hcolumn).append (Draft.madeOf_plain hdirection)
  dsimp only
  split
  · exact meets_pure hsorted
  next nulls _ =>
    have hnulls : Region.Plain (" " ++ nulls.sql).toList := by cases nulls <;> decide
    split
    · exact meets_pure (hsorted.append (Draft.madeOf_plain hnulls))
    · exact meets_throw (by simp)

theorem meets_orderClause (criteria : Criteria) :
    Meets (Draft.MadeOf (d.mappedNames m)) (d.orderClause m criteria) := by
  unfold orderClause
  split
  · exact meets_pure Draft.madeOf_empty
  · have hitems := meets_mapM fun item (_ : item ∈ criteria.order) => d.meets_sortDraft m item
    exact hitems.map fun drafts hdrafts =>
      (Draft.madeOf_plain (by decide)).append (Draft.madeOf_sepBy (by decide) hdrafts)

theorem meets_mutationPaging (operation : QueryKind) (criteria : Criteria) :
    Meets (Draft.MadeOf (d.mappedNames m)) (d.mutationPaging operation m criteria) := by
  unfold mutationPaging
  apply meets_guard (by simp)
  intro _
  apply meets_ite (fun _ => meets_pure Draft.madeOf_empty)
  intro _
  apply meets_guard (by simp)
  intro _
  exact (d.meets_orderClause m criteria).map fun draft hdraft =>
    hdraft.append (madeOf_countClause (by decide) criteria.limit)

end Dialect

theorem meets_requireWhere (operation : QueryKind) (criteria : Criteria) (allowed : Bool) :
    Meets (fun _ => True) (requireWhere operation m criteria allowed) := by
  unfold requireWhere
  split
  · exact trivial
  · exact meets_throw (by simp)

theorem Select.meets_draft (q : Select) :
    Meets (Draft.MadeOf (d.mappedNames q.target)) (q.draft d) := by
  have htable := d.madeOf_tableDraft q.target
  have hcolumns := d.madeOf_columnList q.target (List.Subset.refl q.target.columns)
  have hrows : ∀ verb : String, Region.Plain verb.toList →
      Draft.MadeOf (d.mappedNames q.target) (.sql verb ++ d.columnList q.target.columns ++
        .sql " FROM " ++ d.tableDraft q.target.table) := by
    intro verb hverb
    have hlisted := (Draft.madeOf_plain hverb).append hcolumns
    exact (hlisted.append (Draft.madeOf_plain (by decide))).append htable
  unfold Select.draft
  apply (d.meets_whereClause q.target q.criteria).bind
  intro filter hfilter
  split
  · have hcount : Region.Plain "SELECT COUNT(*) FROM ".toList := by decide
    exact meets_pure (((Draft.madeOf_plain hcount).append htable).append hfilter)
  · have hinner := (hrows "SELECT COUNT(*) FROM (SELECT DISTINCT " (by decide)).append hfilter
    exact meets_pure (hinner.append (Draft.madeOf_plain (by decide)))
  · have hverb : Region.Plain
        (if q.distinct then "SELECT DISTINCT " else "SELECT ").toList := by
      cases q.distinct <;> decide
    exact (d.meets_orderClause q.target q.criteria).map fun order horder =>
      (((hrows _ hverb).append hfilter).append horder).append (d.madeOf_paging _ _)

theorem Insert.meets_rowValues (row : List (String × Value)) :
    Meets (fun _ => True) (Insert.rowValues m row) := by
  have hresolved : ∀ entry ∈ row, Meets (fun _ : String × Value => True)
      ((fun c => (c.path, entry.2)) <$> m.resolve entry.1) :=
    fun entry _ => (m.meets_resolve entry.1).map fun _ _ => trivial
  unfold Insert.rowValues
  apply (meets_mapM hresolved).bind
  intro resolved _
  suffices hvalues : Meets (fun values : List Value => ∀ value ∈ values, True) _ from
    hvalues.imp fun _ _ => trivial
  apply meets_mapM
  intro c _
  split
  · exact trivial
  · exact meets_throw (by simp)

theorem Insert.meets_draft (q : Insert) :
    Meets (Draft.MadeOf (d.mappedNames q.target)) (q.draft d) := by
  have hsupplied : q.target.supplied ⊆ q.target.columns :=
    fun c hc => (List.mem_filter.mp hc).1
  have htuple : ∀ row ∈ q.rows, Meets (Draft.MadeOf (d.mappedNames q.target))
      ((fun values => (Draft.bindAll values ", ").paren) <$> Insert.rowValues q.target row) :=
    fun row _ => (Insert.meets_rowValues q.target row).map fun values _ =>
      (Draft.madeOf_bindAll (by decide) values).paren
  unfold Insert.draft
  apply meets_guard (by simp)
  intro _
  apply (meets_mapM htuple).map
  intro tuples htuples
  have hinto : (Draft.sql "INSERT INTO ").MadeOf (d.mappedNames q.target) :=
    Draft.madeOf_plain (by decide)
  have hopen := (hinto.append (d.madeOf_tableDraft q.target)).append
    (Draft.madeOf_plain (by decide : Region.Plain " (".toList))
  have hlisted := (hopen.append (d.madeOf_columnList q.target hsupplied)).append
    (Draft.madeOf_plain (by decide : Region.Plain ") VALUES ".toList))
  exact hlisted.append (Draft.madeOf_sepBy (by decide) htuples)

theorem Assignment.meets_draft (a : Assignment) :
    Meets (Draft.MadeOf (d.mappedNames m)) (a.draft d m) := by
  unfold Assignment.draft
  apply (d.meets_propertySql m a.property).bind
  intro column hcolumn
  have hname : (Draft.sql column).MadeOf (d.mappedNames m) := Draft.madeOf_name hcolumn
  have hset := hname.append (Draft.madeOf_plain (by decide : Region.Plain " = ".toList))
  split
  · exact meets_pure (hset.append (Draft.madeOf_bind _))
  · exact meets_pure (((hset.append hname).append (Draft.madeOf_plain (by decide))).append
      (Draft.madeOf_bind _))

theorem Update.meets_draft (q : Update) :
    Meets (Draft.MadeOf (d.mappedNames q.target)) (q.draft d) := by
  unfold Update.draft
  apply meets_guard (by simp)
  intro _
  apply (meets_requireWhere q.target .update q.criteria q.allowMissingWhere).bind
  intro _ _
  apply (meets_mapM fun a _ => a.meets_draft d q.target).bind
  intro items hitems
  apply (d.meets_whereClause q.target q.criteria).bind
  intro filter hfilter
  apply (d.meets_mutationPaging q.target .update q.criteria).map
  intro paging hpaging
  have hupdate : (Draft.sql "UPDATE ").MadeOf (d.mappedNames q.target) :=
    Draft.madeOf_plain (by decide)
  have hset := (hupdate.append (d.madeOf_tableDraft q.target)).append
    (Draft.madeOf_plain (by decide : Region.Plain " SET ".toList))
  exact ((hset.append (Draft.madeOf_sepBy (by decide) hitems)).append hfilter).append hpaging

theorem Delete.meets_draft (q : Delete) :
    Meets (Draft.MadeOf (d.mappedNames q.target)) (q.draft d) := by
  unfold Delete.draft
  apply (meets_requireWhere q.target .delete q.criteria q.allowMissingWhere).bind
  intro _ _
  apply (d.meets_whereClause q.target q.criteria).bind
  intro filter hfilter
  apply (d.meets_mutationPaging q.target .delete q.criteria).map
  intro paging hpaging
  have hdelete : (Draft.sql "DELETE FROM ").MadeOf (d.mappedNames q.target) :=
    Draft.madeOf_plain (by decide)
  have hfrom := hdelete.append (d.madeOf_tableDraft q.target)
  exact (hfrom.append hfilter).append hpaging

theorem Query.meets_draft (q : Query) :
    Meets (Draft.MadeOf (d.mappedNames q.target)) (q.draft d) := by
  cases q with
  | select q => exact q.meets_draft d
  | insert q => exact q.meets_draft d
  | update q => exact q.meets_draft d
  | delete q => exact q.meets_draft d

end

end EntitySql
