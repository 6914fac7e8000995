import EntitySql.Proofs.Query.Agreement
import EntitySql.Proofs.Query.Values
import EntitySql.Proofs.Value.Quoted

/-!
Order and paging can be read off the end of a statement. Names end where a blank follows that is
not inside their quotes, sort items end at a comma or where the paging begins, and the clauses of
the paging are told apart by their words. So nothing that was declared about order and paging is
lost: statements that differ in it differ in their text or in their values.
-/

namespace EntitySql

/-! Names. -/

/-- A name that stands without quotes has neither blanks nor quotes in it. -/
def Column.IsWord (c : Column) : Prop :=
  c.quoted = false → ∀ letter ∈ c.column.toList, letter ≠ ' ' ∧ isQuote letter = false

instance (c : Column) : Decidable c.IsWord :=
  have := List.decidableBAll (fun letter => letter ≠ ' ' ∧ isQuote letter = false) c.column.toList
  inferInstanceAs (Decidable (_ → _))

namespace Dialect

variable {d : Dialect}

private theorem word_cut {left right after after' : List Char} (hleft : ' ' ∉ left)
    (hright : ' ' ∉ right) (h : left ++ ' ' :: after = right ++ ' ' :: after') :
    left = right ∧ after = after' := by
  induction left generalizing right with
  | nil =>
    cases right with
    | nil => exact ⟨rfl, (List.cons.inj h).2⟩
    | cons c rest =>
      have hc : ' ' = c := (List.cons.inj h).1
      exact absurd (hc ▸ List.mem_cons_self) hright
  | cons c rest ih =>
    cases right with
    | nil =>
      have hc : c = ' ' := (List.cons.inj h).1
      exact absurd (hc ▸ List.mem_cons_self) hleft
    | cons other more =>
      obtain ⟨rfl, hrest⟩ := List.cons.inj h
      obtain ⟨rfl, hafter⟩ := ih (List.not_mem_of_not_mem_cons hleft)
        (List.not_mem_of_not_mem_cons hright) hrest
      exact ⟨rfl, hafter⟩

private theorem word_ne_quoted {word name after after' : List Char}
    (hword : ∀ letter ∈ word, letter ≠ ' ' ∧ isQuote letter = false) :
    word ++ ' ' :: after ≠ Quoted.enclose d.identifierQuote name ++ after' := by
  intro h
  cases word with
  | nil =>
    have hquote : ' ' = d.identifierQuote := by simpa [Quoted.enclose] using (List.cons.inj h).1
    cases d <;> exact absurd hquote (by decide)
  | cons letter rest =>
    have hletter : letter = d.identifierQuote := (List.cons.inj h).1
    have hplain := (hword letter List.mem_cons_self).2
    rw [hletter, d.isQuote_identifierQuote] at hplain
    contradiction

theorem columnSql_cut {c other : Column} {after after' : List Char} (hc : c.IsWord)
    (hother : other.IsWord)
    (h : (d.columnSql c).toList ++ ' ' :: after = (d.columnSql other).toList ++ ' ' :: after') :
    c.column = other.column ∧ after = after' := by
  unfold columnSql enquote quoteIdentifier at h
  cases hquoted : c.quoted <;> cases hquoted' : other.quoted <;>
    simp only [hquoted, hquoted', if_true, Bool.false_eq_true, if_false, String.toList_ofList] at h
  · obtain ⟨hname, hafter⟩ := word_cut (fun hblank => (hc hquoted _ hblank).1 rfl)
      (fun hblank => (hother hquoted' _ hblank).1 rfl) h
    exact ⟨String.toList_inj.mp hname, hafter⟩
  · exact absurd h (word_ne_quoted (hc hquoted))
  · exact absurd h.symm (word_ne_quoted (hother hquoted'))
  · have hblank : ∀ rest : List Char, (' ' :: rest).head? ≠ some d.identifierQuote := by
      intro rest
      cases d <;> simp [identifierQuote]
    simp only [Quoted.enclose, List.cons_append, List.cons.injEq, true_and, List.append_assoc,
      List.nil_append] at h
    obtain ⟨hname, hafter⟩ := Quoted.double_cut (hblank _) (hblank _) h
    exact ⟨String.toList_inj.mp hname, (List.cons.inj hafter).2⟩

end Dialect

/-! Sort items. -/

/-- What a sort item says, with its column looked up. -/
structure SortItem.Agrees (m : Metamodel) (item other : SortItem) : Prop where
  column : ∃ c, m.column? item.property = some c ∧ m.column? other.property = some c
  direction : item.direction = other.direction
  nulls : item.nulls = other.nulls

def SortItem.suffix (item : SortItem) : List Char :=
  ' ' :: item.direction.sql.toList ++ item.nulls.elim [] fun nulls => ' ' :: nulls.sql.toList

/-- Text that a sort item cannot go on with: no place for nulls. -/
def EndsItem (after : List Char) : Prop := ∀ more, after ≠ ' ' :: 'N' :: more

private theorem SortDirection.sql_cut {direction other : SortDirection} {after after' : List Char}
    (h : direction.sql.toList ++ after = other.sql.toList ++ after') :
    direction = other ∧ after = after' := by
  cases direction <;> cases other <;> simp [SortDirection.sql] at h ⊢
  · exact h
  · exact h

private theorem NullOrdering.sql_cut {nulls other : Option NullOrdering} {after after' : List Char}
    (hafter : EndsItem after) (hafter' : EndsItem after')
    (h : (nulls.elim [] fun nulls => ' ' :: nulls.sql.toList) ++ after =
      (other.elim [] fun nulls => ' ' :: nulls.sql.toList) ++ after') :
    nulls = other ∧ after = after' := by
  have hnulls : ∀ nulls : NullOrdering, ∃ more, nulls.sql.toList = 'N' :: more := by
    intro nulls
    cases nulls <;> exact ⟨_, rfl⟩
  cases nulls with
  | none =>
    cases other with
    | none => exact ⟨rfl, h⟩
    | some other =>
      obtain ⟨more, hmore⟩ := hnulls other
      exact absurd h (by simpa [hmore] using hafter _)
  | some nulls =>
    cases other with
    | none =>
      obtain ⟨more, hmore⟩ := hnulls nulls
      exact absurd h.symm (by simpa [hmore] using hafter' _)
    | some other =>
      cases nulls <;> cases other <;> simp [NullOrdering.sql] at h ⊢
      · exact h
      · exact h

private theorem SortItem.suffix_cut {item other : SortItem} {after after' : List Char}
    (hafter : EndsItem after) (hafter' : EndsItem after')
    (h : item.suffix ++ after = other.suffix ++ after') :
    item.direction = other.direction ∧ item.nulls = other.nulls ∧ after = after' := by
  simp only [suffix, List.cons_append, List.append_assoc, List.cons.injEq, true_and] at h
  obtain ⟨hdirection, h⟩ := SortDirection.sql_cut h
  obtain ⟨hnulls, h⟩ := NullOrdering.sql_cut hafter hafter' h
  exact ⟨hdirection, hnulls, h⟩

namespace Dialect

variable {d : Dialect} {m : Metamodel}

/-- The draft of a sort item names a column, and says everything else the item says. -/
def Sorts (d : Dialect) (m : Metamodel) (item : SortItem) (draft : Draft) : Prop :=
  ∃ c, m.column? item.property = some c ∧
    draft.chars = (d.columnSql c).toList ++ item.suffix

theorem sorts_of_sortDraft {item : SortItem} {draft : Draft}
    (h : d.sortDraft m item = .ok draft) : d.Sorts m item draft := by
  unfold sortDraft propertySql at h
  obtain ⟨_, hcolumn, h⟩ := Except.bind_eq_ok_iff.mp h
  obtain ⟨c, hc, rfl⟩ := Except.map_eq_ok_iff.mp hcolumn
  refine ⟨c, Metamodel.resolve_eq_ok_iff.mp hc, ?_⟩
  unfold SortItem.suffix
  cases hnulls : item.nulls with
  | none =>
    simp only [hnulls] at h
    cases Except.pure_eq_ok_iff.mp h
    simp
  | some nulls =>
    simp only [hnulls] at h
    split at h
    · cases Except.pure_eq_ok_iff.mp h
      simp
    · cases h

/-- A name stands for one column: names that are spelled alike, letter case aside, are refused. -/
theorem eq_of_column_eq (hcompatible : m.columns.Pairwise Column.Compatible) {c other : Column}
    (hc : c ∈ m.columns) (hother : other ∈ m.columns) (h : c.column = other.column) :
    c = other := by
  have hkeys : (m.columns.map Column.key).Nodup :=
    List.pairwise_map.mpr (hcompatible.imp fun hcompatible => hcompatible.key)
  exact List.inj_on_of_nodup_map hkeys hc hother (congrArg lowerCase h)

theorem Sorts.cut (hcompatible : m.columns.Pairwise Column.Compatible)
    (hwords : ∀ c ∈ m.columns, c.IsWord) {item other : SortItem} {draft draft' : Draft}
    (hitem : d.Sorts m item draft) (hother : d.Sorts m other draft') {after after' : List Char}
    (hafter : EndsItem after) (hafter' : EndsItem after')
    (h : draft.chars ++ after = draft'.chars ++ after') :
    item.Agrees m other ∧ after = after' := by
  obtain ⟨c, hc, hchars⟩ := hitem
  obtain ⟨c', hc', hchars'⟩ := hother
  have hmem := m.mem_columns_of_column? hc
  have hmem' := m.mem_columns_of_column? hc'
  rw [hchars, hchars', List.append_assoc, List.append_assoc] at h
  obtain ⟨hcolumn, hrest⟩ := columnSql_cut (hwords c hmem) (hwords c' hmem') h
  obtain rfl := eq_of_column_eq hcompatible hmem hmem' hcolumn
  obtain ⟨hdirection, hnulls, hafter⟩ :=
    SortItem.suffix_cut hafter hafter' (congrArg (' ' :: ·) hrest)
  exact ⟨⟨⟨c, hc, hc'⟩, hdirection, hnulls⟩, hafter⟩

end Dialect

/-! Lists of sort items, up to the paging. -/

private theorem Draft.chars_sepBy_cons (separator : String) (first : Draft) (rest : List Draft) :
    (sepBy separator (first :: rest)).chars =
      first.chars ++ rest.flatMap fun draft => separator.toList ++ draft.chars := by
  induction rest generalizing first with
  | nil => simp [sepBy]
  | cons next rest ih => simp [sepBy, ih]

private theorem Draft.cons_chars_sepBy (separator : String) {drafts : List Draft}
    (h : drafts ≠ []) :
    separator.toList ++ (sepBy separator drafts).chars =
      drafts.flatMap fun draft => separator.toList ++ draft.chars := by
  cases drafts with
  | nil => contradiction
  | cons first rest => rw [chars_sepBy_cons, List.flatMap_cons, List.append_assoc]

/-- Text that belongs to no order: it goes on with no sort item, and starts no clause. -/
structure EndsOrder (after : List Char) : Prop where
  item : EndsItem after
  comma : ∀ more, after ≠ ',' :: more
  clause : ∀ more, after ≠ " ORDER BY ".toList ++ more

namespace Dialect

variable {d : Dialect} {m : Metamodel}

theorem endsItem_items {drafts : List Draft} {after : List Char} (hafter : EndsOrder after) :
    EndsItem ((drafts.flatMap fun draft => ", ".toList ++ draft.chars) ++ after) := by
  cases drafts with
  | nil => exact hafter.item
  | cons draft rest =>
    intro more h
    simp at h

theorem items_cut (hcompatible : m.columns.Pairwise Column.Compatible)
    (hwords : ∀ c ∈ m.columns, c.IsWord) {items others : List SortItem}
    {drafts drafts' : List Draft} (hitems : List.Forall₂ (d.Sorts m) items drafts)
    (hothers : List.Forall₂ (d.Sorts m) others drafts') {after after' : List Char}
    (hafter : EndsOrder after) (hafter' : EndsOrder after')
    (h : (drafts.flatMap fun draft => ", ".toList ++ draft.chars) ++ after =
      (drafts'.flatMap fun draft => ", ".toList ++ draft.chars) ++ after') :
    List.Forall₂ (SortItem.Agrees m) items others ∧ after = after' := by
  induction hitems generalizing others drafts' with
  | nil =>
    cases hothers with
    | nil => exact ⟨.nil, h⟩
    | cons => exact absurd h (hafter.comma _)
  | cons hitem _ ih =>
    cases hothers with
    | nil => exact absurd h.symm (hafter'.comma _)
    | cons hother hrest =>
      simp only [List.flatMap_cons, List.append_assoc] at h
      obtain ⟨hagrees, h⟩ := hitem.cut hcompatible hwords hother (endsItem_items hafter)
        (endsItem_items hafter') (List.append_cancel_left h)
      obtain ⟨hrest, hend⟩ := ih hrest h
      exact ⟨.cons hagrees hrest, hend⟩

theorem orderClause_eq_ok {criteria : Criteria} {order : Draft}
    (h : d.orderClause m criteria = .ok order) :
    ∃ drafts, List.Forall₂ (d.Sorts m) criteria.order drafts ∧
      order = if drafts = [] then ∅ else .sql " ORDER BY " ++ .sepBy ", " drafts := by
  unfold orderClause at h
  split at h
  next hnone =>
    cases Except.pure_eq_ok_iff.mp h
    exact ⟨[], by rw [List.isEmpty_iff.mp hnone]; exact .nil, (if_pos rfl).symm⟩
  next hsome =>
    obtain ⟨drafts, hdrafts, rfl⟩ := Except.map_eq_ok_iff.mp h
    have hsorts := (Except.forall₂_of_mapM_eq_ok hdrafts).imp fun _ _ => sorts_of_sortDraft
    refine ⟨drafts, hsorts, (if_neg ?_).symm⟩
    rintro rfl
    rw [List.forall₂_nil_right_iff.mp hsorts] at hsome
    contradiction

theorem order_cut (hcompatible : m.columns.Pairwise Column.Compatible)
    (hwords : ∀ c ∈ m.columns, c.IsWord) {criteria other : Criteria} {order order' : Draft}
    (horder : d.orderClause m criteria = .ok order) (horder' : d.orderClause m other = .ok order')
    {after after' : List Char} (hafter : EndsOrder after) (hafter' : EndsOrder after')
    (h : order.chars ++ after = order'.chars ++ after') :
    List.Forall₂ (SortItem.Agrees m) criteria.order other.order ∧ after = after' := by
  obtain ⟨drafts, hsorts, rfl⟩ := orderClause_eq_ok horder
  obtain ⟨drafts', hsorts', rfl⟩ := orderClause_eq_ok horder'
  refine items_cut hcompatible hwords hsorts hsorts' hafter hafter' ?_
  split at h
  next hnone =>
    split at h
    next hnone' => simpa [hnone, hnone'] using h
    next => exact absurd h (by simpa using hafter.clause _)
  next hsome =>
    split at h
    next => exact absurd h.symm (by simpa using hafter'.clause _)
    next hsome' =>
      rw [← Draft.cons_chars_sepBy ", " hsome, ← Draft.cons_chars_sepBy ", " hsome']
      simpa using h

/-! Paging. -/

theorem endsOrder_paging (offset limit : Option Nat) : EndsOrder (d.paging offset limit).chars := by
  constructor <;> intro more h <;> cases d <;> cases offset <;> cases limit <;>
    simp [paging, countClause] at h

private theorem isSome_of_chars_paging {offset limit offset' limit' : Option Nat}
    (h : (d.paging offset limit).chars = (d.paging offset' limit').chars) :
    limit.isSome = limit'.isSome ∧ offset.isSome = offset'.isSome := by
  cases d <;> cases offset <;> cases limit <;> cases offset' <;> cases limit' <;>
    simp [paging, countClause] at h ⊢

end Dialect

def IsCount (k : Nat) : Prop := ∃ n : Int64, 0 ≤ n ∧ n.toNatClampNeg = k

theorem IsCount.eq_of_count {k l : Nat} (hk : IsCount k) (hl : IsCount l)
    (h : Value.count k = Value.count l) : k = l := by
  obtain ⟨n, hn, rfl⟩ := hk
  obtain ⟨o, ho, rfl⟩ := hl
  rw [Value.count_toNatClampNeg hn, Value.count_toNatClampNeg ho] at h
  cases h
  rfl

theorem isCount_of_checkCount {refuse : Int64 → CriteriaError} {number : Option Int64}
    {count : Option Nat} (h : checkCount refuse number = .ok count) : ∀ k ∈ count, IsCount k := by
  cases number with
  | none =>
    cases h
    simp
  | some n =>
    rw [checkCount] at h
    split at h
    next => cases h
    next hnot =>
      cases h
      rintro k ⟨⟩
      exact ⟨n, Int64.not_lt.mp hnot, rfl⟩

theorem Criteria.isCount_of_build {declared : List Declaration} {criteria : Criteria}
    (h : Criteria.build declared = .ok criteria) :
    (∀ k ∈ criteria.limit, IsCount k) ∧ ∀ k ∈ criteria.offset, IsCount k := by
  unfold Criteria.build Scope.materialize at h
  obtain ⟨limit, hlimit, h⟩ := Except.bind_eq_ok_iff.mp h
  obtain ⟨offset, hoffset, h⟩ := Except.bind_eq_ok_iff.mp h
  obtain ⟨-, -, h⟩ := Except.bind_eq_ok_iff.mp h
  obtain ⟨-, -, h⟩ := Except.bind_eq_ok_iff.mp h
  rw [← Except.pure_eq_ok_iff.mp h]
  exact ⟨isCount_of_checkCount hlimit, isCount_of_checkCount hoffset⟩

theorem IsCount.eq_of_counts {number number' : Option Nat} (hnumber : ∀ k ∈ number, IsCount k)
    (hnumber' : ∀ k ∈ number', IsCount k)
    (h : number.toList.map Value.count = number'.toList.map Value.count) : number = number' := by
  cases number <;> cases number' <;> simp at h ⊢
  exact (hnumber _ rfl).eq_of_count (hnumber' _ rfl) h

/-- Counts in the values belong to the clauses in the text, the limit first. -/
theorem paging_inj {d : Dialect} {declared declared' : List Declaration}
    {criteria other : Criteria} (hcriteria : Criteria.build declared = .ok criteria)
    (hother : Criteria.build declared' = .ok other)
    (hchars : (d.paging criteria.offset criteria.limit).chars =
      (d.paging other.offset other.limit).chars)
    (hvalues : (d.paging criteria.offset criteria.limit).values =
      (d.paging other.offset other.limit).values) :
    criteria.limit = other.limit ∧ criteria.offset = other.offset := by
  obtain ⟨hlimit, hoffset⟩ := Criteria.isCount_of_build hcriteria
  obtain ⟨hlimit', hoffset'⟩ := Criteria.isCount_of_build hother
  obtain ⟨hlimits, -⟩ := Dialect.isSome_of_chars_paging hchars
  rw [Dialect.values_paging, Dialect.values_paging] at hvalues
  have hlength : (criteria.limit.toList.map Value.count).length =
      (other.limit.toList.map Value.count).length := by
    simp [Option.length_toList, hlimits]
  obtain ⟨hl, ho⟩ := List.append_inj hvalues hlength
  exact ⟨IsCount.eq_of_counts hlimit hlimit' hl, IsCount.eq_of_counts hoffset hoffset' ho⟩

/-! Statements. -/

def Criteria.whereOnly (criteria : Criteria) : Criteria := { restrictions := criteria.restrictions }

namespace Query

def whereOnly : Query → Query
  | select q => select { q with criteria := q.criteria.whereOnly }
  | insert q => insert q
  | update q => update { q with criteria := q.criteria.whereOnly }
  | delete q => delete { q with criteria := q.criteria.whereOnly }

/-- A single count has neither order nor paging. -/
def IsCount : Query → Prop
  | select q => q.projection = .count
  | _ => False

end Query

section
variable {d : Dialect} {draft : Draft}

/-- What a mutation does not refuse it renders as a SELECT does. -/
theorem Dialect.mutationPaging_eq_ok {operation : QueryKind} {m : Metamodel} {criteria : Criteria}
    {paging : Draft} (h : d.mutationPaging operation m criteria = .ok paging) :
    ∃ order, d.orderClause m criteria = .ok order ∧
      paging = order ++ d.paging criteria.offset criteria.limit := by
  unfold mutationPaging at h
  obtain ⟨hoffset, h⟩ := Except.guard_eq_ok_iff.mp h
  have hoffset : criteria.offset = none := by simpa using hoffset
  rw [hoffset]
  split at h
  next hnone =>
    obtain ⟨hlimit, hempty⟩ : criteria.limit = none ∧ criteria.order = [] := by simpa using hnone
    cases Except.pure_eq_ok_iff.mp h
    refine ⟨∅, ?_, ?_⟩
    · rw [orderClause, hempty]
      rfl
    · rw [hlimit, paging_none]
      rfl
  next =>
    obtain ⟨-, h⟩ := Except.guard_eq_ok_iff.mp h
    obtain ⟨order, horder, rfl⟩ := Except.map_eq_ok_iff.mp h
    refine ⟨order, horder, ?_⟩
    cases d <;> simp [paging, countClause, Draft.append_empty]

theorem Dialect.mutationPaging_whereOnly (operation : QueryKind) (m : Metamodel)
    (criteria : Criteria) : d.mutationPaging operation m criteria.whereOnly = .ok ∅ := rfl

def Select.head (d : Dialect) (q : Select) : Draft :=
  .sql (if q.distinct then "SELECT DISTINCT " else "SELECT ") ++ d.columnList q.target.columns ++
    .sql " FROM " ++ d.tableDraft q.target.table

theorem Select.draft_split {q : Select} (hentity : q.projection ≠ .count)
    (h : q.draft d = .ok draft) :
    ∃ head order, Select.draft d { q with criteria := q.criteria.whereOnly } = .ok head ∧
      d.orderClause q.target q.criteria = .ok order ∧
      draft = head ++ (order ++ d.paging q.criteria.offset q.criteria.limit) := by
  unfold Select.draft at h ⊢
  obtain ⟨filter, hfilter, h⟩ := Except.bind_eq_ok_iff.mp h
  have hwhere : d.whereClause q.target q.criteria.whereOnly = .ok filter := hfilter
  cases hprojection : q.projection with
  | count => contradiction
  | entity =>
    rw [hprojection] at h
    obtain ⟨order, horder, rfl⟩ := Except.map_eq_ok_iff.mp h
    refine ⟨Select.head d q ++ filter, order, ?_, horder, ?_⟩
    · have hpaging : d.paging q.criteria.whereOnly.offset q.criteria.whereOnly.limit = ∅ :=
        d.paging_none
      rw [hwhere, hpaging]
      refine congrArg Except.ok ?_
      rw [Draft.append_empty, Draft.append_empty]
      rfl
    · rw [← Draft.append_assoc]
      rfl

theorem Update.draft_split {q : Update} (h : q.draft d = .ok draft) :
    ∃ head order, Update.draft d { q with criteria := q.criteria.whereOnly } = .ok head ∧
      d.orderClause q.target q.criteria = .ok order ∧
      draft = head ++ (order ++ d.paging q.criteria.offset q.criteria.limit) := by
  unfold Update.draft at h ⊢
  obtain ⟨hassigned, h⟩ := Except.guard_eq_ok_iff.mp h
  obtain ⟨_, hrequired, h⟩ := Except.bind_eq_ok_iff.mp h
  obtain ⟨items, hitems, h⟩ := Except.bind_eq_ok_iff.mp h
  obtain ⟨filter, hfilter, h⟩ := Except.bind_eq_ok_iff.mp h
  obtain ⟨paging, hpaging, rfl⟩ := Except.map_eq_ok_iff.mp h
  obtain ⟨order, horder, rfl⟩ := Dialect.mutationPaging_eq_ok hpaging
  have hwhere : d.whereClause q.target q.criteria.whereOnly = .ok filter := hfilter
  have hallowed : requireWhere .update q.target q.criteria.whereOnly q.allowMissingWhere =
      .ok () := hrequired
  refine ⟨_, order, ?_, horder, rfl⟩
  rw [if_neg hassigned, hallowed, hitems, hwhere, Dialect.mutationPaging_whereOnly]
  exact congrArg Except.ok (Draft.append_empty _)

theorem Delete.draft_split {q : Delete} (h : q.draft d = .ok draft) :
    ∃ head order, Delete.draft d { q with criteria := q.criteria.whereOnly } = .ok head ∧
      d.orderClause q.target q.criteria = .ok order ∧
      draft = head ++ (order ++ d.paging q.criteria.offset q.criteria.limit) := by
  unfold Delete.draft at h ⊢
  obtain ⟨_, hrequired, h⟩ := Except.bind_eq_ok_iff.mp h
  obtain ⟨filter, hfilter, h⟩ := Except.bind_eq_ok_iff.mp h
  obtain ⟨paging, hpaging, rfl⟩ := Except.map_eq_ok_iff.mp h
  obtain ⟨order, horder, rfl⟩ := Dialect.mutationPaging_eq_ok hpaging
  have hwhere : d.whereClause q.target q.criteria.whereOnly = .ok filter := hfilter
  have hallowed : requireWhere .delete q.target q.criteria.whereOnly q.allowMissingWhere =
      .ok () := hrequired
  refine ⟨_, order, ?_, horder, rfl⟩
  rw [hallowed, hwhere, Dialect.mutationPaging_whereOnly]
  exact congrArg Except.ok (Draft.append_empty _)

/-- Order and paging stand at the end, after all that the rest of the query makes. -/
theorem Query.draft_split {q : Query} {criteria : Criteria}
    (hcriteria : q.criteria? = some criteria) (hcount : ¬q.IsCount) (h : q.draft d = .ok draft) :
    ∃ head order, q.whereOnly.draft d = .ok head ∧
      d.orderClause q.target criteria = .ok order ∧
      draft = head ++ (order ++ d.paging criteria.offset criteria.limit) := by
  cases q with
  | insert q => contradiction
  | select q =>
    cases hcriteria
    exact Select.draft_split hcount h
  | update q =>
    cases hcriteria
    exact Update.draft_split h
  | delete q =>
    cases hcriteria
    exact Delete.draft_split h

theorem Dialect.values_of_orderClause {m : Metamodel} {criteria : Criteria} {order : Draft}
    (h : d.orderClause m criteria = .ok order) : order.values = [] := by
  have hyields := d.yields_orderClause m criteria
  rw [h] at hyields
  exact hyields.2

end

namespace Query

variable {q other : Query}

private theorem target_whereOnly (q : Query) : q.whereOnly.target = q.target := by
  cases q <;> rfl

private theorem isCount_whereOnly_iff : q.whereOnly.IsCount ↔ q.IsCount := by
  cases q <;> exact Iff.rfl

end Query

/-- Order and paging are never dropped. Of queries that agree on everything else, those that compile
to the same text with the same values have the same limit and offset, and sort by the same columns
in the same way. -/
theorem tail_of_statement {d : Dialect} {log log' : Bool} {q other : Query}
    {descriptor : Descriptor} (haccepted : Metamodel.ofDescriptor descriptor = .ok q.target)
    (hwords : ∀ c ∈ q.target.columns, c.IsWord) (hcount : ¬q.IsCount)
    (hsame : q.whereOnly = other.whereOnly) {criteria criteria' : Criteria}
    (hcriteria : q.criteria? = some criteria) (hcriteria' : other.criteria? = some criteria')
    {declared declared' : List Declaration} (hdeclared : Criteria.build declared = .ok criteria)
    (hdeclared' : Criteria.build declared' = .ok criteria') {st st' : Statement}
    (hst : q.compile d log = .ok st) (hst' : other.compile d log' = .ok st')
    (htext : st.text = st'.text) (hvalues : st.values = st'.values) :
    criteria.limit = criteria'.limit ∧ criteria.offset = criteria'.offset ∧
      List.Forall₂ (SortItem.Agrees q.target) criteria.order criteria'.order := by
  have htarget : other.target = q.target := by
    rw [← q.target_whereOnly, hsame, other.target_whereOnly]
  have hcount' : ¬other.IsCount := by
    rwa [← Query.isCount_whereOnly_iff, ← hsame, Query.isCount_whereOnly_iff]
  obtain ⟨draft, hdraft, -, rfl⟩ := Query.compile_eq_ok_iff.mp hst
  obtain ⟨draft', hdraft', -, rfl⟩ := Query.compile_eq_ok_iff.mp hst'
  obtain ⟨head, order, hhead, horder, rfl⟩ := Query.draft_split hcriteria hcount hdraft
  obtain ⟨head', order', hhead', horder', rfl⟩ := Query.draft_split hcriteria' hcount' hdraft'
  rw [hsame, hhead'] at hhead
  obtain rfl := Except.ok.inj hhead
  rw [htarget] at horder'
  have hchars := congrArg String.toList htext
  simp only [Draft.finish, Statement.text_unchecked, Draft.toList_text, Draft.chars_append,
    List.append_cancel_left_eq] at hchars
  simp only [Draft.finish, Statement.values_unchecked, Draft.values_append,
    List.append_cancel_left_eq, Dialect.values_of_orderClause horder,
    Dialect.values_of_orderClause horder', List.nil_append] at hvalues
  obtain ⟨hagree, hpaging⟩ := Dialect.order_cut
    (Metamodel.compatible_of_ofDescriptor haccepted) hwords horder horder'
    (Dialect.endsOrder_paging _ _) (Dialect.endsOrder_paging _ _) hchars
  obtain ⟨hlimit, hoffset⟩ := paging_inj hdeclared hdeclared' hpaging hvalues
  exact ⟨hlimit, hoffset, hagree⟩

/-- One of the names looks like a list of sort items. -/
def ledger : Descriptor where
  name := "Ledger"
  members := [
    .property "id" [.id],
    .embedded "entry" {
      name := "Entry"
      members := [.property "day" [.column (some "day ASC, id") true]] }]

def ledgers : Metamodel where
  entity := "Ledger"
  table := { name := "Ledger" }
  columns := [
    ⟨"id", "id", "id", false, none⟩, ⟨"entry.day", "day", "day ASC, id", true, none⟩]
  slots := { ids := [0] }
  identifierLess := false
  embedded := [("entry", {
    entity := "Entry"
    table := { name := "Entry" }
    columns := [⟨"day", "day", "day ASC, id", true, none⟩]
    slots := {}
    identifierLess := true
    embedded := [] })]

def ledgerByPath : List Declaration := [
  .sort [⟨"entry.day", .desc, some .last⟩], .limit 3, .sort [⟨"id", .asc, none⟩], .offset 5]

def ledgerByName : List Declaration := [
  .limit 8, .offset 5, .sort [⟨"day", .desc, some .last⟩, ⟨"id", .asc, none⟩], .limit 3]

theorem ledger_tail :
    Metamodel.ofDescriptor ledger = .ok ledgers ∧ (∀ c ∈ ledgers.columns, c.IsWord) ∧
    ∃ criteria criteria' st,
      Criteria.build ledgerByPath = .ok criteria ∧ Criteria.build ledgerByName = .ok criteria' ∧
      (selection ledgers criteria).compile .postgres false = .ok st ∧
      (selection ledgers criteria').compile .postgres false = .ok st ∧
      st.text = "SELECT id, \"day ASC, id\" FROM Ledger " ++
        "ORDER BY \"day ASC, id\" DESC NULLS LAST, id ASC LIMIT ? OFFSET ?" ∧
      criteria.limit = criteria'.limit ∧ criteria.offset = criteria'.offset ∧
      List.Forall₂ (SortItem.Agrees ledgers) criteria.order criteria'.order := by
  have haccepted : Metamodel.ofDescriptor ledger = .ok ledgers := rfl
  have hwords : ∀ c ∈ ledgers.columns, c.IsWord := by decide
  obtain ⟨criteria, criteria', draft, hpath, hname, hdraft, hdraft', hsame, htext⟩ :
      ∃ criteria criteria', ∃ draft : Draft,
        Criteria.build ledgerByPath = .ok criteria ∧ Criteria.build ledgerByName = .ok criteria' ∧
        (selection ledgers criteria).draft .postgres = .ok draft ∧
        (selection ledgers criteria').draft .postgres = .ok draft ∧
        (selection ledgers criteria).whereOnly = (selection ledgers criteria').whereOnly ∧
        draft.text = "SELECT id, \"day ASC, id\" FROM Ledger " ++
          "ORDER BY \"day ASC, id\" DESC NULLS LAST, id ASC LIMIT ? OFFSET ?" :=
    ⟨_, _, _, rfl, rfl, rfl, rfl, rfl, rfl⟩
  have hbare : ∀ name ∈ ledgers.bareNames, Region.Plain name.toList := by decide
  obtain ⟨hstray, hhidden⟩ := draft.aligned_iff.mp
    (Draft.aligned_of_neutral ((Query.madeOf_of_draft_eq_ok hdraft).neutral hbare))
  have heq : draft.stray = draft.hidden := hstray.trans hhidden.symm
  have hst : (selection ledgers criteria).compile .postgres false = .ok (draft.finish false) :=
    Query.compile_of_draft hdraft heq
  have hst' : (selection ledgers criteria').compile .postgres false = .ok (draft.finish false) :=
    Query.compile_of_draft hdraft' heq
  have hcount : ¬(selection ledgers criteria).IsCount := by
    rintro ⟨⟩
  have htail := tail_of_statement (q := selection ledgers criteria) haccepted hwords hcount hsame
    rfl rfl hpath hname hst hst' rfl rfl
  exact ⟨haccepted, hwords, criteria, criteria', _, hpath, hname, hst, hst', htext, htail⟩

end EntitySql
