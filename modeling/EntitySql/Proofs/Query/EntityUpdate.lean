import EntitySql.Proofs.Query.Restriction
import Mathlib.Data.Option.Basic

/-!
The UPDATE of an entity, with all that can go wrong on the way. It needs an identifier and a value
for every column that it mentions; from then on only the placeholders of the statement can fail.
What it sets and what it tests depends on the roles of the columns. They overlap only in the
version, which is set and tested whatever else it is.
-/

namespace EntitySql

theorem Yields.eq_error_iff {α : Type} {faults : List CompileError} {good : α → Prop}
    {x : Except CompileError α} (h : Yields faults good x) (e : CompileError) :
    x = .error e ↔ faults.head? = some e := by
  cases x with
  | error first =>
    have hfirst : faults.head? = some first := h
    rw [hfirst, Except.error.injEq, Option.some.injEq]
  | ok a => simp [h.1]

/-- Statements fail on their own, after the draft is complete. -/
theorem Query.compile_eq_error_iff (d : Dialect) (log : Bool) (q : Query) (e : CompileError) :
    (q.compile d log = .error e ∧ ∀ fault, e ≠ .statement fault) ↔ q.draft d = .error e := by
  have hmeets := q.meets_draft d
  unfold Query.compile
  cases hdraft : q.draft d with
  | error first =>
    rw [hdraft] at hmeets
    constructor
    · rintro ⟨h, -⟩
      cases h
      rfl
    · intro h
      cases h
      exact ⟨rfl, hmeets⟩
  | ok draft =>
    refine iff_of_false ?_ (by simp)
    rintro ⟨h, hother⟩
    change (draft.build log).mapError CompileError.statement = .error e at h
    cases hbuild : draft.build log with
    | error fault =>
      rw [hbuild] at h
      exact absurd (Except.error.inj h).symm (hother fault)
    | ok st =>
      rw [hbuild] at h
      cases h

/-! Names of properties are not empty, and neither are the paths that are made of them. -/

theorem Descriptor.path_ne_empty {members : List (Member Descriptor)}
    (hnamed : ∀ member ∈ members, member.name ≠ "") :
    ∀ leaf ∈ leavesOf members, leaf.path ≠ "" := by
  induction members with
  | nil => simp [leavesOf]
  | cons member rest ih =>
    obtain ⟨hname, hrest⟩ := List.forall_mem_cons.mp hnamed
    cases member with
    | property name markers =>
      rw [leavesOf, List.forall_mem_cons]
      exact ⟨hname, ih hrest⟩
    | embedded name descriptor =>
      rw [leavesOf, List.forall_mem_append, List.forall_mem_map]
      refine ⟨fun leaf _ hempty => ?_, ih hrest⟩
      have hchars := congrArg String.toList hempty
      simp [Leaf.under] at hchars

namespace Metamodel

variable {descriptor : Descriptor} {m : Metamodel} {c : Column}

theorem path_ne_empty_of_ofDescriptor (h : Metamodel.ofDescriptor descriptor = .ok m)
    (hc : c ∈ m.columns) : c.path ≠ "" := by
  obtain ⟨hflattens, -, hcolumns, -⟩ := descriptor.flattens_of_build h
  rw [hcolumns] at hc
  obtain ⟨leaf, hleaf, rfl⟩ := List.mem_map.mp hc
  obtain ⟨name, table, identifierLess, members⟩ := descriptor
  have hsound := hflattens.sound ⟨name, table, identifierLess, members⟩ (by
    rw [Descriptor.subtree]
    exact List.mem_cons_self)
  exact Descriptor.path_ne_empty hsound.named leaf hleaf

/-! Roles. -/

/-- What the UPDATE of an entity sets to the values of the entity. -/
def assignable (m : Metamodel) : List Column :=
  m.columns.filter fun c => c ∉ m.ids ∧ m.version ≠ some c ∧ m.createdAt ≠ some c

/-- Generated values need no rule of their own, since only identifiers are generated. -/
theorem filter_isUpdated (haccepted : Metamodel.ofDescriptor descriptor = .ok m) :
    m.columns.filter m.isUpdated = m.assignable := by
  have hcompatible := compatible_of_ofDescriptor haccepted
  refine List.filter_congr fun c hc => ?_
  have hidentity : c.isIdentity = true → c ∈ m.ids := by
    intro hidentity
    refine (shows_of_ofDescriptor haccepted).generated c hc ?_
    rw [Column.isGenerated, eq_of_beq hidentity, Option.isSome_some]
  have hother : m.version.toList ++ m.createdAt.toList ⊆ m.columns :=
    List.append_subset.mpr ⟨fun _ h => mem_columns_of_slot (Option.mem_toList.mp h),
      fun _ h => mem_columns_of_slot (Option.mem_toList.mp h)⟩
  have hid := isId_iff_mem_ids hcompatible hc
  have hspared := any_path_iff_mem hcompatible hc hother
  rw [List.mem_append, Option.mem_toList, Option.mem_toList] at hspared
  rw [Bool.eq_iff_iff, isUpdated, Bool.and_eq_true, Bool.and_eq_true, Bool.not_eq_true',
    Bool.not_eq_true', Bool.not_eq_true', ← Bool.not_eq_true, ← Bool.not_eq_true,
    ← Bool.not_eq_true, hid, hspared, decide_eq_true_iff]
  tauto

theorem set_subset (m : Metamodel) : m.assignable ++ m.version.toList ⊆ m.columns := by
  have hversion : m.version.toList ⊆ m.columns :=
    List.Subset.trans (List.subset_append_right _ _) m.keys_subset
  exact List.append_subset.mpr ⟨List.filter_subset_self _, hversion⟩

theorem assigned_nodup (h : m.columns.Pairwise Column.Compatible) :
    (m.assignable ++ m.version.toList).Nodup := by
  have hversion : m.version.toList.Nodup := by
    cases m.version <;> simp
  refine List.nodup_append'.mpr ⟨(nodup_columns h).filter _, hversion, fun c hset hc => ?_⟩
  have hspared := of_decide_eq_true (List.mem_filter.mp hset).2
  exact hspared.2.1 (Option.mem_toList.mp hc)

/-! References by path. -/

private theorem map_column?_paths (h : m.columns.Pairwise Column.Compatible) {columns : List Column}
    (hcolumns : columns ⊆ m.columns) :
    (columns.map (·.path)).map m.column? = columns.map some := by
  rw [List.map_map]
  exact List.map_congr_left fun c hc => column?_of_mem h (hcolumns hc)

theorem unresolved_paths (h : m.columns.Pairwise Column.Compatible) {columns : List Column}
    (hcolumns : columns ⊆ m.columns) : m.unresolved (columns.map (·.path)) = [] := by
  rw [unresolved, List.map_eq_nil_iff, List.filter_eq_nil_iff, List.forall_mem_map]
  intro c hc
  simp [column?_of_mem h (hcolumns hc)]

/-! Columns without a value. -/

def absences (m : Metamodel) (read : String → Option Value) (columns : List Column) :
    List CompileError :=
  (columns.filter fun c => (read c.path).isNone).map (.missingValue m.entity ·.path)

variable (m : Metamodel) (read : String → Option Value)

private theorem find?_append_of_subset {α : Type} {p : α → Bool} {l again : List α}
    (h : again ⊆ l) :
    (l ++ again).find? p = l.find? p := by
  rw [List.find?_append]
  cases hfound : l.find? p with
  | some a => rfl
  | none =>
    rw [Option.none_or, List.find?_eq_none]
    exact fun a ha => List.find?_eq_none.mp hfound a (h ha)

private theorem absences_append (left right : List Column) :
    m.absences read (left ++ right) = m.absences read left ++ m.absences read right := by
  simp [absences]

theorem absences_eq_nil_iff (columns : List Column) :
    m.absences read columns = [] ↔ ∀ c ∈ columns, read c.path = some (current read c) := by
  rw [absences, List.map_eq_nil_iff, List.filter_eq_nil_iff]
  refine forall₂_congr fun c _ => ?_
  unfold current
  cases read c.path <;> simp

private theorem absences_eq_flatMap (columns : List Column) :
    m.absences read columns = columns.flatMap fun c => m.absences read [c] := by
  induction columns with
  | nil => rfl
  | cons c rest ih =>
    rw [List.flatMap_cons, ← ih, ← absences_append]
    rfl

private theorem head?_absences (columns : List Column) :
    (m.absences read columns).head? =
      (columns.find? fun c => (read c.path).isNone).map (.missingValue m.entity ·.path) := by
  rw [absences, List.head?_map, List.head?_filter]

theorem yields_valueOf (c : Column) :
    Yields (m.absences read [c]) (fun value => value = current read c) (m.valueOf read c) := by
  unfold valueOf absences
  cases hread : read c.path with
  | none => simp [Yields, hread]
  | some value => simp [Yields, hread, current]

theorem yields_mapM_valueOf {α : Type} (f : Column → Value → α) (columns : List Column) :
    Yields (m.absences read columns)
      (fun found => found = columns.map fun c => f c (current read c))
      (columns.mapM fun c => do return f c (← m.valueOf read c)) := by
  have heq : ∀ found, List.Forall₂ (fun c a => a = f c (current read c)) columns found →
      found = columns.map fun c => f c (current read c) := by
    intro found hfound
    induction hfound with
    | nil => rfl
    | cons hfirst _ ih => rw [List.map_cons, ← ih, hfirst]
  have hread : ∀ c ∈ columns, Yields (m.absences read [c])
      (fun a => a = f c (current read c)) (f c <$> m.valueOf read c) :=
    fun c _ => (m.yields_valueOf read c).map fun value hvalue => by rw [hvalue]
  rw [absences_eq_flatMap]
  exact (yields_mapM hread).imp heq

/-! The criteria and the query. -/

private theorem check_holds {c : Column} (hpath : c.path ≠ "") (value : Value) :
    (holds c value).check = .ok () := by
  have hnamed : checkProperty c.path = .ok () := if_neg (by simpa using hpath)
  unfold holds
  split
  · exact congrArg (· >>= fun _ => .ok ()) hnamed
  · exact congrArg (· >>= fun _ => .ok ()) hnamed

end Metamodel

private theorem Criterion.testsAll_map (tests : List Test) :
    testsAll (tests.map .test) = tests := by
  induction tests with
  | nil => rfl
  | cons t rest ih => rw [List.map_cons, testsAll, ih, Criterion.tests, List.singleton_append]

theorem Criteria.build_tests {tests : List Test} (h : ∀ t ∈ tests, t.check = .ok ()) :
    Criteria.build [.restrict (tests.map .test)] = .ok { restrictions := tests.map .test } := by
  have hall : Criterion.checkAll (tests.map .test) = .ok () := by
    induction tests with
    | nil => rfl
    | cons t rest ih =>
      obtain ⟨hfirst, hrest⟩ := List.forall_mem_cons.mp h
      rw [List.map_cons, Criterion.checkAll, Criterion.check, hfirst]
      exact ih hrest
  unfold Criteria.build Scope.materialize
  simp only [List.foldl_cons, List.foldl_nil, Scope.declare, List.nil_append, hall]
  rfl

section
open Metamodel

variable {descriptor : Descriptor} {m : Metamodel}

theorem Metamodel.yields_rowCriteria (haccepted : Metamodel.ofDescriptor descriptor = .ok m)
    (read : String → Option Value) :
    Yields ((if m.ids = [] then [.noIdentifier m.entity] else []) ++ m.absences read m.keys)
      (fun _ => True) (m.rowCriteria read) := by
  have hchecked : ∀ t ∈ m.keys.map fun c => holds c (current read c), t.check = .ok () := by
    rw [List.forall_mem_map]
    intro c hc
    exact check_holds (path_ne_empty_of_ofDescriptor haccepted (keys_subset m hc)) _
  unfold rowCriteria
  simp only [List.isEmpty_iff]
  apply yields_guard
  rw [← List.append_nil (m.absences read m.keys)]
  apply (m.yields_mapM_valueOf read (fun c value => Criterion.test (holds c value)) m.keys).bind
  rintro tests rfl
  have hbuild := Criteria.build_tests hchecked
  rw [List.map_map, Function.comp_def] at hbuild
  rw [hbuild]
  exact ⟨rfl, trivial⟩

namespace Update

variable {read : String → Option Value} {q : Update}

theorem yields_ofEntity (haccepted : Metamodel.ofDescriptor descriptor = .ok m)
    (read : String → Option Value) :
    Yields ((if m.ids = [] then [.noIdentifier m.entity] else []) ++
        m.absences read (m.keys ++ m.assignable ++ m.version.toList))
      (fun _ => True) (Update.ofEntity m read) := by
  have hbound := m.yields_mapM_valueOf read (fun c value => Assignment.mk c.path (.bound value))
    m.assignable
  have hadvanced := m.yields_mapM_valueOf read Assignment.advance m.version.toList
  rw [absences_append, absences_append, List.append_assoc, ← List.append_assoc]
  unfold Update.ofEntity
  rw [filter_isUpdated haccepted]
  apply (yields_rowCriteria haccepted read).bind
  intro _ _
  apply hbound.bind
  intro _ _
  apply hadvanced.map
  intro _ _
  trivial

/-- The version is read again at the end, which finds nothing new. -/
theorem ofEntity_eq_error_iff (haccepted : Metamodel.ofDescriptor descriptor = .ok m)
    (read : String → Option Value) (e : CompileError) :
    Update.ofEntity m read = .error e ↔
      m.ids = [] ∧ e = .noIdentifier m.entity ∨
        m.ids ≠ [] ∧ ∃ c, (m.keys ++ m.assignable).find? (fun c => (read c.path).isNone) = some c ∧
          e = .missingValue m.entity c.path := by
  have hversion : m.version.toList ⊆ m.keys ++ m.assignable :=
    List.Subset.trans (List.subset_append_right _ _) (List.subset_append_left _ _)
  rw [(yields_ofEntity haccepted read).eq_error_iff]
  by_cases hids : m.ids = []
  · simp [hids, eq_comm]
  · rw [if_neg hids, List.nil_append, head?_absences, find?_append_of_subset hversion,
      Option.map_eq_some_iff]
    simp [hids, eq_comm]

theorem read_of_ofEntity (haccepted : Metamodel.ofDescriptor descriptor = .ok m)
    (h : Update.ofEntity m read = .ok q) :
    m.ids ≠ [] ∧ ∀ c ∈ m.keys ++ m.assignable, read c.path = some (current read c) := by
  have hyields := yields_ofEntity haccepted read
  rw [h] at hyields
  obtain ⟨hids, habsences⟩ := List.append_eq_nil_iff.mp hyields.1
  rw [absences_append, List.append_eq_nil_iff, absences_eq_nil_iff] at habsences
  exact ⟨by simpa using hids, habsences.1⟩

theorem properties_of_ofEntity (haccepted : Metamodel.ofDescriptor descriptor = .ok m)
    (h : Update.ofEntity m read = .ok q) :
    q.assignments.map (·.property) = (m.assignable ++ m.version.toList).map (·.path) := by
  rw [(eq_of_ofEntity h).2.2, filter_isUpdated haccepted, List.map_append, List.map_map,
    List.map_map, List.map_append]
  rfl

theorem tested_of_ofEntity (h : Update.ofEntity m read = .ok q) :
    q.criteria.tests.map (·.property) = m.keys.map (·.path) := by
  rw [(eq_of_ofEntity h).2.1, Criteria.tests, Criterion.testsAll_map, List.map_map]
  exact List.map_congr_left fun c _ => property_holds c _

theorem columns_set (haccepted : Metamodel.ofDescriptor descriptor = .ok m)
    (h : Update.ofEntity m read = .ok q) :
    (q.assignments.map fun a => m.column? a.property) =
      (m.assignable ++ m.version.toList).map some := by
  rw [← map_column?_paths (compatible_of_ofDescriptor haccepted) (set_subset m),
    ← properties_of_ofEntity haccepted h, List.map_map]
  rfl

theorem columns_tested (haccepted : Metamodel.ofDescriptor descriptor = .ok m)
    (h : Update.ofEntity m read = .ok q) :
    (q.criteria.tests.map fun t => m.column? t.property) = m.keys.map some := by
  rw [← map_column?_paths (compatible_of_ofDescriptor haccepted) m.keys_subset,
    ← tested_of_ofEntity h, List.map_map]
  rfl

theorem forall_column_set_iff (haccepted : Metamodel.ofDescriptor descriptor = .ok m)
    (h : Update.ofEntity m read = .ok q) (good : Column → Prop) :
    (∀ a ∈ q.assignments, ∀ c, m.column? a.property = some c → good c) ↔
      ∀ c ∈ m.assignable ++ m.version.toList, good c := by
  have hcolumns : (∀ found ∈ q.assignments.map fun a => m.column? a.property,
      ∀ c, found = some c → good c) ↔ ∀ c ∈ m.assignable ++ m.version.toList, good c := by
    rw [columns_set haccepted h, List.forall_mem_map]
    exact forall₂_congr fun c _ => ⟨fun hgood => hgood c rfl, fun hgood _ heq => by
      rwa [← Option.some.inj heq]⟩
  rwa [List.forall_mem_map] at hcolumns

private theorem hasWhere_of_ofEntity (hids : m.ids ≠ []) (h : Update.ofEntity m read = .ok q) :
    q.criteria.restrictions ≠ [] := by
  rw [(eq_of_ofEntity h).2.1]
  simp [keys, hids]

/-- Tests are there, every reference resolves, and there is nothing to page. -/
theorem faults_of_ofEntity (haccepted : Metamodel.ofDescriptor descriptor = .ok m)
    (hids : m.ids ≠ []) (h : Update.ofEntity m read = .ok q) (d : Dialect) (allow : Bool) :
    faults d { q with allowMissingWhere := allow } =
      if m.assignable = [] ∧ m.version = none then [.emptyAssignment m.entity] else [] := by
  have hcompatible := compatible_of_ofDescriptor haccepted
  have hresolved : m.unresolved (q.assignments.map (·.property)) = [] := by
    rw [properties_of_ofEntity haccepted h]
    exact unresolved_paths hcompatible (set_subset m)
  have htested : m.unresolved (q.criteria.tests.map (·.property)) = [] := by
    rw [tested_of_ofEntity h]
    exact unresolved_paths hcompatible m.keys_subset
  have hset : q.assignments = [] ↔ m.assignable = [] ∧ m.version = none := by
    rw [← List.map_eq_nil_iff (f := Assignment.property), properties_of_ofEntity haccepted h,
      List.map_eq_nil_iff, List.append_eq_nil_iff, Option.toList_eq_nil_iff]
  obtain ⟨rfl, hcriteria, -⟩ := eq_of_ofEntity h
  have hpaging : q.criteria.pagingFaults d .update q.target = [] := by
    rw [hcriteria]
    cases d <;> rfl
  have hwhere : q.criteria.whereFaults q.target = [] := htested
  have hrestricted : q.criteria.restrictions ≠ [] := hasWhere_of_ofEntity hids h
  rw [faults]
  simp only [hset, hrestricted, hresolved, hwhere, hpaging, false_and, if_false, List.append_nil]

end Update
end

open Metamodel

/-- The UPDATE of an entity from end to end. Without an identifier there is none; otherwise it needs
a value for the columns that it tests and then for those that it sets, and the first that has none
is reported. It sets each assignable column once, in order, and advances the version at the end.
Compiling it fails for want of assignments or for the placeholders of the statement, never for
anything else. -/
theorem update_of_entity {descriptor : Descriptor} {m : Metamodel}
    (haccepted : Metamodel.ofDescriptor descriptor = .ok m) (read : String → Option Value) :
    (∀ e, Update.ofEntity m read = .error e ↔
      m.ids = [] ∧ e = .noIdentifier m.entity ∨
        m.ids ≠ [] ∧ ∃ c, (m.ids ++ m.version.toList ++ m.assignable).find?
          (fun c => (read c.path).isNone) = some c ∧ e = .missingValue m.entity c.path) ∧
    ∀ q, Update.ofEntity m read = .ok q →
      q.target = m ∧
      (∃ value : Column → Value,
        (∀ c ∈ m.ids ++ m.version.toList ++ m.assignable, read c.path = some (value c)) ∧
        q.assignments = (m.assignable.map fun c => ⟨c.path, .bound (value c)⟩) ++
          m.version.toList.map fun c => .advance c (value c)) ∧
      (q.assignments.map fun a => m.column? a.property) =
        (m.assignable ++ m.version.toList).map some ∧
      (m.assignable ++ m.version.toList).Nodup ∧
      q.criteria.order = [] ∧ q.criteria.limit = none ∧ q.criteria.offset = none ∧
      ∀ d log allow e,
        ((Query.update { q with allowMissingWhere := allow }).compile d log = .error e ∧
            ∀ fault, e ≠ .statement fault) ↔
          e = .emptyAssignment m.entity ∧ m.assignable = [] ∧ m.version = none := by
  have hcompatible := compatible_of_ofDescriptor haccepted
  refine ⟨Update.ofEntity_eq_error_iff haccepted read, fun q h => ?_⟩
  obtain ⟨hids, hread⟩ := Update.read_of_ofEntity haccepted h
  obtain ⟨htarget, hcriteria, hassignments⟩ := Update.eq_of_ofEntity h
  rw [filter_isUpdated haccepted] at hassignments
  refine ⟨htarget, ⟨current read, hread, hassignments⟩,
    Update.columns_set haccepted h, assigned_nodup hcompatible, ?_, ?_, ?_, fun d log allow e => ?_⟩
  · rw [hcriteria]
  · rw [hcriteria]
  · rw [hcriteria]
  · have hyields := Update.yields_draft d { q with allowMissingWhere := allow }
    rw [Update.faults_of_ofEntity haccepted hids h] at hyields
    rw [Query.compile_eq_error_iff, Query.draft, hyields.eq_error_iff]
    by_cases hnone : m.assignable = [] ∧ m.version = none
    · rw [if_pos hnone, List.head?_cons, Option.some_inj, and_iff_left hnone]
      exact eq_comm
    · simp [hnone]

def allBut (missing : String) (path : String) : Option Value :=
  if path = missing then none else some (.bigInt 7)

theorem shipment_update :
    ∃ m, Metamodel.ofDescriptor shipment = .ok m ∧
      Update.ofEntity m (allBut "address.street") =
        .error (.missingValue "Shipment" "address.street") ∧
      ∃ q, Update.ofEntity m (allBut "") = .ok q ∧
        (q.assignments.map fun a => (m.column? a.property).map (·.column)) =
          [some "street", some "CITY", some "version"] ∧
        ∀ d log e, (Query.update q).compile d log = .error e → ∃ fault, e = .statement fault := by
  have haccepted : Metamodel.ofDescriptor shipment = .ok _ := rfl
  have hmissing := (update_of_entity haccepted (allBut "address.street")).1
  obtain ⟨-, -, -, -, -, -, -, hcompile⟩ := (update_of_entity haccepted (allBut "")).2 _ rfl
  refine ⟨_, haccepted, (hmissing _).mpr (.inr ⟨?_, _, rfl, rfl⟩), _, rfl, ?_, fun d log e h => ?_⟩
  · exact List.cons_ne_nil _ _
  · rfl
  · by_contra hfault
    exact absurd ((hcompile d log false e).mp ⟨h, not_exists.mp hfault⟩).2.1 (List.cons_ne_nil _ _)

/-! The version is both set and tested, whatever else it is. -/

/-- The UPDATE of an entity leaves identifiers and creation times alone exactly if the version is
neither, and tests no column twice exactly if the version is not part of the identifier. -/
theorem row_identity_kept_iff {descriptor : Descriptor} {m : Metamodel} {q : Update}
    {read : String → Option Value} (haccepted : Metamodel.ofDescriptor descriptor = .ok m)
    (h : Update.ofEntity m read = .ok q) :
    ((∀ a ∈ q.assignments, ∀ c, m.column? a.property = some c →
        c ∉ m.ids ∧ m.createdAt ≠ some c) ↔
      ∀ v, m.version = some v → v ∉ m.ids ∧ m.createdAt ≠ some v) ∧
    ((q.criteria.tests.map fun t => m.column? t.property).Nodup ↔
      ∀ v, m.version = some v → v ∉ m.ids) := by
  have hcompatible := compatible_of_ofDescriptor haccepted
  have hversion : ∀ good : Column → Prop,
      (∀ c ∈ m.version.toList, good c) ↔ ∀ v, m.version = some v → good v := by
    intro good
    simp
  constructor
  · have hassignable : ∀ c ∈ m.assignable, c ∉ m.ids ∧ m.createdAt ≠ some c := by
      intro c hc
      have hspared := of_decide_eq_true (List.mem_filter.mp hc).2
      exact ⟨hspared.1, hspared.2.2⟩
    rw [Update.forall_column_set_iff haccepted h, List.forall_mem_append, hversion]
    exact and_iff_right hassignable
  · have hids : m.ids.Nodup := (shows_of_ofDescriptor haccepted).ids_nodup
    have hkey : m.version.toList.Nodup := by
      cases m.version <;> simp
    rw [Update.columns_tested haccepted h, List.nodup_map_iff (Option.some_injective _), keys,
      List.nodup_append', and_iff_right hids, and_iff_right hkey, List.disjoint_comm,
      List.disjoint_left, hversion]

/-- The time of creation tells versions apart. -/
def snapshot : Descriptor where
  name := "Snapshot"
  members := [.property "id" [.id], .property "taken" [.createdAt, .version], .property "data" []]

theorem snapshot_update :
    ∃ m q, Metamodel.ofDescriptor snapshot = .ok m ∧ Update.ofEntity m (allBut "") = .ok q ∧
      (¬∀ a ∈ q.assignments, ∀ c, m.column? a.property = some c →
        c ∉ m.ids ∧ m.createdAt ≠ some c) ∧
      (q.criteria.tests.map fun t => m.column? t.property).Nodup := by
  have haccepted : Metamodel.ofDescriptor snapshot = .ok _ := rfl
  obtain ⟨hset, htested⟩ := @row_identity_kept_iff _ _ _ (allBut "") haccepted rfl
  refine ⟨_, _, haccepted, rfl, ?_, htested.mpr ?_⟩
  · intro hspared
    exact (hset.mp hspared _ rfl).2 rfl
  · intro v hv
    cases hv
    decide

/-- Documents are identified by their revision. -/
def revision : Descriptor where
  name := "Doc"
  members := [.property "rev" [.id, .version], .property "body" []]

theorem revision_update :
    ∃ m q st, Metamodel.ofDescriptor revision = .ok m ∧ Update.ofEntity m (allBut "") = .ok q ∧
      (∃ a ∈ q.assignments, ∃ c ∈ m.ids, m.column? a.property = some c) ∧
      ¬(q.criteria.tests.map fun t => m.column? t.property).Nodup ∧
      (Query.update q).compile .generic false = .ok st ∧
      st.text = "UPDATE Doc SET body = ?, rev = rev + ? WHERE rev = ? AND rev = ?" := by
  refine ⟨_, _, _, rfl, rfl, ?_, ?_, rfl, rfl⟩
  · exact ⟨_, List.mem_cons_of_mem _ List.mem_cons_self, _, List.mem_cons_self, rfl⟩
  · decide

end EntitySql
