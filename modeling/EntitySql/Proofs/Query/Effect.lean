import EntitySql.Proofs.Condition.Meaning
import EntitySql.Proofs.Outcome
import EntitySql.Query.Entity

/-!
The declared effect of an UPDATE: rows for which every criterion is true get every assignment. The
UPDATE of an entity finds its row by identifier and version, leaves identifiers alone, and gives
the row the version that the entity gets. It never has a limit, so limits are left out here.
-/

namespace EntitySql

namespace Datum

/-- The truth of a test on what is stored. `other` decides about the tests that are neither for
equality nor for null. -/
def meets (other : Test → Datum → Truth) : Test → Datum → Truth
  | .compare .eq _ value, d =>
    if d.isNull || value.isNull then .unknown
    else if d.equal value.datum then .true else .false
  | .isNull negated _, d => if d.isNull != negated then .true else .false
  | t, d => other t d

@[simp] theorem isNull_null : null.isNull = true := rfl

private theorem isNull_iff {d : Datum} : d.isNull = true ↔ d = .null := by
  cases d <;> simp [isNull]

@[simp] theorem equal_null (d : Datum) : d.equal .null = d.isNull := by
  cases d <;> rfl

@[simp] theorem null_equal (d : Datum) : null.equal d = d.isNull := by
  cases d <;> rfl

end Datum

abbrev Row := String → Datum

def Row.truth (other : Test → Datum → Truth) (m : Metamodel) (row : Row) (t : Test) : Truth :=
  match m.column? t.property with
  | some c => (row c.path).meets other t
  | none => .unknown

/-- Null plus a number is null. -/
def NewValue.applied : NewValue → Datum → Datum
  | bound value, _ => value.datum
  | increment amount, .int n => .int (n + amount)
  | increment _, d => d

namespace Update

variable (other : Test → Datum → Truth) (q : Update)

def selects (row : Row) : Bool :=
  Criterion.meaningAfter (row.truth other q.target) none q.criteria.restrictions = .true

/-- All new values are computed from the old row. -/
def assigned (row : Row) : Row := fun path =>
  match q.assignments.find? fun a => (q.target.column? a.property).any (·.path == path) with
  | some a => a.value.applied (row path)
  | none => row path

def written (row : Row) : Row := if q.selects other row then q.assigned row else row

def affected (rows : List Row) : Nat := rows.countP (q.selects other)

end Update

/-! Criteria that are tests one after the other select where all of them are true. -/

private theorem Truth.and_eq_true_iff {left right : Truth} :
    left.and right = .true ↔ left = .true ∧ right = .true := by
  cases left <;> cases right <;> simp [Truth.and]

theorem Criterion.meaningAfter_tests {truth : Test → Truth} (before : Option Truth)
    (tests : List Test) :
    Criterion.meaningAfter truth before (tests.map .test) = .true ↔
      before.getD .true = .true ∧ ∀ t ∈ tests, truth t = .true := by
  induction tests generalizing before with
  | nil => simp [Criterion.meaningAfter]
  | cons t rest ih =>
    rw [List.map_cons, List.forall_mem_cons]
    cases before with
    | none => simpa [Criterion.meaningAfter, Criterion.meaning] using ih (some (truth t))
    | some left =>
      have hrest := ih (some (left.and (truth t)))
      simpa [Criterion.meaningAfter, Criterion.meaning, Truth.and_eq_true_iff, and_assoc]
        using hrest

namespace Metamodel

variable {m : Metamodel} {c : Column} {read : String → Option Value}

theorem column?_path (hc : c ∈ m.columns) : (m.column? c.path).map (·.path) = some c.path := by
  match hfind : m.columns.find? (·.path == c.path) with
  | some found => simpa [column?, hfind] using List.find?_some hfind
  | none => simpa using List.find?_eq_none.mp hfind c hc

theorem any_column?_path (hc : c ∈ m.columns) (path : String) :
    (m.column? c.path).any (·.path == path) = (c.path == path) := by
  obtain ⟨found, hfound, hpath⟩ := Option.map_eq_some_iff.mp (column?_path hc)
  rw [hfound, Option.any_some, hpath]

theorem truth_holds (hc : c ∈ m.columns) (other : Test → Datum → Truth) (row : Row)
    (value : Value) :
    row.truth other m (holds c value) = .true ↔ (row c.path).equal value.datum = true := by
  obtain ⟨found, hfound, hpath⟩ := Option.map_eq_some_iff.mp (column?_path hc)
  unfold holds
  split
  next hnull =>
    have hdatum : value.datum = .null := Datum.isNull_iff.mp hnull
    simp [Row.truth, Test.property, hfound, hpath, Datum.meets, hdatum]
  next hvalue =>
    have hvalue : value.datum.isNull = false := by simpa [Value.isNull] using hvalue
    cases hstored : (row c.path).isNull with
    | true =>
      simp [Row.truth, Test.property, hfound, hpath, Datum.meets, Datum.isNull_iff.mp hstored,
        hvalue]
    | false =>
      simp [Row.truth, Test.property, hfound, hpath, Datum.meets, hstored, Value.isNull, hvalue]

def current (read : String → Option Value) (c : Column) : Value := (read c.path).getD default

theorem valueOf_eq_ok_iff {value : Value} :
    m.valueOf read c = .ok value ↔ read c.path = some value := by
  unfold valueOf
  split
  next found hread => simp [hread]
  next hnone => simp [hnone]

theorem current_of_valueOf {value : Value} (h : m.valueOf read c = .ok value) :
    current read c = value := by
  rw [current, valueOf_eq_ok_iff.mp h, Option.getD_some]

theorem read_of_mapM_valueOf {α : Type} {f : Column → Value → α} {columns : List Column}
    {found : List α} (h : (columns.mapM fun c => do return f c (← m.valueOf read c)) = .ok found) :
    ∀ c ∈ columns, read c.path = some (current read c) := by
  induction columns generalizing found with
  | nil => simp
  | cons c rest ih =>
    rw [List.mapM_cons] at h
    obtain ⟨first, hfirst, h⟩ := Except.bind_eq_ok_iff.mp h
    obtain ⟨others, hothers, -⟩ := Except.bind_eq_ok_iff.mp h
    obtain ⟨value, hvalue, -⟩ := Except.bind_eq_ok_iff.mp hfirst
    rw [List.forall_mem_cons, current_of_valueOf hvalue]
    exact ⟨valueOf_eq_ok_iff.mp hvalue, ih hothers⟩

theorem eq_map_of_mapM_valueOf {α : Type} {f : Column → Value → α} {columns : List Column}
    {found : List α} (h : (columns.mapM fun c => do return f c (← m.valueOf read c)) = .ok found) :
    found = columns.map fun c => f c (current read c) := by
  induction columns generalizing found with
  | nil =>
    rw [List.mapM_nil, Except.pure_eq_ok_iff] at h
    exact h.symm
  | cons c rest ih =>
    rw [List.mapM_cons] at h
    obtain ⟨first, hfirst, h⟩ := Except.bind_eq_ok_iff.mp h
    obtain ⟨others, hothers, h⟩ := Except.bind_eq_ok_iff.mp h
    obtain ⟨value, hvalue, hfirst⟩ := Except.bind_eq_ok_iff.mp hfirst
    rw [← Except.pure_eq_ok_iff.mp h, ← Except.pure_eq_ok_iff.mp hfirst, ih hothers, List.map_cons,
      current_of_valueOf hvalue]

/-- The columns that an UPDATE of an entity finds its row by. -/
def keys (m : Metamodel) : List Column := m.ids ++ m.version.toList

theorem keys_subset (m : Metamodel) : m.keys ⊆ m.columns := by
  intro c hc
  rcases List.mem_append.mp hc with hid | hversion
  · exact m.ids_subset hid
  · exact mem_columns_of_slot (Option.mem_toList.mp hversion)

theorem version_mem_keys (hv : m.version = some c) : c ∈ m.keys :=
  List.mem_append_right _ (by simp [hv])

theorem eq_of_build {tests : List Criterion} {criteria : Criteria}
    (h : Criteria.build [.restrict tests] = .ok criteria) :
    criteria = { restrictions := tests } := by
  unfold Criteria.build Scope.materialize at h
  obtain ⟨limit, hlimit, h⟩ := Except.bind_eq_ok_iff.mp h
  obtain ⟨offset, hoffset, h⟩ := Except.bind_eq_ok_iff.mp h
  obtain ⟨-, -, h⟩ := Except.bind_eq_ok_iff.mp h
  obtain ⟨-, -, h⟩ := Except.bind_eq_ok_iff.mp h
  rw [← Except.pure_eq_ok_iff.mp h, ← Except.ok.inj hlimit, ← Except.ok.inj hoffset]
  rfl

theorem eq_of_rowCriteria {criteria : Criteria} (h : m.rowCriteria read = .ok criteria) :
    criteria =
      { restrictions := (m.keys.map fun c => holds c (current read c)).map .test } := by
  unfold rowCriteria at h
  obtain ⟨-, h⟩ := Except.guard_eq_ok_iff.mp h
  obtain ⟨tests, htests, h⟩ := Except.bind_eq_ok_iff.mp h
  rw [eq_of_build (Except.mapError_eq_ok_iff.mp h), eq_map_of_mapM_valueOf htests, keys,
    List.map_map]
  rfl

end Metamodel

namespace Update

open Metamodel

variable {m : Metamodel} {read : String → Option Value} {q : Update}

theorem eq_of_ofEntity (h : Update.ofEntity m read = .ok q) :
    q.target = m ∧
      q.criteria =
        { restrictions := (m.keys.map fun c => holds c (current read c)).map .test } ∧
      q.assignments =
        ((m.columns.filter m.isUpdated).map fun c => ⟨c.path, .bound (current read c)⟩) ++
          m.version.toList.map fun c => .advance c (current read c) := by
  unfold Update.ofEntity at h
  obtain ⟨criteria, hcriteria, h⟩ := Except.bind_eq_ok_iff.mp h
  obtain ⟨updated, hupdated, h⟩ := Except.bind_eq_ok_iff.mp h
  obtain ⟨version, hversion, h⟩ := Except.bind_eq_ok_iff.mp h
  rw [← Except.pure_eq_ok_iff.mp h]
  exact ⟨rfl, eq_of_rowCriteria hcriteria, by
    rw [eq_map_of_mapM_valueOf hupdated, eq_map_of_mapM_valueOf hversion]⟩

/-- The UPDATE of an entity selects the rows that have its identifier and its version. -/
theorem selects_iff (h : Update.ofEntity m read = .ok q) (other : Test → Datum → Truth)
    (row : Row) :
    q.selects other row = true ↔
      ∀ c ∈ m.keys, (row c.path).equal (current read c).datum = true := by
  obtain ⟨rfl, hcriteria, -⟩ := eq_of_ofEntity h
  rw [selects, hcriteria, decide_eq_true_iff, Criterion.meaningAfter_tests,
    List.forall_mem_map]
  refine (and_iff_right rfl).trans (forall₂_congr fun c hc => ?_)
  exact truth_holds (keys_subset _ hc) other row (current read c)

private theorem path_ne_of_isUpdated {c v : Column} (hv : m.version = some v)
    (hc : m.isUpdated c = true) : c.path ≠ v.path := by
  intro hpath
  simp [isUpdated, hv, hpath] at hc

theorem version_not_among_updated {c v : Column} (hv : m.version = some v)
    (hc : c ∈ m.columns.filter m.isUpdated) :
    ¬(m.column? c.path).any (·.path == v.path) = true := by
  obtain ⟨hmem, hupdated⟩ := List.mem_filter.mp hc
  rw [any_column?_path hmem, beq_iff_eq]
  exact path_ne_of_isUpdated hv hupdated

private theorem path_ne_of_mem_ids {c other : Column} (hc : c ∈ m.ids)
    (hother : m.isId other = false) :
    other.path ≠ c.path := by
  intro hpath
  have hid : m.isId other = true := List.any_eq_true.mpr ⟨c, hc, by simp [hpath]⟩
  rw [hother] at hid
  contradiction

theorem assigned_id (h : Update.ofEntity m read = .ok q)
    (hversion : ∀ v, m.version = some v → m.isId v = false) (row : Row) {c : Column}
    (hc : c ∈ m.ids) : q.assigned row c.path = row c.path := by
  obtain ⟨rfl, -, hassignments⟩ := eq_of_ofEntity h
  have hnone : (q.assignments.find? fun a =>
      (q.target.column? a.property).any (·.path == c.path)) = none := by
    rw [hassignments, List.find?_eq_none]
    intro a ha
    rcases List.mem_append.mp ha with ha | ha
    · obtain ⟨other, hother, rfl⟩ := List.mem_map.mp ha
      obtain ⟨hmem, hupdated⟩ := List.mem_filter.mp hother
      have hid : q.target.isId other = false := by
        simp [isUpdated] at hupdated
        exact hupdated.1.2
      rw [any_column?_path hmem, beq_iff_eq]
      exact path_ne_of_mem_ids hc hid
    · obtain ⟨v, hv, rfl⟩ := List.mem_map.mp ha
      have hv := Option.mem_toList.mp hv
      rw [Assignment.advance, any_column?_path (mem_columns_of_slot hv), beq_iff_eq]
      exact path_ne_of_mem_ids hc (hversion v hv)
  rw [assigned, hnone]

theorem assigned_version (h : Update.ofEntity m read = .ok q) {v : Column}
    (hv : m.version = some v) (row : Row) :
    q.assigned row v.path = (Assignment.advance v (current read v)).value.applied (row v.path) := by
  obtain ⟨rfl, -, hassignments⟩ := eq_of_ofEntity h
  have hfind : (q.assignments.find? fun a =>
      (q.target.column? a.property).any (·.path == v.path)) =
        some (Assignment.advance v (current read v)) := by
    rw [hassignments, List.find?_append, hv]
    have hupdated : (((q.target.columns.filter q.target.isUpdated).map fun c =>
        (⟨c.path, .bound (current read c)⟩ : Assignment)).find? fun a =>
          (q.target.column? a.property).any (·.path == v.path)) = none := by
      rw [List.find?_eq_none]
      intro a ha
      obtain ⟨c, hc, rfl⟩ := List.mem_map.mp ha
      exact version_not_among_updated hv hc
    rw [hupdated]
    simp [Assignment.advance, any_column?_path (mem_columns_of_slot hv)]
  rw [assigned, hfind]

end Update

/-! Versions: nothing at first, then numbers that grow. -/

namespace Datum

/-- Versions that have a next one. -/
def IsVersion (d : Datum) : Prop := d = null ∨ ∃ n, d = int n ∧ n ≠ Int64.maxValue

instance : DecidablePred IsVersion := fun d =>
  match d with
  | null => .isTrue (.inl rfl)
  | int n => decidable_of_iff (n ≠ Int64.maxValue) (by simp [IsVersion])
  | bool _ | float _ | text _ | bytes _ | timestamp _ | date _ => .isFalse (by simp [IsVersion])

/-- The order of versions, with null before every number. -/
def rank : Datum → Int
  | int n => n.toInt
  | _ => Int64.minValue.toInt - 1

theorem IsVersion.equal_self {d : Datum} (h : d.IsVersion) : d.equal d = true := by
  rcases h with rfl | ⟨n, rfl, -⟩
  · rfl
  · exact beq_self_eq_true (int n)

theorem eq_of_equal {d e : Datum} (he : e.IsVersion) (h : d.equal e = true) : d = e := by
  rcases he with rfl | ⟨n, rfl, -⟩
  · exact isNull_iff.mp (by simpa using h)
  · cases d <;> simp_all [equal]

end Datum

/-- What is stored as the next version is what the entity gets. -/
theorem Assignment.applied_advance {current : Value} (c : Column) (h : current.datum.IsVersion) :
    (Assignment.advance c current).value.applied current.datum =
        (nextVersion (some current)).datum ∧
      current.datum.rank < (nextVersion (some current)).datum.rank := by
  obtain ⟨datum, type⟩ := current
  rcases h with rfl | ⟨n, rfl, hn⟩
  · have hfirst : Int64.minValue.toInt - 1 < (1 : Int64).toInt := by decide
    exact ⟨rfl, hfirst⟩
  · have hnext : saturatingSucc n = n + 1 := if_neg hn
    have hbound : n.toInt + 1 ≤ Int64.maxValue.toInt :=
      Int.lt_iff_le_and_ne.mpr ⟨n.toInt_le, fun heq => hn (Int64.toInt_inj.mp heq)⟩
    rw [nextVersion, hnext]
    refine ⟨rfl, ?_⟩
    rw [Datum.rank, Datum.rank, toInt_add_one hbound]
    exact Int.lt_succ n.toInt

namespace Update

open Metamodel

variable {m : Metamodel} {read : String → Option Value} {q : Update} {v : Column}

theorem written_id (h : Update.ofEntity m read = .ok q)
    (hversion : ∀ v, m.version = some v → m.isId v = false) (other : Test → Datum → Truth)
    (row : Row) {c : Column} (hc : c ∈ m.ids) : q.written other row c.path = row c.path := by
  unfold written
  split
  · exact assigned_id h hversion row hc
  · rfl

theorem written_version (h : Update.ofEntity m read = .ok q) (hv : m.version = some v)
    (hcurrent : (current read v).datum.IsVersion) {other : Test → Datum → Truth} {row : Row}
    (hselects : q.selects other row = true) :
    q.written other row v.path = (nextVersion (some (current read v))).datum ∧
      (current read v).datum.rank < (q.written other row v.path).rank := by
  have hrow := Datum.eq_of_equal hcurrent
    ((selects_iff h other row).mp hselects v (version_mem_keys hv))
  obtain ⟨happlied, hrank⟩ := Assignment.applied_advance v hcurrent
  rw [written, if_pos hselects, assigned_version h hv, hrow, happlied]
  exact ⟨rfl, hrank⟩

theorem rank_le_written (h : Update.ofEntity m read = .ok q) (hv : m.version = some v)
    (hcurrent : (current read v).datum.IsVersion) (other : Test → Datum → Truth) (row : Row) :
    (row v.path).rank ≤ (q.written other row v.path).rank := by
  cases hselects : q.selects other row with
  | true =>
    rw [Datum.eq_of_equal hcurrent ((selects_iff h other row).mp hselects v (version_mem_keys hv))]
    exact Int.le_of_lt (written_version h hv hcurrent hselects).2
  | false =>
    have hkept : q.written other row = row := if_neg (ne_true_of_eq_false hselects)
    exact Int.le_of_eq (congrArg (fun row : Row => (row v.path).rank) hkept.symm)

end Update
end EntitySql
