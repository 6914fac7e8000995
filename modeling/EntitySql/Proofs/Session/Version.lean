import EntitySql.Proofs.Session.Interleaving
import EntitySql.Proofs.Session.Order
import EntitySql.Rehearsal.Record

/-!
The two places where an update takes the next version: SET, for the row, and the write into the
entity. SET asks whether the version is null, the write whether it is a number. So row and entity
stay together on versions that are null or a number with a next one, and only on these.
-/

namespace EntitySql

theorem toInt_saturatingSucc_iff {n : Int64} :
    (saturatingSucc n).toInt = n.toInt + 1 ↔ n ≠ Int64.maxValue := by
  unfold saturatingSucc
  split
  next hmax =>
    constructor
    · intro h
      omega
    · exact fun hne => absurd hmax hne
  next hmax =>
    have hbound : n.toInt + 1 ≤ Int64.maxValue.toInt :=
      Int.lt_iff_le_and_ne.mpr ⟨n.toInt_le, fun heq => hmax (Int64.toInt_inj.mp heq)⟩
    simp [toInt_add_one hbound, hmax]

/-- A new value for the row and a value given to the entity are one and the same version: SET
counts on from the stored number exactly if the entity gets the number after its own, and
otherwise SET binds what the entity gets. -/
structure NewValue.Matches (item : NewValue) (current given : Value) : Prop where
  counts_iff : item = .increment 1 ↔ ∃ n next : Int64,
    current.datum = .int n ∧ given = ⟨.int next, current.type⟩ ∧ next.toInt = n.toInt + 1
  sets : item ≠ .increment 1 → item = .bound given

theorem Assignment.matches_advance_iff (c : Column) (current : Value) :
    (Assignment.advance c current).value.Matches current (nextVersion (some current)) ↔
      current.datum.IsVersion := by
  obtain ⟨datum, type⟩ := current
  cases datum with
  | null =>
    refine ⟨fun _ => .inl rfl, fun _ => ⟨?_, fun _ => rfl⟩⟩
    simp [Assignment.advance, Value.isNull]
  | int n =>
    have hversion : (Datum.int n).IsVersion ↔ n ≠ Int64.maxValue := by simp [Datum.IsVersion]
    rw [hversion, ← toInt_saturatingSucc_iff]
    constructor
    · intro h
      obtain ⟨n', next, hn, hgiven, hnext⟩ := h.counts_iff.mp rfl
      cases hn
      cases hgiven
      exact hnext
    · intro hnext
      exact ⟨⟨fun _ => ⟨n, _, rfl, rfl, hnext⟩, fun _ => rfl⟩, fun hne => absurd rfl hne⟩
  | bool _ | float _ | text _ | bytes _ | timestamp _ | date _ =>
    -- SET counts on although there is no number to count on from.
    constructor
    · intro h
      obtain ⟨n, next, hn, -⟩ := h.counts_iff.mp rfl
      cases hn
    · rintro (hnull | ⟨n, hn, -⟩)
      · cases hnull
      · cases hn

def Update.itemsFor (q : Update) (c : Column) : List NewValue :=
  (q.assignments.filter fun a => (q.target.column? a.property).any (·.path == c.path)).map (·.value)

theorem Update.itemsFor_version {m : Metamodel} {read : String → Option Value} {q : Update}
    (h : Update.ofEntity m read = .ok q) {v : Column} (hv : m.version = some v) :
    q.itemsFor v = [(Assignment.advance v (Metamodel.current read v)).value] := by
  obtain ⟨rfl, -, hassignments⟩ := eq_of_ofEntity h
  have hmem : v ∈ q.target.columns := Metamodel.mem_columns_of_slot hv
  rw [itemsFor, hassignments, List.filter_append, hv]
  have hupdated : (((q.target.columns.filter q.target.isUpdated).map fun c =>
      (⟨c.path, .bound (Metamodel.current read c)⟩ : Assignment)).filter fun a =>
        (q.target.column? a.property).any (·.path == v.path)) = [] := by
    rw [List.filter_eq_nil_iff]
    intro a ha
    obtain ⟨c, hc, rfl⟩ := List.mem_map.mp ha
    exact version_not_among_updated hv hc
  rw [hupdated]
  simp [Assignment.advance, Metamodel.any_column?_path hmem]

theorem Update.read_version {m : Metamodel} {read : String → Option Value} {q : Update}
    (h : Update.ofEntity m read = .ok q) {v : Column} (hv : m.version = some v) :
    read v.path = some (Metamodel.current read v) := by
  unfold Update.ofEntity at h
  obtain ⟨criteria, -, h⟩ := Except.bind_eq_ok_iff.mp h
  obtain ⟨updated, -, h⟩ := Except.bind_eq_ok_iff.mp h
  obtain ⟨version, hversion, -⟩ := Except.bind_eq_ok_iff.mp h
  exact Metamodel.read_of_mapM_valueOf hversion v (by simp [hv])

namespace Course

variable {ε : Type} {steps : List (Step ε)} {result : Except QueryError ε}

def writes (steps : List (Step ε)) : List (String × Value) :=
  steps.filterMap fun step =>
    match step.ask with
    | .assign path value _ => some (path, value)
    | _ => none

@[simp] theorem writes_assign (path : String) (value : Value) (entity : ε)
    (answer : Except QueryError ε) (rest : List (Step ε)) :
    writes (⟨.assign path value entity, answer⟩ :: rest) = (path, value) :: writes rest := rfl

private theorem writes_append (front back : List (Step ε)) :
    writes (front ++ back) = writes front ++ writes back :=
  List.filterMap_append ..

private theorem writes_of_kind {steps : List (Step ε)}
    (h : ∀ step ∈ steps, ∀ path, step.ask.kind ≠ .assign path) : writes steps = [] := by
  rw [writes, List.filterMap_eq_nil_iff]
  rintro ⟨ask, answer⟩ hstep
  cases ask
  case assign path value entity => exact absurd rfl (h _ hstep path)
  all_goals rfl

theorem logged_cases {logs : Bool} {st : Statement} {after : Course ε}
    (h : (logged logs st after).Follows steps result)
    (hraises : ∀ step ∈ steps, ∀ e, step.answer = .error e → step.ask.Raises e) :
    ∃ front back, steps = front ++ back ∧ (∀ step ∈ front, step.ask.kind = .log) ∧
      after.Follows back result := by
  cases logs with
  | false => exact ⟨[], steps, rfl, by simp, h⟩
  | true =>
    rcases follows_step_iff.mp h with ⟨e, rfl, -⟩ | ⟨answer, rest, rfl, hrest⟩
    · exact absurd (hraises _ (List.mem_singleton_self _) e rfl) id
    · exact ⟨[_], rest, rfl, by simp [Ask.kind], hrest⟩

private theorem late_of_conclude {operation : Mutation} {m : Metamodel} {st : Statement}
    {entity : ε} (h : (conclude operation m st entity).Follows steps result)
    (hchecked : Checked steps) :
    ∀ step ∈ steps, step.ask.kind.late = true := by
  have hlate : ∀ kind ∈ concludeOrder operation, kind.late = true := by
    cases operation <;> decide
  intro step hstep
  exact hlate _ ((conclude_ordered h hchecked).1.subset (List.mem_map_of_mem hstep))

private theorem writes_of_late (h : ∀ step ∈ steps, step.ask.kind.late = true) :
    writes steps = [] := by
  apply writes_of_kind
  intro step hstep path hkind
  have hlate := h step hstep
  rw [hkind] at hlate
  contradiction

theorem writes_advance {read : ε → String → Option Value} {m : Metamodel} {st : Statement}
    {entity : ε} (h : (advance read m.version entity (conclude .update m st)).Follows steps result)
    (hchecked : Checked steps) :
    writes steps = m.version.toList.map (fun v => (v.path, nextVersion (read entity v.path))) ∧
      ∀ step ∈ steps, step.ask.kind ≠ .compile := by
  have hconclude : ∀ {advanced rest}, (conclude .update m st advanced).Follows rest result →
      Checked rest → writes rest = [] ∧ ∀ step ∈ rest, step.ask.kind ≠ .compile := by
    intro advanced rest hrest hchecked
    have hlate := late_of_conclude hrest hchecked
    refine ⟨writes_of_late hlate, fun step hstep hkind => ?_⟩
    have hnot := hlate step hstep
    rw [hkind] at hnot
    contradiction
  cases hv : m.version with
  | none =>
    rw [hv] at h
    exact hconclude h hchecked
  | some v =>
    rw [hv] at h
    rcases follows_step_iff.mp h with ⟨e, rfl, -⟩ | ⟨advanced, rest, rfl, hrest⟩
    · exact ⟨rfl, by simp [Ask.kind]⟩
    · have hrestChecked : Checked rest := fun m rows answer hmem =>
        hchecked m rows answer (List.mem_cons_of_mem _ hmem)
      obtain ⟨hwrites, hkinds⟩ := hconclude hrest hrestChecked
      rw [writes_assign, hwrites]
      exact ⟨rfl, List.forall_mem_cons.mpr ⟨by simp [Ask.kind], hkinds⟩⟩

/-- An update that has its statement writes the next version into the entity, and nothing else. -/
theorem Follows.writes_of_compile {logs : Bool} {read : ε → String → Option Value}
    {entity prepared : ε} {m : Metamodel} {st : Statement}
    (h : (ofMutation logs read .update entity).Follows steps result) (hchecked : Checked steps)
    (hraises : ∀ step ∈ steps, ∀ e, step.answer = .error e → step.ask.Raises e)
    (hst : ⟨.compile .update m prepared, .ok st⟩ ∈ steps) :
    writes steps = m.version.toList.map fun v => (v.path, nextVersion (read prepared v.path)) := by
  rcases follows_step_iff.mp h with ⟨e, rfl, -⟩ | ⟨found, afterLookup, rfl, hprepare⟩
  · simp at hst
  rcases follows_step_iff.mp hprepare with ⟨e, rfl, -⟩ | ⟨given, afterHook, rfl, hsubmit⟩
  · simp at hst
  rcases follows_step_iff.mp hsubmit with ⟨e, rfl, -⟩ | ⟨compiled, afterCompile, rfl, hlogged⟩
  · simp at hst
  obtain ⟨front, back, rfl, hfront, hadvance⟩ := logged_cases hlogged fun step hstep =>
    hraises step (by simp [hstep])
  have hback : Checked back := fun m rows answer hmem => hchecked m rows answer (by simp [hmem])
  obtain ⟨hwrites, hkinds⟩ := writes_advance hadvance hback
  have hlogs : writes front = [] := writes_of_kind fun step hstep path => by
    rw [hfront step hstep]
    simp
  have hother : (⟨.compile .update m prepared, .ok st⟩ : Step ε) ∉ front ++ back := by
    intro hmem
    rcases List.mem_append.mp hmem with hmem | hmem
    · have hkind := hfront _ hmem
      contradiction
    · exact hkinds _ hmem rfl
  have hsame : (m = found ∧ prepared = given) ∧ st = compiled := by simpa [hother] using hst
  obtain ⟨⟨rfl, rfl⟩, rfl⟩ := hsame
  change writes (front ++ back) = _
  rw [writes_append, hlogs, hwrites, List.nil_append]

end Course

namespace Parties

variable {σ ε : Type}

theorem exists_compiles {p : Parties σ ε} {m : Metamodel} {prepared : ε} {st : Statement}
    {state : SessionState σ} (h : (p.perform (.compile .update m prepared) state).1 = .ok st) :
    ∃ q, p.Compiles m prepared q st := by
  obtain ⟨query, hquery, hst⟩ := Except.bind_eq_ok_iff.mp (Except.mapError_eq_ok_iff.mp h)
  obtain ⟨q, hq, hreturn⟩ := Except.bind_eq_ok_iff.mp hquery
  cases hreturn
  exact ⟨q, hq, hst⟩

/-- An update that has its statement mentions the version once in SET and writes it once into the
entity, and the two are the same new version exactly if the version was null or a number with a
next one. -/
theorem update_version (p : Parties σ ε) (entity prepared : ε) (state : SessionState σ)
    {m : Metamodel} {v : Column} (hv : m.version = some v) {st : Statement}
    (hst : ⟨.compile .update m prepared, .ok st⟩ ∈ p.trace (p.course .update entity) state) :
    ∃ q current item, p.Compiles m prepared q st ∧
      p.access.read prepared v.path = some current ∧ q.itemsFor v = [item] ∧
      Course.writes (p.trace (p.course .update entity) state) =
        [(v.path, nextVersion (some current))] ∧
      (item.Matches current (nextVersion (some current)) ↔ current.datum.IsVersion) := by
  have hperformed := p.performed_trace (p.course .update entity) state
  have hfollows := p.follows_trace (p.course .update entity) state
  have hwrites := hfollows.writes_of_compile hperformed.checked hperformed.raises hst
  obtain ⟨before, hperform⟩ := hperformed.exists_state hst
  obtain ⟨q, hq⟩ := exists_compiles hperform
  have hread := Update.read_version hq.query hv
  rw [hv, Option.toList_some, List.map_singleton, hread] at hwrites
  exact ⟨q, _, _, hq, hread, Update.itemsFor_version hq.query hv, hwrites,
    Assignment.matches_advance_iff v _⟩

end Parties

def memo : EntityType where
  key := 0
  descriptor := {
    name := "Memo"
    members := [.property "id" [.id], .property "body" [], .property "version" [.version]] }

def memoVersion : Column := ⟨"version", "version", "version", false, none⟩

def memos : Metamodel where
  entity := "Memo"
  table := { name := "Memo" }
  columns :=
    [⟨"id", "id", "id", false, none⟩, ⟨"body", "body", "body", false, none⟩, memoVersion]
  slots := { ids := [0], version := some 2 }
  identifierLess := false
  embedded := []

def memoWith (version : Value) : Record where
  values := [("id", .bigInt 1), ("body", .text "x"), ("version", version)]

def memoParties : Parties Stage Record where
  session := ⟨{ logStatements := false }, Stage.logger, Stage.subscriber none⟩
  type := memo
  access := Record.access
  listener := .idle
  executor := Stage.executor

def memoUpdate (version : Value) : Statement where
  text := "UPDATE Memo SET body = ?, version = version + ? WHERE id = ? AND version = ?"
  values := [.text "x", .bigInt 1, .bigInt 1, version]
  log := none

def memoSteps (version : Value) : List (Step Record) :=
  memoParties.trace (memoParties.course .update (memoWith version)) { surroundings := {} }

theorem numbered_memo_version :
    memos.version = some memoVersion ∧
      ⟨.compile .update memos (memoWith (.bigInt 4)), .ok (memoUpdate (.bigInt 4))⟩ ∈
        memoSteps (.bigInt 4) ∧
      ∃ q, memoParties.Compiles memos (memoWith (.bigInt 4)) q (memoUpdate (.bigInt 4)) ∧
        q.itemsFor memoVersion = [.increment 1] ∧
        Course.writes (memoSteps (.bigInt 4)) = [("version", .bigInt 5)] ∧
        (NewValue.increment 1).Matches (.bigInt 4) (.bigInt 5) := by
  have hv : memos.version = some memoVersion := rfl
  have hst : ⟨.compile .update memos (memoWith (.bigInt 4)), .ok (memoUpdate (.bigInt 4))⟩ ∈
      memoSteps (.bigInt 4) := .tail _ (.tail _ (.head _))
  obtain ⟨q, current, item, hq, hread, hitem, hwrites, hmatches⟩ :=
    memoParties.update_version (memoWith (.bigInt 4)) (memoWith (.bigInt 4)) _ hv hst
  cases hread
  have hnumber : (Value.bigInt 4).datum.IsVersion := by decide
  have hsame := hmatches.mpr hnumber
  obtain rfl : item = .increment 1 := hsame.counts_iff.mpr ⟨4, 5, rfl, rfl, rfl⟩
  exact ⟨hv, hst, q, hq, hitem, hwrites, hsame⟩

/-- A version that is text is counted on from in the row, and starts over in the entity. -/
theorem lettered_memo_version :
    Metamodel.ofDescriptor memo.descriptor = .ok memos ∧ memos.version = some memoVersion ∧
      memos.isId memoVersion = false ∧
      ⟨.compile .update memos (memoWith (.text "a")), .ok (memoUpdate (.text "a"))⟩ ∈
        memoSteps (.text "a") ∧
      ∃ q, memoParties.Compiles memos (memoWith (.text "a")) q (memoUpdate (.text "a")) ∧
        q.itemsFor memoVersion = [.increment 1] ∧
        Course.writes (memoSteps (.text "a")) = [("version", ⟨.int 1, .text⟩)] ∧
        ¬(NewValue.increment 1).Matches (.text "a") ⟨.int 1, .text⟩ := by
  refine ⟨rfl, rfl, rfl, .tail _ (.tail _ (.head _)), _, ⟨rfl, rfl⟩, rfl, rfl, fun h => ?_⟩
  obtain ⟨n, next, hn, -⟩ := h.counts_iff.mp rfl
  cases hn

end EntitySql
