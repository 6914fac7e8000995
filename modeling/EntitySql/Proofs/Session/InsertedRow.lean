import EntitySql.Proofs.Query.Binding
import EntitySql.Proofs.Query.Restriction
import EntitySql.Proofs.Session.HandOut

/-!
The row that an INSERT stores. On the way to its execution an insertion draws a value for each
identifier that a sequence feeds and writes it into the entity. The row has these values, and for
the rest it is the entity as the hook before the insertion gave it on; the hook after it gets the
same values to see.
-/

namespace EntitySql

/-! Writes of identifiers. -/

namespace EntityAccess

variable {σ ε : Type} (access : EntityAccess σ ε)

/-- A write that shows under its path and nowhere else. -/
structure Faithful (path : String) (value : Value) (before after : ε) : Prop where
  read_self : access.read after path = some value
  read_of_ne : ∀ other, other ≠ path → access.read after other = access.read before other

/-- Whichever of the entries the access accepts to write, it writes faithfully. -/
def FaithfulFor (entries : List (String × Value)) : Prop :=
  ∀ entry ∈ entries, ∀ before after earlier later,
    access.assign entry.1 entry.2 before earlier = (.ok after, later) →
      access.Faithful entry.1 entry.2 before after

def FaithfulIn (steps : List (Step ε)) : Prop :=
  ∀ path value before after, ⟨.assign path value before, .ok after⟩ ∈ steps →
    access.Faithful path value before after

/-- A column holds what was drawn from its sequence, bound as the value that it had before. -/
structure Identified (before after : ε) (c : Column) (draw : SequenceSpec × Int64) : Prop where
  sequence : c.sequence? = some draw.1
  read : access.read after c.path =
    some ⟨.int draw.2, ((access.read before c.path).map (·.type)).getD .bigInt⟩

/-- Every column that a sequence feeds gets the value that is drawn for it, in order, and nothing
else changes. -/
structure Identifies (columns : List Column) (entity : ε) (a : Allocator) (fetches : List Fetch)
    (draws : List (SequenceSpec × Int64)) (complete : ε) (b : Allocator) : Prop where
  handOut : ∀ more, a.handOut (columns.filterMap (·.sequence?)) (fetches ++ more) =
    some ((draws, b), more)
  identified : List.Forall₂ (access.Identified entity complete)
    (columns.filter (·.sequence?.isSome)) draws
  kept : ∀ path ∉ Course.drawn columns, access.read complete path = access.read entity path

variable {access} {steps front : List (Step ε)} {c : Column} {rest : List Column}
  {entity assigned complete : ε} {a between b : Allocator} {fetches others : List Fetch}
  {draws : List (SequenceSpec × Int64)} {spec : SequenceSpec} {id : Int64}

theorem FaithfulFor.mono {entries others : List (String × Value)} (h : access.FaithfulFor entries)
    (hsubset : others ⊆ entries) : access.FaithfulFor others :=
  fun entry hentry => h entry (hsubset hentry)

theorem FaithfulIn.mono (h : access.FaithfulIn steps) (hsubset : front ⊆ steps) :
    access.FaithfulIn front :=
  fun path value before after hmem => h path value before after (hsubset hmem)

private theorem identifies_nil : access.Identifies [] entity a [] [] entity a :=
  ⟨fun _ => Allocator.handOut_nil_iff.mpr ⟨rfl, rfl, rfl⟩, .nil, fun _ _ => rfl⟩

theorem Identifies.skip (hsequence : c.sequence? = none)
    (h : access.Identifies rest entity a fetches draws complete b) :
    access.Identifies (c :: rest) entity a fetches draws complete b where
  handOut := by simpa [hsequence] using h.handOut
  identified := by simpa [hsequence] using h.identified
  kept := by simpa [Course.drawn, hsequence] using h.kept

theorem Identifies.cons (hpath : c.path ∉ rest.map (·.path)) (hsequence : c.sequence? = some spec)
    (hnext : ∀ more, a.next spec (Allocator.answered spec) (fetches ++ more) =
      some ((id, between), more))
    (hwrite : access.Faithful c.path
      ⟨.int id, ((access.read entity c.path).map (·.type)).getD .bigInt⟩ entity assigned)
    (h : access.Identifies rest assigned between others draws complete b) :
    access.Identifies (c :: rest) entity a (fetches ++ others) ((spec, id) :: draws) complete
      b where
  handOut more := by
    rw [List.filterMap_cons_some hsequence, List.append_assoc]
    exact Allocator.handOut_cons_iff.mpr ⟨id, between, _, draws, hnext _, h.handOut more, rfl⟩
  identified := by
    have hlater : ∀ other ∈ rest.filter (·.sequence?.isSome), other.path ≠ c.path := by
      intro other hother heq
      exact hpath (heq ▸ List.mem_map_of_mem (List.mem_of_mem_filter hother))
    have hself : c.path ∉ Course.drawn rest := by
      intro hdrawn
      obtain ⟨other, hother, heq⟩ := List.mem_map.mp hdrawn
      exact hlater other hother heq
    rw [List.filter_cons_of_pos (by simp [hsequence])]
    refine .cons ⟨hsequence, (h.kept _ hself).trans hwrite.read_self⟩ ?_
    refine ((List.forall₂_and_left _ _).mpr ⟨hlater, h.identified⟩).imp ?_
    rintro other draw ⟨hother, hdraw⟩
    refine ⟨hdraw.sequence, ?_⟩
    rw [hdraw.read, hwrite.read_of_ne _ hother]
  kept path hundrawn := by
    have hpaths : path ≠ c.path ∧ path ∉ Course.drawn rest := by
      simpa [Course.drawn, hsequence, not_or] using hundrawn
    rw [h.kept path hpaths.2, hwrite.read_of_ne path hpaths.1]

end EntityAccess

/-! Runs on their way to the first step that changes a row. -/

def Step.fetch? {ε : Type} : Step ε → Option Fetch
  | ⟨.fetch spec statement, .ok first⟩ => some ⟨spec, statement, first⟩
  | _ => none

private theorem Step.fetches_of_kind {ε : Type} {step : Step ε} (h : step.ask.kind ≠ .fetch) :
    [step].filterMap Step.fetch? = [] := by
  obtain ⟨ask, answer⟩ := step
  cases ask
  case fetch spec st => exact absurd rfl h
  all_goals rfl

namespace Parties

variable {σ ε : Type} (p : Parties σ ε)

/-- A run comes from one course to another, through steps that come before any execution. -/
structure Comes (course : Course ε) (state : SessionState σ) (front : List (Step ε))
    (other : Course ε) (after : SessionState σ) : Prop where
  trace : p.trace course state = front ++ p.trace other after
  run : p.run course state = p.run other after
  early : ∀ step ∈ front, step.ask.kind.late = false

variable {p} {course other last : Course ε} {state after final : SessionState σ}
  {front back : List (Step ε)} {goal : Step ε}

private theorem comes_self : p.Comes course state [] course state := ⟨rfl, rfl, by simp⟩

theorem Comes.trans (h : p.Comes course state front other after)
    (hlast : p.Comes other after back last final) :
    p.Comes course state (front ++ back) last final where
  trace := by rw [h.trace, hlast.trace, List.append_assoc]
  run := h.run.trans hlast.run
  early := List.forall_mem_append.mpr ⟨h.early, hlast.early⟩

theorem Comes.mem (h : p.Comes course state front other after)
    (hgoal : goal ∈ p.trace course state) (hlate : goal.ask.kind.late = true) :
    goal ∈ p.trace other after := by
  rw [h.trace] at hgoal
  refine (List.mem_append.mp hgoal).resolve_left fun hfront => ?_
  rw [h.early goal hfront] at hlate
  contradiction

theorem Comes.front_subset (h : p.Comes course state front other after) :
    front ⊆ p.trace course state := by
  rw [h.trace]
  exact List.subset_append_left _ _

private theorem comes_step {ask : Ask ε} {next : ask.Answer → Course ε} {answer : ask.Answer}
    (h : p.perform ask state = (.ok answer, after)) (hearly : ask.kind.late = false) :
    p.Comes (.step ask next) state [⟨ask, .ok answer⟩] (next answer) after where
  trace := by
    rw [trace, h]
    rfl
  run := Attempt.bind_of_ok h
  early := by simpa using hearly

theorem exists_comes {ask : Ask ε} {next : ask.Answer → Course ε}
    (hgoal : goal ∈ p.trace (.step ask next) state) (hlate : goal.ask.kind.late = true)
    (hearly : ask.kind.late = false) :
    ∃ answer after, p.perform ask state = (.ok answer, after) ∧
      p.Comes (.step ask next) state [⟨ask, .ok answer⟩] (next answer) after := by
  match hperform : p.perform ask state with
  | (.ok answer, after) => exact ⟨answer, after, rfl, comes_step hperform hearly⟩
  | (.error e, after) =>
    rw [trace, hperform, List.mem_singleton] at hgoal
    subst hgoal
    rw [hearly] at hlate
    contradiction

theorem exists_comes_logged {logs : Bool} {st : Statement}
    (hgoal : goal ∈ p.trace (.logged logs st other) state) (hlate : goal.ask.kind.late = true) :
    ∃ front after, p.Comes (.logged logs st other) state front other after ∧
      front.filterMap Step.fetch? = [] ∧ after.allocator = state.allocator := by
  cases logs with
  | false => exact ⟨[], state, comes_self, rfl, rfl⟩
  | true =>
    obtain ⟨_, after, hperform, hcomes⟩ := exists_comes hgoal hlate rfl
    refine ⟨_, after, hcomes, rfl, ?_⟩
    have hspares := Operation.sparesAllocator_outside (p.session.logger.statement st) state
    change (p.perform (.log st) state).2.allocator = _ at hspares
    rwa [hperform] at hspares

private theorem allocator_of_fetch {spec : SequenceSpec} {st : Statement} {first : Int64}
    (h : p.perform (.fetch spec st) state = (.ok first, after)) :
    after.allocator = state.allocator.reserve spec first := by
  obtain ⟨found, between, hfetch, h⟩ := Attempt.exists_of_bind_ok h
  cases h
  have hspares := Operation.sparesAllocator_attempt QueryError.execution (p.executor.fetch st) state
  rw [hfetch] at hspares
  exact congrArg (·.reserve spec first) hspares

theorem exists_comes_draw {logs : Bool} {spec : SequenceSpec} {next : Int64 → Course ε}
    (hgoal : goal ∈ p.trace (.draw logs spec next) state) (hlate : goal.ask.kind.late = true) :
    ∃ id front after, p.Comes (.draw logs spec next) state front (next id) after ∧
      ∀ more, state.allocator.next spec (Allocator.answered spec)
        (front.filterMap Step.fetch? ++ more) = some ((id, after.allocator), more) := by
  obtain ⟨reserved, between, hperform, hreserve⟩ := exists_comes hgoal hlate rfl
  have hgoal := hreserve.mem hgoal hlate
  cases htake : state.allocator.take? spec with
  | some found =>
    have hfound : p.perform (.reserve spec) state =
        (.ok (some found.1), { state with allocator := found.2 }) := by
      simp only [perform, htake]
    cases hperform.symm.trans hfound
    exact ⟨found.1, _, _, hreserve, fun more => Allocator.next_answered_iff.mpr (.inl ⟨htake, rfl⟩)⟩
  | none =>
    have hnone : p.perform (.reserve spec) state = (.ok none, state) := by
      simp only [perform, htake]
    cases hperform.symm.trans hnone
    obtain ⟨st, rendered, hperform, hrender⟩ := exists_comes hgoal hlate rfl
    obtain ⟨-, rfl⟩ := Operation.ofExcept_eq_ok_iff.mp hperform
    have hgoal := hrender.mem hgoal hlate
    obtain ⟨front, logged, hlog, hnone, hkept⟩ := exists_comes_logged hgoal hlate
    obtain ⟨first, fetched, hperform, hfetch⟩ := exists_comes (hlog.mem hgoal hlate) hlate rfl
    refine ⟨first, _, fetched, hreserve.trans (hrender.trans (hlog.trans hfetch)), fun more => ?_⟩
    refine Allocator.next_answered_iff.mpr (.inr ⟨htake, ?_, ⟨spec, st, first⟩, ?_, rfl, rfl⟩)
    · rw [allocator_of_fetch hperform, hkept]
    · have hfetches : List.filterMap Step.fetch?
          (front ++ [(⟨.fetch spec st, .ok first⟩ : Step ε)]) = [⟨spec, st, first⟩] := by
        rw [List.filterMap_append, hnone]
        rfl
      exact congrArg (· ++ more) hfetches

/-- On the way to the statement the entity is identified, as far as its writes are faithful. -/
theorem exists_comes_identify {logs : Bool} {next : ε → Course ε} (columns : List Column)
    {entity : ε} (hgoal : goal ∈ p.trace (.identify logs p.access.read next columns entity) state)
    (hlate : goal.ask.kind.late = true) :
    ∃ complete front after,
      p.Comes (.identify logs p.access.read next columns entity) state front (next complete) after ∧
      ((columns.map (·.path)).Nodup → p.access.FaithfulIn front → ∃ draws,
        p.access.Identifies columns entity state.allocator (front.filterMap Step.fetch?) draws
          complete after.allocator) := by
  induction columns generalizing entity state with
  | nil => exact ⟨entity, [], state, comes_self, fun _ _ => ⟨[], EntityAccess.identifies_nil⟩⟩
  | cons c rest ih =>
    unfold Course.identify at hgoal ⊢
    cases hsequence : c.sequence? with
    | none =>
      simp only [hsequence] at hgoal ⊢
      obtain ⟨complete, front, after, hcomes, hidentifies⟩ := ih hgoal
      refine ⟨complete, front, after, hcomes, fun hpaths hfaithful => ?_⟩
      obtain ⟨draws, hdraws⟩ := hidentifies (List.nodup_cons.mp hpaths).2 hfaithful
      exact ⟨draws, hdraws.skip hsequence⟩
    | some spec =>
      simp only [hsequence] at hgoal ⊢
      obtain ⟨id, front, drawn, hdraw, hnext⟩ := exists_comes_draw hgoal hlate
      have hgoal := hdraw.mem hgoal hlate
      obtain ⟨assigned, written, hperform, hassign⟩ := exists_comes hgoal hlate rfl
      have hkept : drawn.allocator = written.allocator := congrArg (·.2.allocator) hperform
      obtain ⟨complete, back, after, hcomes, hidentifies⟩ := ih (hassign.mem hgoal hlate)
      refine ⟨complete, _, after, (hdraw.trans hassign).trans hcomes, fun hpaths hfaithful => ?_⟩
      obtain ⟨hpath, hrest⟩ := List.nodup_cons.mp hpaths
      have hwrite := hfaithful _ _ _ _
        (List.mem_append_left back (List.mem_append_right front (List.mem_singleton_self _)))
      obtain ⟨draws, hdraws⟩ :=
        hidentifies hrest (hfaithful.mono (List.subset_append_right _ _))
      rw [← hkept] at hdraws
      rw [List.filterMap_append, List.filterMap_append,
        Step.fetches_of_kind (by simp [Ask.kind]), List.append_nil]
      exact ⟨_, hdraws.cons hpath hsequence hnext hwrite⟩

theorem ask_of_mem_conclude {m : Metamodel} {st : Statement} {complete : ε}
    (h : goal ∈ p.trace (.conclude .insert m st complete) state) :
    goal.ask = .execute .insert m st ∨ goal.ask = .hook (.after .insert) m complete := by
  have hfollows := p.follows_trace (.conclude .insert m st complete) state
  rcases Course.follows_step_iff.mp hfollows with ⟨e, hsteps, -⟩ | ⟨rows, rest, hsteps, hrest⟩
  · rw [hsteps, List.mem_singleton] at h
    exact .inl (congrArg Step.ask h)
  · obtain ⟨answer, rfl, -⟩ := Course.after_cases hrest
    rw [hsteps, List.mem_pair] at h
    exact h.imp (congrArg Step.ask) (congrArg Step.ask)

private theorem fetches_conclude (m : Metamodel) (st : Statement) (complete : ε) :
    (p.trace (.conclude .insert m st complete) state).filterMap Step.fetch? = [] := by
  rw [List.filterMap_eq_nil_iff]
  rintro ⟨ask, answer⟩ hstep
  rcases ask_of_mem_conclude hstep with rfl | rfl <;> rfl

private theorem sparesAllocator_conclude (m : Metamodel) (st : Statement) (complete : ε) :
    Operation.SparesAllocator (p.run (.conclude .insert m st complete)) :=
  .bind (p.sparesAllocator_perform m fun _ => rfl) fun _ =>
    .bind (p.sparesAllocator_perform m fun _ => rfl) fun _ _ => rfl

/-- An insertion that gets to its execution has identified the entity that the hook gave on, and
has its statement from the complete entity. -/
theorem exists_comes_conclude {operation : Mutation} {entity : ε} {m : Metamodel} {st : Statement}
    {answer : Except QueryError Nat}
    (h : ⟨.execute operation m st, answer⟩ ∈ p.trace (p.course .insert entity) state) :
    operation = .insert ∧ ∃ prepared complete front after,
      p.Comes (p.course .insert entity) state front (.conclude .insert m st complete) after ∧
      ⟨.hook (.before .insert) m entity, .ok prepared⟩ ∈ front ∧
      ((m.ids.map (·.path)).Nodup → p.access.FaithfulIn front → ∃ draws,
        p.access.Identifies m.ids prepared state.allocator (front.filterMap Step.fetch?) draws
          complete after.allocator) ∧
      ∃ q, Insert.ofEntity m (p.access.read complete) = .ok q ∧
        (Query.insert q).compile p.session.config.dialect p.session.config.logStatements =
          .ok st := by
  obtain ⟨found, looked, hperform, hlookup⟩ := exists_comes h rfl rfl
  have hlooked := Operation.sparesAllocator_metamodel p.session p.type state
  rw [show p.session.metamodel p.type state = (.ok found, looked) from hperform] at hlooked
  have h := hlookup.mem h rfl
  obtain ⟨prepared, hooked, hperform, hhook⟩ := exists_comes h rfl rfl
  have hhooked : looked.allocator = hooked.allocator := congrArg (·.2.allocator) hperform
  have h := hhook.mem h rfl
  obtain ⟨complete, front, drawn, hidentify, hidentifies⟩ := exists_comes_identify found.ids h rfl
  have h := hidentify.mem h rfl
  obtain ⟨compiled, _, hperform, hcompile⟩ := exists_comes h rfl rfl
  obtain ⟨hst, rfl⟩ := Operation.ofExcept_eq_ok_iff.mp hperform
  obtain ⟨query, hquery, hst⟩ := Except.bind_eq_ok_iff.mp hst
  obtain ⟨q, hq, rfl⟩ := Except.map_eq_ok_iff.mp hquery
  have h := hcompile.mem h rfl
  obtain ⟨logged, after, hlog, hnone, hkept⟩ := exists_comes_logged h rfl
  -- What is executed is what was just compiled, since nothing else is executed from here on.
  rcases ask_of_mem_conclude (hlog.mem h rfl) with hask | hask
  · cases hask
    have hready := hlookup.trans (hhook.trans (hidentify.trans (hcompile.trans hlog)))
    refine ⟨rfl, prepared, complete, _, after, hready, by simp, ?_, q, hq, hst⟩
    intro hpaths hfaithful
    obtain ⟨draws, hdraws⟩ :=
      hidentifies hpaths (hfaithful.mono fun step hstep => by simp [hstep])
    rw [← hhooked, hlooked, ← hkept] at hdraws
    refine ⟨draws, ?_⟩
    simp only [List.filterMap_append]
    rw [Step.fetches_of_kind (by simp [Ask.kind]), Step.fetches_of_kind (by simp [Ask.kind]),
      Step.fetches_of_kind (by simp [Ask.kind]), hnone]
    simpa using hdraws
  · cases hask

end Parties

/-! The row. -/

namespace Metamodel

variable {m : Metamodel}

private theorem fed_subset_supplied (m : Metamodel) :
    m.ids.filter (·.sequence?.isSome) ⊆ m.supplied := by
  intro c hc
  obtain ⟨hid, hfed⟩ := List.mem_filter.mp hc
  refine List.mem_filter.mpr ⟨m.ids_subset hid, ?_⟩
  unfold Column.sequence? at hfed
  unfold Column.isIdentity
  split at hfed
  next spec hgeneration => simp [hgeneration]
  next => cases hfed

private theorem path_mem_drawn_iff (hcompatible : m.columns.Pairwise Column.Compatible) {c : Column}
    (hc : c ∈ m.columns) :
    c.path ∈ Course.drawn m.ids ↔ c ∈ m.ids.filter (·.sequence?.isSome) := by
  refine ⟨fun hdrawn => ?_, List.mem_map_of_mem⟩
  obtain ⟨other, hother, hpath⟩ := List.mem_map.mp hdrawn
  have hmem := m.ids_subset (List.mem_of_mem_filter hother)
  rwa [← m.eq_of_path_eq hcompatible hmem hc hpath]

end Metamodel

namespace EntityAccess

variable {σ ε : Type} {access : EntityAccess σ ε} {m : Metamodel} {prepared complete : ε}
  {a b : Allocator} {fetches : List Fetch} {draws : List (SequenceSpec × Int64)}

theorem Identifies.current_of_fed
    (h : access.Identifies m.ids prepared a fetches draws complete b) :
    List.Forall₂ (fun c draw => c ∈ m.supplied ∧ c.sequence? = some draw.1 ∧
      Metamodel.current (access.read complete) c =
        ⟨.int draw.2, ((access.read prepared c.path).map (·.type)).getD .bigInt⟩)
      (m.ids.filter (·.sequence?.isSome)) draws := by
  refine ((List.forall₂_and_left _ _).mpr ⟨fun c hc => hc, h.identified⟩).imp ?_
  rintro c draw ⟨hc, hdraw⟩
  refine ⟨m.fed_subset_supplied hc, hdraw.sequence, ?_⟩
  rw [Metamodel.current, hdraw.read, Option.getD_some]

theorem Identifies.read_of_not_fed (hcompatible : m.columns.Pairwise Column.Compatible)
    (h : access.Identifies m.ids prepared a fetches draws complete b) {c : Column}
    (hc : c ∈ m.supplied) (hfed : c ∉ m.ids.filter (·.sequence?.isSome)) :
    access.read complete c.path = access.read prepared c.path := by
  have hmem : c ∈ m.columns := List.mem_of_mem_filter hc
  exact h.kept c.path (mt (Metamodel.path_mem_drawn_iff hcompatible hmem).mp hfed)

end EntityAccess

namespace Insert

/-- The INSERT of one row, with a value for each column that the database does not fill in. -/
def rowDraft (d : Dialect) (m : Metamodel) (values : List Value) : Draft :=
  .sql "INSERT INTO " ++ d.tableDraft m.table ++ .sql " (" ++ d.columnList m.supplied ++
    .sql ") VALUES " ++ (Draft.bindAll values ", ").paren

theorem values_rowDraft (d : Dialect) (m : Metamodel) (values : List Value) :
    (rowDraft d m values).values = values := by
  simp [rowDraft, Draft.paren, d.values_tableDraft, d.values_columnList]

open Metamodel

variable {d : Dialect} {log : Bool} {m : Metamodel} {read : String → Option Value} {q : Insert}
  {row : List (String × Value)} {draft : Draft} {st : Statement}

theorem eq_of_ofEntity (h : Insert.ofEntity m read = .ok q) :
    (∀ c ∈ m.supplied, read c.path = some (current read c)) ∧
      q = { target := m, rows := [m.supplied.map fun c => (c.path, current read c)] } := by
  obtain ⟨row, hrow, rfl⟩ := Except.map_eq_ok_iff.mp h
  exact ⟨read_of_mapM_valueOf hrow, by rw [eq_map_of_mapM_valueOf hrow]⟩

theorem given?_supplied (hcompatible : m.columns.Pairwise Column.Compatible)
    (value : Column → Value) {c : Column} (hc : c ∈ m.supplied) :
    m.given? (m.supplied.map fun c => (c.path, value c)) c = some (value c) := by
  have hcolumn : ∀ other ∈ m.supplied, m.column? other.path = some other :=
    fun other hother => column?_of_mem hcompatible (List.mem_of_mem_filter hother)
  rw [given?, List.find?_map]
  cases hfound : m.supplied.find? _ with
  | none => exact absurd (hcolumn c hc) (by simpa using List.find?_eq_none.mp hfound c hc)
  | some found =>
    have hsame : m.column? found.path = some c := by simpa using List.find?_some hfound
    rw [hcolumn found (List.mem_of_find?_eq_some hfound)] at hsame
    cases hsame
    rfl

theorem draft_of_row (h : Insert.draft d { target := m, rows := [row] } = .ok draft) :
    ∃ values, rowValues m row = .ok values ∧ draft = rowDraft d m values := by
  unfold Insert.draft at h
  obtain ⟨-, h⟩ := Except.guard_eq_ok_iff.mp h
  obtain ⟨tuples, htuples, rfl⟩ := Except.map_eq_ok_iff.mp h
  cases Except.forall₂_of_mapM_eq_ok htuples with
  | cons hfirst hrest =>
    cases hrest
    obtain ⟨values, hvalues, rfl⟩ := Except.map_eq_ok_iff.mp hfirst
    exact ⟨values, hvalues, rfl⟩

theorem statement_of_ofEntity (hcompatible : m.columns.Pairwise Column.Compatible)
    (hbare : ∀ name ∈ m.bareNames, Region.Plain name.toList) (h : Insert.ofEntity m read = .ok q)
    (hst : (Query.insert q).compile d log = .ok st) :
    st = (rowDraft d m (m.supplied.map (current read))).finish log ∧
      st.Binds (rowDraft d m (m.supplied.map (current read))).bindings := by
  obtain ⟨-, rfl⟩ := eq_of_ofEntity h
  obtain ⟨draft, hdraft, -, rfl⟩ := Query.compile_eq_ok_iff.mp hst
  have hneutral := (Query.madeOf_of_draft_eq_ok hdraft).neutral hbare
  obtain ⟨values, hvalues, rfl⟩ := draft_of_row hdraft
  have hyields := yields_rowValues hcompatible (m.supplied.map fun c => (c.path, current read c))
  rw [hvalues] at hyields
  have hgiven := mapM_eq_some_of_forall₂ (List.forall₂_map_right_iff.mpr
    (List.forall₂_same.mpr fun c hc => given?_supplied hcompatible (current read) hc))
  cases hyields.2.symm.trans hgiven
  exact ⟨rfl, (Draft.binds_finish_iff _ log).mpr (Draft.aligned_of_neutral hneutral)⟩

end Insert

namespace Parties

variable {σ ε : Type}

/-- What comes from the execution on asks for no values, so an insertion uses up its fetches before
it. -/
theorem handOut_of_comes {p : Parties σ ε} {entity prepared complete : ε}
    {state last : SessionState σ} {front : List (Step ε)} {m : Metamodel} {st : Statement}
    {draws : List (SequenceSpec × Int64)}
    (hcomes : p.Comes (p.course .insert entity) state front (.conclude .insert m st complete) last)
    (h : p.access.Identifies m.ids prepared state.allocator (front.filterMap Step.fetch?) draws
      complete last.allocator) :
    state.allocator.handOut (m.ids.filterMap (·.sequence?))
        ((p.trace (p.course .insert entity) state).filterMap Step.fetch?) =
      some ((draws, (p.mutate .insert entity state).2.allocator), []) := by
  have hafter : (p.mutate .insert entity state).2.allocator = last.allocator := by
    rw [mutate_eq_run, hcomes.run]
    exact sparesAllocator_conclude m st complete last
  rw [hafter, hcomes.trace, List.filterMap_append, fetches_conclude]
  exact h.handOut []

/-- What an insertion executes, if it gets that far, is the INSERT of one row over all columns that
the database does not fill in. Columns that a sequence feeds have the values that the allocator
hands out for them in the order of the identifier, typed as what they replace; the values of one
sequence name are those that it hands out for this name alone. All others are as the hook before
the insertion gave them on, and the hook after it gets an entity with the values of the row. -/
theorem inserted_row (p : Parties σ ε) {descriptor : Descriptor} {m : Metamodel}
    (haccepted : Metamodel.ofDescriptor descriptor = .ok m)
    (hbare : ∀ name ∈ m.bareNames, Region.Plain name.toList) (entity : ε) (state : SessionState σ)
    (hfaithful : p.access.FaithfulIn (p.trace (p.course .insert entity) state))
    {operation : Mutation} {st : Statement} {answer : Except QueryError Nat}
    (hexecute : ⟨.execute operation m st, answer⟩ ∈ p.trace (p.course .insert entity) state) :
    let steps := p.trace (p.course .insert entity) state
    let after := (p.mutate .insert entity state).2
    let fetches := steps.filterMap Step.fetch?
    let specs := m.ids.filterMap (·.sequence?)
    let fed := m.ids.filter (·.sequence?.isSome)
    let row := Insert.rowDraft p.session.config.dialect m
    p.Performed state steps after ∧ operation = .insert ∧ ∃ prepared draws value,
      ⟨.hook (.before .insert) m entity, .ok prepared⟩ ∈ steps ∧
      state.allocator.handOut specs fetches = some ((draws, after.allocator), []) ∧
      (∀ name, ∃ b, state.allocator.handOut (specs.filter (·.name == name))
        (fetches.filter (·.spec.name == name)) = some ((draws.filter (·.1.name == name), b), [])) ∧
      List.Forall₂ (fun c draw => c ∈ m.supplied ∧ c.sequence? = some draw.1 ∧
        value c =
          ⟨.int draw.2, ((p.access.read prepared c.path).map (·.type)).getD .bigInt⟩) fed draws ∧
      (∀ c ∈ m.supplied, c ∉ fed → p.access.read prepared c.path = some (value c)) ∧
      st = (row (m.supplied.map value)).finish p.session.config.logStatements ∧
      st.Binds (row (m.supplied.map value)).bindings ∧ st.values = m.supplied.map value ∧
      ∀ m' complete answer, ⟨.hook (.after .insert) m' complete, answer⟩ ∈ steps →
        m' = m ∧ ∀ c ∈ m.supplied, p.access.read complete c.path = some (value c) := by
  intro steps after fetches specs fed row
  obtain ⟨rfl, prepared, complete, front, last, hcomes, hhook, hidentifies, q, hq, hst⟩ :=
    exists_comes_conclude hexecute
  have hcompatible := Metamodel.compatible_of_ofDescriptor haccepted
  have hpaths := Metamodel.nodup_paths_ids haccepted
  obtain ⟨draws, hdraws⟩ := hidentifies hpaths (hfaithful.mono hcomes.front_subset)
  have hhandOut := handOut_of_comes hcomes hdraws
  obtain ⟨hread, rfl⟩ := Insert.eq_of_ofEntity hq
  obtain ⟨hfinish, hbinds⟩ := Insert.statement_of_ofEntity hcompatible hbare hq hst
  refine ⟨?_, rfl, prepared, draws, Metamodel.current (p.access.read complete),
    hcomes.front_subset hhook, hhandOut, fun name => Allocator.handOut_filter rfl hhandOut,
    hdraws.current_of_fed, ?_, hfinish, hbinds, ?_, ?_⟩
  · have hperformed := p.performed_trace (p.course .insert entity) state
    rwa [← mutate_eq_run] at hperformed
  · intro c hc hfed
    rw [← hdraws.read_of_not_fed hcompatible hc hfed]
    exact hread c hc
  · rw [hfinish]
    exact Insert.values_rowDraft _ _ _
  · intro m' given answer hafter
    rcases ask_of_mem_conclude (hcomes.mem hafter rfl) with hask | hask
    · cases hask
    · cases hask
      exact ⟨rfl, hread⟩

theorem faithfulIn_trace {p : Parties σ ε} (course : Course ε) (state : SessionState σ)
    (h : ∀ entries, p.access.FaithfulFor entries) : p.access.FaithfulIn (p.trace course state) := by
  intro path value before after hmem
  obtain ⟨earlier, hperform⟩ := (p.performed_trace course state).exists_state hmem
  have hassign := Except.mapError_eq_ok_iff.mp hperform
  exact h [(path, value)] _ (List.mem_singleton_self _) before after _ _ (Prod.ext hassign rfl)

end Parties

theorem Record.faithfulFor (entries : List (String × Value)) :
    Record.access.FaithfulFor entries := by
  rintro ⟨path, value⟩ - r after earlier later hassign
  have h : r.write path value = .ok after := congrArg Prod.fst hassign
  have hstored : after = r.store path value := by
    unfold write at h
    split at h
    · exact (Except.ok.inj h).symm
    · split at h
      · cases h
      · exact (Except.ok.inj h).symm
      · split at h
        · exact (Except.ok.inj h).symm
        · cases h
  rw [hstored]
  exact ⟨r.read_store_self path value, fun other hother => r.read_store_of_ne value hother⟩

/-- Legs of routes and boxes are numbered in turn. -/
def legs : SequenceSpec := { name := "legs", increment := 2 }

def parcel : EntityType where
  key := 0
  descriptor := {
    name := "Parcel"
    members := [
      .property "no" [.id, .identity],
      .embedded "route" { name := "Route", members := [.property "leg" [.id, .sequence legs]] },
      .property "depot" [.id], .property "box" [.id, .sequence legs], .property "note" []] }

def legColumn : Column := ⟨"route.leg", "leg", "leg", false, some (.sequence legs)⟩

def boxColumn : Column := ⟨"box", "box", "box", false, some (.sequence legs)⟩

def parcels : Metamodel where
  entity := "Parcel"
  table := { name := "Parcel" }
  columns := [
    ⟨"no", "no", "no", false, some .identity⟩, legColumn,
    ⟨"depot", "depot", "depot", false, none⟩, boxColumn, ⟨"note", "note", "note", false, none⟩]
  slots := { ids := [0, 1, 2, 3] }
  identifierLess := false
  embedded := [("route", {
    entity := "Route"
    table := { name := "Route" }
    columns := [{ legColumn with path := "leg" }]
    slots := { ids := [0] }
    identifierLess := true
    embedded := [] })]

def parcelParties : Parties Stage Record where
  session := register
  type := parcel
  access := Record.access
  listener := .idle
  executor := Stage.executor

/-- The leg had a null of its own type before, the box had nothing. -/
def smallParcel : Record where
  values := [("route.leg", .null .integer), ("depot", .integer 3), ("note", .text "x")]

/-- One number is left in reserve. -/
def oneLegLeft : SessionState Stage where
  allocator := { blocks := [("legs", ⟨8, 1⟩)] }
  surroundings := { sequence := [.ok 40] }

def parcelSteps : List (Step Record) :=
  parcelParties.trace (parcelParties.course .insert smallParcel) oneLegLeft

def parcelInsert : Statement where
  text := "INSERT INTO Parcel (leg, depot, box, note) VALUES (?, ?, ?, ?)"
  values := [⟨.int 8, .integer⟩, .integer 3, .bigInt 40, .text "x"]
  log := none

theorem smallParcel_row :
    Metamodel.ofDescriptor parcel.descriptor = .ok parcels ∧
    (∀ name ∈ parcels.bareNames, Region.Plain name.toList) ∧
    parcelParties.access.FaithfulIn parcelSteps ∧
    ⟨.execute .insert parcels parcelInsert, .ok 1⟩ ∈ parcelSteps ∧
    (∃ b, oneLegLeft.allocator.handOut [legs, legs] (parcelSteps.filterMap Step.fetch?) =
      some (([(legs, 8), (legs, 40)], b), [])) ∧
    parcelInsert.Binds (Insert.rowDraft .generic parcels parcelInsert.values).bindings ∧
    ∀ m complete answer, ⟨.hook (.after .insert) m complete, answer⟩ ∈ parcelSteps →
      complete.read "route.leg" = some ⟨.int 8, .integer⟩ ∧
        complete.read "box" = some (.bigInt 40) := by
  have haccepted : Metamodel.ofDescriptor parcel.descriptor = .ok parcels := rfl
  have hbare : ∀ name ∈ parcels.bareNames, Region.Plain name.toList := by decide
  have hfaithful : parcelParties.access.FaithfulIn parcelSteps :=
    Parties.faithfulIn_trace _ _ Record.faithfulFor
  have hexecute : ⟨.execute .insert parcels parcelInsert, .ok 1⟩ ∈ parcelSteps :=
    List.mem_of_getElem? (i := 9) rfl
  obtain ⟨-, -, prepared, draws, value, -, hhandOut, -, hfed, -, -, hbinds, hvalues, hafter⟩ :=
    parcelParties.inserted_row haccepted hbare smallParcel oneLegLeft hfaithful hexecute
  have hleg : value legColumn = ⟨.int 8, .integer⟩ := (List.cons.inj hvalues).1.symm
  have hbox : value boxColumn = .bigInt 40 :=
    (List.cons.inj (List.cons.inj (List.cons.inj hvalues).2).2).1.symm
  have hdraws : draws = [(legs, 8), (legs, 40)] := by
    obtain ⟨⟨spec, id⟩, others, ⟨-, hspec, hid⟩, hothers, rfl⟩ :=
      List.forall₂_cons_left_iff.mp hfed
    obtain ⟨⟨spec', id'⟩, rest, ⟨-, hspec', hid'⟩, hrest, rfl⟩ :=
      List.forall₂_cons_left_iff.mp hothers
    obtain rfl := List.forall₂_nil_left_iff.mp hrest
    cases hspec
    cases hspec'
    cases congrArg Value.datum (hleg.symm.trans hid)
    cases congrArg Value.datum (hbox.symm.trans hid')
    rfl
  subst hdraws
  rw [← hvalues] at hbinds
  refine ⟨haccepted, hbare, hfaithful, hexecute, ⟨_, hhandOut⟩, hbinds, ?_⟩
  intro m complete answer hmem
  have hread := (hafter m complete answer hmem).2
  rw [← hleg, ← hbox]
  exact ⟨hread legColumn (.head _), hread boxColumn (.tail _ (.tail _ (.head _)))⟩

end EntitySql
