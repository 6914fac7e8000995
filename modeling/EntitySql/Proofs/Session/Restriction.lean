import EntitySql.Proofs.Metamodel.Registry
import EntitySql.Proofs.Query.Binding
import EntitySql.Proofs.Query.Restriction
import EntitySql.Proofs.Session.Version

/-!
No mutation without a restriction. Mutations by criteria need a where clause with something in it,
unless the session allows otherwise, and mutations of an entity never touch another row, whatever
the session allows.
-/

namespace EntitySql

namespace Registry

/-- A registry holds what it has built, and nothing else. -/
def Sound (r : Registry) : Prop :=
  ∀ entry ∈ r.entries, ∃ descriptor, Metamodel.ofDescriptor descriptor = .ok entry.2

theorem sound_empty : Sound {} := by
  intro entry hentry
  cases hentry

theorem Sound.lookup {r : Registry} (h : r.Sound) {type : EntityType} {found : Lookup}
    (hfound : r.lookup type = .ok found) :
    (∃ descriptor, Metamodel.ofDescriptor descriptor = .ok found.metamodel) ∧
      found.registry.Sound := by
  rcases r.lookup_cases type with ⟨m, hfind, hlookup⟩ | ⟨m, -, hbuilt, hlookup⟩ |
    ⟨e, -, -, hlookup⟩ <;> rw [hlookup] at hfound <;> cases hfound
  · obtain ⟨before, after, hentries, -⟩ := List.lookup_eq_some_iff.mp hfind
    exact ⟨h (type.key, m) (by simp [hentries]), h⟩
  · refine ⟨⟨_, hbuilt⟩, List.forall_mem_append.mpr ⟨h, ?_⟩⟩
    rw [List.forall_mem_singleton]
    exact ⟨_, hbuilt⟩

end Registry

namespace Session

variable {σ : Type} (s : Session σ) {type : EntityType} {state : SessionState σ}

theorem accepted_of_metamodel (hregistry : state.registry.Sound) {m : Metamodel}
    (h : (s.metamodel type state).1 = .ok m) :
    ∃ descriptor, Metamodel.ofDescriptor descriptor = .ok m := by
  match hlookup : state.registry.lookup type with
  | .error e =>
    rw [s.metamodel_of_lookup_error hlookup] at h
    cases h
  | .ok found =>
    rw [s.metamodel_of_lookup hlookup] at h
    cases h
    exact (hregistry.lookup hlookup).1

theorem sound_metamodel (hregistry : state.registry.Sound) :
    (s.metamodel type state).2.registry.Sound := by
  match hlookup : state.registry.lookup type with
  | .error e =>
    rw [s.metamodel_of_lookup_error hlookup]
    exact hregistry
  | .ok found =>
    rw [s.metamodel_of_lookup hlookup]
    exact (hregistry.lookup hlookup).2

end Session

def Mutation.kind : Mutation → QueryKind
  | .insert => .insert
  | .update => .update
  | .delete => .delete

def Mutation.Heads (d : Dialect) (m : Metamodel) : Mutation → Draft → Prop
  | .insert, _ => False
  | .update, head => ∃ items, head = Update.head d m items
  | .delete, head => head = Delete.head d m

/-- The mutation consists of what it does, its where clause, and paging. -/
def Statement.RestrictedTo (st : Statement) (config : Config) (operation : Mutation)
    (m : Metamodel) (predicate paging : Draft) : Prop :=
  ∃ head, operation.Heads config.dialect m head ∧
    st = (head ++ .sql " WHERE " ++ predicate ++ paging).finish config.logStatements

/-- The mutation is restricted as declared, and there was something declared. -/
def Statement.RestrictedBy (st : Statement) (config : Config) (operation : Mutation)
    (m : Metamodel) (declared : List Declaration) : Prop :=
  ∃ criteria predicate paging, Criteria.build declared = .ok criteria ∧ criteria.tests ≠ [] ∧
    config.dialect.predicate m criteria.restrictions = .ok predicate ∧ predicate.chars ≠ [] ∧
    config.dialect.mutationPaging operation.kind m criteria = .ok paging ∧
    st.RestrictedTo config operation m predicate paging

/-- The mutation is restricted to the identifier and the version that an entity has. -/
def Statement.RestrictedToRow (st : Statement) (config : Config) (operation : Mutation)
    (m : Metamodel) (read : String → Option Value) : Prop :=
  m.ids ≠ [] ∧ ∃ value : Column → Value,
    (∀ c ∈ m.ids ++ m.version.toList, read c.path = some (value c)) ∧
      st.RestrictedTo config operation m (.sepBy " AND "
        ((m.ids ++ m.version.toList).map fun c => config.dialect.keyDraft c (value c))) ∅

namespace Session

open Operation

variable {σ : Type} {s : Session σ} {type : EntityType} {declared : List Declaration}
  {st : Statement} {state after : SessionState σ}

theorem exists_of_criteria {query : Metamodel → Criteria → Query}
    (h : (do
      let criteria ← ofExcept .criteria (Criteria.build declared)
      let target ← s.metamodel type
      s.compile (query target criteria) : Operation σ Statement) state = (.ok st, after)) :
    ∃ criteria m draft, Criteria.build declared = .ok criteria ∧
      (s.metamodel type state).1 = .ok m ∧ (query m criteria).draft s.config.dialect = .ok draft ∧
      st = draft.finish s.config.logStatements := by
  obtain ⟨criteria, _, hbuilt, h⟩ := Attempt.exists_of_bind_ok h
  obtain ⟨hcriteria, rfl⟩ := ofExcept_eq_ok_iff.mp hbuilt
  obtain ⟨m, found, hm, h⟩ := Attempt.exists_of_bind_ok h
  obtain ⟨compiled, between, hcompiled, h⟩ := Attempt.exists_of_bind_ok h
  obtain ⟨_, logged, -, h⟩ := Attempt.exists_of_bind_ok h
  cases h
  obtain ⟨draft, hdraft, -, hst⟩ := Query.compile_eq_ok_iff.mp (ofExcept_eq_ok_iff.mp hcompiled).1
  exact ⟨criteria, m, draft, hcriteria, by rw [hm], hdraft, hst⟩

theorem restrictedBy_of_updateWhere (hwhere : s.config.allowMissingWhere = false)
    {assignments : List Assignment}
    (h : s.updateWhere type assignments declared state = (.ok st, after)) :
    ∃ m, (s.metamodel type state).1 = .ok m ∧ st.RestrictedBy s.config .update m declared := by
  obtain ⟨criteria, m, draft, hcriteria, hm, hdraft, rfl⟩ := exists_of_criteria h
  obtain ⟨hrequired, hparts⟩ := Update.draft_eq_ok hdraft
  obtain ⟨items, predicate, paging, hpredicate, hpaging, rfl⟩ := hparts (hrequired hwhere)
  have htests := Criteria.tests_ne_nil_of_build hcriteria (hrequired hwhere)
  exact ⟨m, hm, criteria, predicate, paging, hcriteria, htests, hpredicate,
    Dialect.chars_predicate_ne_nil hpredicate htests, hpaging, _, ⟨items, rfl⟩, rfl⟩

theorem restrictedBy_of_deleteWhere (hwhere : s.config.allowMissingWhere = false)
    (h : s.deleteWhere type declared state = (.ok st, after)) :
    ∃ m, (s.metamodel type state).1 = .ok m ∧ st.RestrictedBy s.config .delete m declared := by
  obtain ⟨criteria, m, draft, hcriteria, hm, hdraft, rfl⟩ := exists_of_criteria h
  obtain ⟨hrequired, hparts⟩ := Delete.draft_eq_ok hdraft
  obtain ⟨predicate, paging, hpredicate, hpaging, rfl⟩ := hparts (hrequired hwhere)
  have htests := Criteria.tests_ne_nil_of_build hcriteria (hrequired hwhere)
  exact ⟨m, hm, criteria, predicate, paging, hcriteria, htests, hpredicate,
    Dialect.chars_predicate_ne_nil hpredicate htests, hpaging, _, rfl, rfl⟩

end Session

namespace Course

variable {ε : Type} {steps : List (Step ε)} {result : Except QueryError ε}

/-- An update or a deletion that executes anything has found its metamodel and been through the
hook, and what it executes was compiled from what the hook gave on. -/
theorem Follows.steps_of_execute {logs : Bool} {read : ε → String → Option Value}
    {operation operation' : Mutation} {entity : ε} {m : Metamodel} {st : Statement}
    {answer : Except QueryError Nat} (hrow : operation ≠ .insert)
    (h : (ofMutation logs read operation entity).Follows steps result) (hchecked : Checked steps)
    (hmem : ⟨.execute operation' m st, answer⟩ ∈ steps) :
    operation' = operation ∧ ∃ prepared rest,
      steps = ⟨.lookup, .ok m⟩ :: ⟨.hook (.before operation) m entity, .ok prepared⟩ ::
        ⟨.compile operation m prepared, .ok st⟩ :: rest := by
  rcases follows_step_iff.mp h with ⟨e, rfl, -⟩ | ⟨found, afterLookup, rfl, hprepare⟩
  · simp at hmem
  rcases follows_step_iff.mp hprepare with ⟨e, rfl, -⟩ | ⟨prepared, afterHook, rfl, hsubmit⟩
  · simp at hmem
  have hmem : ⟨.execute operation' m st, answer⟩ ∈ afterHook := by simpa using hmem
  have hnone : identified found operation = [] := by cases operation <;> trivial
  rw [hnone, identify] at hsubmit
  have hother : ∀ front : List (Step ε),
      (∀ kind ∈ kinds front, kind ∈ submitOrder logs (versioned found operation)) →
      ⟨.execute operation' m st, answer⟩ ∉ front := by
    intro front hfront hexecute
    have hlate := not_late_of_mem_submit _ (hfront _ (List.mem_map_of_mem hexecute))
    simp [Ask.kind, Ask.Kind.late] at hlate
  rcases submit_cases hsubmit with ⟨hkinds, -⟩ |
    ⟨compiled, front, back, advanced, rfl, hfront, hback⟩
  · exact absurd hmem (hother afterHook fun kind hkind => hkinds.subset hkind)
  · have hbackChecked : Checked back := fun m rows answer hlock => hchecked m rows answer
      (by simp [hlock])
    obtain ⟨executed, rest, rfl, honce, -⟩ := exists_execute hback hbackChecked
    rcases List.mem_append.mp hmem with hmem | hmem
    · exact absurd hmem (hother _ fun kind hkind => hfront ▸ hkind)
    · rcases List.mem_cons.mp hmem with heq | hmem
      · cases heq
        exact ⟨rfl, prepared, _, rfl⟩
      · exact absurd rfl (honce _ hmem)

end Course

namespace Parties

variable {σ ε : Type} {p : Parties σ ε}

theorem sound_perform (ask : Ask ε) {state : SessionState σ} (h : state.registry.Sound) :
    (p.perform ask state).2.registry.Sound := by
  by_cases hask : ask = .lookup
  · rw [hask]
    exact p.session.sound_metamodel h
  · rwa [registry_perform hask]

theorem sound_run (course : Course ε) {state : SessionState σ} (h : state.registry.Sound) :
    (p.run course state).2.registry.Sound := by
  induction course generalizing state with
  | done entity => exact h
  | step ask next ih =>
    rw [run_step, Attempt.bind_apply]
    have hkept := p.sound_perform ask h
    match hperform : p.perform ask state with
    | (.ok answer, after) =>
      rw [hperform] at hkept
      exact ih answer hkept
    | (.error e, after) =>
      rw [hperform] at hkept
      exact hkept

theorem restrictedToRow_of_compile {operation : Mutation} (hrow : operation ≠ .insert)
    {m : Metamodel} (hcompatible : m.columns.Pairwise Column.Compatible) {prepared : ε}
    {st : Statement} {state : SessionState σ}
    (h : (p.perform (.compile operation m prepared) state).1 = .ok st) :
    st.RestrictedToRow p.session.config operation m (p.access.read prepared) := by
  obtain ⟨query, hquery, hst⟩ := Except.bind_eq_ok_iff.mp (Except.mapError_eq_ok_iff.mp h)
  obtain ⟨draft, hdraft, -, rfl⟩ := Query.compile_eq_ok_iff.mp hst
  cases operation with
  | insert => contradiction
  | update =>
    obtain ⟨q, hq, rfl⟩ := Except.map_eq_ok_iff.mp hquery
    obtain ⟨hlocates, items, rfl⟩ := Update.draft_of_ofEntity hq hcompatible hdraft
    exact ⟨hlocates.identified, _, hlocates.read_eq, _, ⟨items, rfl⟩, by
      rw [Draft.append_empty]
      rfl⟩
  | delete =>
    obtain ⟨q, hq, rfl⟩ := Except.map_eq_ok_iff.mp hquery
    obtain ⟨hlocates, rfl⟩ := Delete.draft_of_ofEntity hq hcompatible hdraft
    exact ⟨hlocates.identified, _, hlocates.read_eq, _, rfl, by
      rw [Draft.append_empty]
      rfl⟩

/-- What an update or a deletion executes was compiled for the row of the entity that the hook gave
on. -/
theorem restrictedToRow_of_execute {state : SessionState σ} (hregistry : state.registry.Sound)
    {operation operation' : Mutation} (hrow : operation ≠ .insert) {entity : ε} {m : Metamodel}
    {st : Statement} {answer : Except QueryError Nat}
    (hmem : ⟨.execute operation' m st, answer⟩ ∈ p.trace (p.course operation entity) state) :
    operation' = operation ∧ (p.session.metamodel p.type state).1 = .ok m ∧ ∃ prepared,
      ⟨.hook (.before operation) m entity, .ok prepared⟩ ∈
        p.trace (p.course operation entity) state ∧
      st.RestrictedToRow p.session.config operation m (p.access.read prepared) := by
  have hperformed := p.performed_trace (p.course operation entity) state
  have hfollows := p.follows_trace (p.course operation entity) state
  obtain ⟨rfl, prepared, rest, hsteps⟩ := hfollows.steps_of_execute hrow hperformed.checked hmem
  have hcompiled : ⟨.compile operation' m prepared, .ok st⟩ ∈
      p.trace (p.course operation' entity) state := by simp [hsteps]
  obtain ⟨before, hcompile⟩ := hperformed.exists_state hcompiled
  rw [hsteps] at hperformed ⊢
  have hfound : (p.session.metamodel p.type state).1 = .ok m := by
    cases hperformed with
    | cons hlookup _ => exact congrArg Prod.fst hlookup
  obtain ⟨descriptor, haccepted⟩ := p.session.accepted_of_metamodel hregistry hfound
  exact ⟨rfl, hfound, prepared, by simp,
    restrictedToRow_of_compile hrow (Metamodel.compatible_of_ofDescriptor haccepted) hcompile⟩

/-- What a session compiles as a mutation by criteria has a where clause with a test in it, unless
the session allows mutations without. What it executes as an update or a deletion of an entity
tests all that identifies the entity, as the hook gave it on, and nothing else; where nothing
identifies an entity nothing is executed. -/
theorem mutations_restricted (p : Parties σ ε) {state : SessionState σ}
    (hregistry : state.registry.Sound) :
    (p.session.config.allowMissingWhere = false → ∀ type declared st after,
      (∀ assignments, p.session.updateWhere type assignments declared state = (.ok st, after) →
        ∃ m, (p.session.metamodel type state).1 = .ok m ∧
          st.RestrictedBy p.session.config .update m declared) ∧
      (p.session.deleteWhere type declared state = (.ok st, after) →
        ∃ m, (p.session.metamodel type state).1 = .ok m ∧
          st.RestrictedBy p.session.config .delete m declared)) ∧
    ∀ operation, operation ≠ .insert → ∀ entity,
      let steps := p.trace (p.course operation entity) state
      let after := (p.mutate operation entity state).2
      p.Performed state steps after ∧ after.registry.Sound ∧
        (∀ operation' m st answer, ⟨.execute operation' m st, answer⟩ ∈ steps →
          operation' = operation ∧ (p.session.metamodel p.type state).1 = .ok m ∧ ∃ prepared,
            ⟨.hook (.before operation) m entity, .ok prepared⟩ ∈ steps ∧
            st.RestrictedToRow p.session.config operation m (p.access.read prepared)) ∧
        ∀ m, (p.session.metamodel p.type state).1 = .ok m → m.ids = [] →
          ∀ step ∈ steps, step.ask.kind ≠ .execute := by
  refine ⟨fun hwhere type declared st after =>
    ⟨fun assignments => Session.restrictedBy_of_updateWhere hwhere,
      Session.restrictedBy_of_deleteWhere hwhere⟩, ?_⟩
  intro operation hrow entity
  have hperformed := p.performed_trace (p.course operation entity) state
  have hsound := p.sound_run (p.course operation entity) hregistry
  rw [← mutate_eq_run] at hperformed hsound
  refine ⟨hperformed, hsound,
    fun operation' m st answer hmem => restrictedToRow_of_execute hregistry hrow hmem, ?_⟩
  rintro m hfound hnone ⟨ask, answer⟩ hmem hkind
  cases ask with
  | execute operation' m' st =>
    obtain ⟨-, hfound', prepared, -, hids, -⟩ := restrictedToRow_of_execute hregistry hrow hmem
    cases Except.ok.inj (hfound.symm.trans hfound')
    exact hids hnone
  | _ => cases hkind

end Parties

def firstMemoUpdate : Statement where
  text := "UPDATE Memo SET body = ?, version = ? WHERE id = ? AND version IS NULL"
  values := [.text "x", .bigInt 1, .bigInt 1]
  log := none

def memoPurge : List Declaration :=
  [.restrict [], .restrict [.group .or [.test (.isNull false "body")]]]

theorem memo_mutations_restricted :
    (∃ st after, memoParties.session.deleteWhere memo memoPurge { surroundings := {} } =
        (.ok st, after) ∧ st.text = "DELETE FROM Memo WHERE (body IS NULL)" ∧
      ∃ m, st.RestrictedBy memoParties.session.config .delete m memoPurge) ∧
    ⟨.execute .update memos firstMemoUpdate, .ok 1⟩ ∈ memoSteps (.null .bigInt) ∧
    ∃ prepared, ⟨.hook (.before .update) memos (memoWith (.null .bigInt)), .ok prepared⟩ ∈
        memoSteps (.null .bigInt) ∧
      firstMemoUpdate.RestrictedToRow memoParties.session.config .update memos
        (memoParties.access.read prepared) := by
  have hregistry : ({ surroundings := {} } : SessionState Stage).registry.Sound :=
    Registry.sound_empty
  obtain ⟨hwhere, hrow⟩ := memoParties.mutations_restricted hregistry
  constructor
  · obtain ⟨st, after, hdelete, htext⟩ : ∃ st after,
        memoParties.session.deleteWhere memo memoPurge { surroundings := {} } = (.ok st, after) ∧
        st.text = "DELETE FROM Memo WHERE (body IS NULL)" := ⟨_, _, rfl, rfl⟩
    obtain ⟨m, -, hrestricted⟩ := (hwhere rfl memo memoPurge st after).2 hdelete
    exact ⟨st, after, hdelete, htext, m, hrestricted⟩
  · have hexecute : ⟨.execute .update memos firstMemoUpdate, .ok 1⟩ ∈ memoSteps (.null .bigInt) :=
      .tail _ (.tail _ (.tail _ (.tail _ (.head _))))
    obtain ⟨-, -, hexecuted, -⟩ := hrow .update (by decide) (memoWith (.null .bigInt))
    obtain ⟨-, -, hprepared⟩ := hexecuted .update memos firstMemoUpdate (.ok 1) hexecute
    exact ⟨hexecute, hprepared⟩

end EntitySql
