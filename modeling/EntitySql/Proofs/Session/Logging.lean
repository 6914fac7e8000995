import EntitySql.Proofs.Session.Outlook
import EntitySql.Proofs.Session.Provenance
import EntitySql.Proofs.Session.Requests
import EntitySql.Proofs.Session.Version

/-!
Logging stays aside. A session that logs and one that does not, asked for the same things, answer
the same and have the same executed. All that tells them apart is what the logger hears, which is
one rendering for each statement that is compiled, before anything else is done with it.
-/

namespace EntitySql

def Statement.rendered (st : Statement) : Statement :=
  { st with log := some (renderLog st.text st.values) }

theorem Draft.build_log (draft : Draft) (wrap : StatementError → CompileError) :
    (draft.build true).mapError wrap =
      ((draft.build false).mapError wrap).map Statement.rendered := by
  unfold build Statement.make
  split <;> rfl

theorem Query.compile_log (d : Dialect) (q : Query) :
    q.compile d true = (q.compile d false).map Statement.rendered := by
  unfold compile
  cases q.draft d with
  | error e => rfl
  | ok draft => exact draft.build_log .statement

theorem SequenceSpec.statement_log (d : Dialect) (spec : SequenceSpec) :
    spec.statement d true = (spec.statement d false).map Statement.rendered := by
  unfold statement
  cases d.sequenceSql? (d.enquote spec.name spec.quoted) with
  | none => rfl
  | some sql => exact (Draft.sql sql).build_log .statement

/-- The calls that are due to the same work, of a session that logs and of one that does not.
`ready` is the statement that has just been logged, as long as nothing else is done with it. -/
inductive Heard : Option Statement → List Statement → List Call → List Call → Prop
  | nil {ready : Option Statement} : Heard ready [] [] []
  | logged {ready : Option Statement} {st : Statement} {compiled : List Statement}
      {loud quiet : List Call} :
      Heard (some st) compiled loud quiet →
      Heard ready (st.rendered :: compiled) (.log st.rendered.log :: loud) quiet
  | fetched {st : Statement} {compiled : List Statement} {loud quiet : List Call} :
      Heard none compiled loud quiet →
      Heard (some st) compiled (.fetch st.rendered :: loud) (.fetch st :: quiet)
  | executed {st : Statement} {compiled : List Statement} {loud quiet : List Call} :
      Heard none compiled loud quiet →
      Heard (some st) compiled (.execute st.rendered :: loud) (.execute st :: quiet)

/-- The last of the calls has logged the statement, when it was its turn among those compiled. -/
def Announced (compiled : List Statement) (calls : List Call) (st : Statement) : Prop :=
  ∃ earlier done rest, calls = earlier ++ [.log (some (renderLog st.text st.values))] ∧
    compiled = done ++ st :: rest ∧
    earlier.filterMap Call.logged? = done.map fun st => some (renderLog st.text st.values)

namespace Announced

variable {compiled : List Statement} {calls : List Call} {st : Statement}

theorem log {other : Statement} (h : Announced compiled calls st) :
    Announced (other.rendered :: compiled) (.log other.rendered.log :: calls) st := by
  obtain ⟨earlier, done, rest, rfl, rfl, hearlier⟩ := h
  exact ⟨_ :: earlier, _ :: done, rest, rfl, rfl, congrArg (_ :: ·) hearlier⟩

theorem cons {call : Call} (hcall : call.logged? = none) (h : Announced compiled calls st) :
    Announced compiled (call :: calls) st := by
  obtain ⟨earlier, done, rest, rfl, rfl, hearlier⟩ := h
  refine ⟨call :: earlier, done, rest, rfl, rfl, ?_⟩
  rwa [List.filterMap_cons_none hcall]

end Announced

namespace Heard

variable {ready : Option Statement} {compiled compiled' : List Statement}
  {loud loud' quiet quiet' : List Call}

private theorem weaken (h : Heard none compiled loud quiet) : Heard ready compiled loud quiet := by
  cases h with
  | nil => exact .nil
  | logged h => exact .logged h

theorem append (h : Heard ready compiled loud quiet) (h' : Heard none compiled' loud' quiet') :
    Heard ready (compiled ++ compiled') (loud ++ loud') (quiet ++ quiet') := by
  induction h with
  | nil => exact h'.weaken
  | logged _ ih => exact .logged ih
  | fetched _ ih => exact .fetched ih
  | executed _ ih => exact .executed ih

private theorem quiet_unlogged (h : Heard ready compiled loud quiet) :
    ∀ call ∈ quiet, call.logged? = none := by
  induction h with
  | nil => simp
  | logged _ ih => exact ih
  | fetched _ ih => exact List.forall_mem_cons.mpr ⟨rfl, ih⟩
  | executed _ ih => exact List.forall_mem_cons.mpr ⟨rfl, ih⟩

private theorem received_eq (h : Heard ready compiled loud quiet) :
    loud.filterMap Call.received? = quiet.filterMap Call.received? := by
  induction h with
  | nil => rfl
  | logged _ ih => exact ih
  | fetched _ ih => exact congrArg (Call.fetch _ :: ·) ih
  | executed _ ih => exact congrArg (Call.execute _ :: ·) ih

private theorem logged_eq (h : Heard ready compiled loud quiet) :
    loud.filterMap Call.logged? = compiled.map fun st => some (renderLog st.text st.values) := by
  induction h with
  | nil => rfl
  | logged _ ih => exact congrArg (_ :: ·) ih
  | fetched _ ih => exact ih
  | executed _ ih => exact ih

theorem announced (h : Heard ready compiled loud quiet) {before after : List Call} {call : Call}
    {st : Statement} (hloud : loud = before ++ call :: after) (hst : call.statement? = some st) :
    before = [] ∧ ready.map Statement.rendered = some st ∨ Announced compiled before st := by
  induction h generalizing before with
  | nil => simp at hloud
  | @logged ready logged compiled loud quiet _ ih =>
    cases before with
    | nil =>
      obtain ⟨rfl, -⟩ := List.cons.inj hloud
      cases hst
    | cons first before =>
      obtain ⟨rfl, hrest⟩ := List.cons.inj hloud
      rcases ih hrest with ⟨rfl, hlogged⟩ | hannounced
      · obtain rfl := Option.some.inj hlogged
        exact .inr ⟨[], [], compiled, rfl, rfl, rfl⟩
      · exact .inr hannounced.log
  | fetched _ ih | executed _ ih =>
    cases before with
    | nil =>
      obtain ⟨rfl, -⟩ := List.cons.inj hloud
      exact .inl ⟨rfl, hst⟩
    | cons first before =>
      obtain ⟨rfl, hrest⟩ := List.cons.inj hloud
      rcases ih hrest with ⟨-, hnone⟩ | hannounced
      · cases hnone
      · exact .inr (hannounced.cons rfl)

end Heard

/-- Two runs that have come, from alike states, to alike states again. -/
structure Outlook.Echoes {τ : Type} (o : Outlook τ) (ready : Option Statement)
    (compiled : List Statement) (x y x' y' : τ) : Prop where
  alike : o.alike x' y'
  heard : ∃ loud quiet, o.calls x' = o.calls x ++ loud ∧ o.calls y' = o.calls y ++ quiet ∧
    Heard ready compiled loud quiet

namespace Outlook

variable {τ : Type} {o : Outlook τ} {x y x' y' x'' y'' : τ} {ready : Option Statement}
  {compiled more : List Statement} {loud quiet : List Call}

theorem echoes_refl (h : o.alike x y) : o.Echoes ready [] x y x y :=
  ⟨h, [], [], (o.unheard x y).1, (o.unheard x y).2, .nil⟩

/-- Calls that fit in front of what is heard later. -/
theorem Echoes.after {next : Option Statement} (h : o.Echoes next more x' y' x'' y'')
    (hloud : o.calls x' = o.calls x ++ loud) (hquiet : o.calls y' = o.calls y ++ quiet)
    (hheard : ∀ {loud' quiet'}, Heard next more loud' quiet' →
      Heard ready compiled (loud ++ loud') (quiet ++ quiet')) :
    o.Echoes ready compiled x y x'' y'' := by
  obtain ⟨halike, loud', quiet', hloud', hquiet', hlater⟩ := h
  refine ⟨halike, loud ++ loud', quiet ++ quiet', ?_, ?_, hheard hlater⟩
  · rw [hloud', hloud, List.append_assoc]
  · rw [hquiet', hquiet, List.append_assoc]

theorem Echoes.trans (h : o.Echoes ready compiled x y x' y')
    (h' : o.Echoes none more x' y' x'' y'') : o.Echoes ready (compiled ++ more) x y x'' y'' := by
  obtain ⟨-, loud, quiet, hloud, hquiet, hheard⟩ := h
  exact h'.after hloud hquiet hheard.append

end Outlook

namespace Session

variable {σ : Type} {o : Outlook σ} {s : Session σ}

def logging (s : Session σ) (logs : Bool) : Session σ :=
  { s with config := { s.config with logStatements := logs } }

/-- No one notices that the logger of the session is called, but the calls leave their trace. -/
structure Discreet (s : Session σ) (o : Outlook σ) : Prop where
  logged : ∀ st x, o.calls (s.logger.statement st x).2 = o.calls x ++ [.log st.log]
  unnoticed : ∀ st x y, o.alike x y → o.alike (s.logger.statement st x).2 y
  notified : ∀ d, o.Agree (s.subscriber.receive d) (s.subscriber.receive d) [] []

theorem Discreet.agree_debug (h : s.Discreet o) (d : Diagnostic) :
    o.Agree (s.subscriber.debug d) (s.subscriber.debug d) [] [] := by
  unfold Subscriber.debug
  split
  · exact h.notified d
  · exact Outlook.agree_pure ()

theorem Discreet.agree_metamodel (h : s.Discreet o) (type : EntityType) :
    o.session.Agree (s.metamodel type) (s.metamodel type) [] [] := by
  rintro x y ⟨hregistry, hallocator, hxy⟩
  have hsame : x.registry.lookup type = y.registry.lookup type := by rw [hregistry]
  match hlookup : y.registry.lookup type with
  | .error e =>
    rw [s.metamodel_of_lookup_error hlookup, s.metamodel_of_lookup_error (hsame.trans hlookup)]
    exact ⟨rfl, ⟨hregistry, hallocator, hxy⟩, o.session.unheard x y⟩
  | .ok found =>
    rw [s.metamodel_of_lookup hlookup, s.metamodel_of_lookup (hsame.trans hlookup)]
    have hnotified : o.Agree (fun x => ((), s.notified found x)) (fun x => ((), s.notified found x))
        [] [] := by
      unfold Session.notified
      cases found.isNew with
      | true => exact h.agree_debug _
      | false => exact Outlook.agree_pure ()
    obtain ⟨-, halike, hcalls⟩ := hnotified _ _ hxy
    exact ⟨rfl, ⟨rfl, hallocator, halike⟩, hcalls⟩

theorem Discreet.agree_log (h : s.Discreet o) (st st' : Statement) :
    o.session.Agree ((s.logging true).log st) ((s.logging false).log st') [.log st.log] [] := by
  rintro x y ⟨hregistry, hallocator, hxy⟩
  exact ⟨rfl, ⟨hregistry, hallocator, h.unnoticed st _ _ hxy⟩, h.logged st _,
    (o.session.unheard x y).2⟩

end Session

def Step.compiled? {ε : Type} : Step ε → Option Statement
  | ⟨.render _, .ok st⟩ => some st
  | ⟨.compile _ _ _, .ok st⟩ => some st
  | _ => none

namespace Parties

open Operation

variable {σ ε : Type}

def logging (p : Parties σ ε) (logs : Bool) : Parties σ ε :=
  { p with session := p.session.logging logs }

def compiled (p : Parties σ ε) (course : Course ε) (state : SessionState σ) : List Statement :=
  (p.trace course state).filterMap Step.compiled?

/-- To those who take part statements of the same text and values are the same. -/
structure Impartial (p : Parties σ ε) (o : Outlook σ) : Prop where
  hooked : ∀ hook m entity,
    o.Agree (p.listener.run hook m entity) (p.listener.run hook m entity) [] []
  assigned : ∀ path value entity,
    o.Agree (p.access.assign path value entity) (p.access.assign path value entity) [] []
  fetched : ∀ st st', st.text = st'.text → st.values = st'.values →
    o.Agree (p.executor.fetch st) (p.executor.fetch st') [.fetch st] [.fetch st']
  executed : ∀ st st', st.text = st'.text → st.values = st'.values →
    o.Agree (p.executor.execute st) (p.executor.execute st') [.execute st] [.execute st']

/-- From alike states, the first course of a session that logs and the second of one that does not
come to the same. -/
def Echo (p : Parties σ ε) (o : Outlook σ) (ready : Option Statement) (c c' : Course ε) : Prop :=
  ∀ x y, o.session.alike x y →
    ((p.logging true).run c x).1 = ((p.logging false).run c' y).1 ∧
      o.session.Echoes ready ((p.logging true).compiled c x) x y
        ((p.logging true).run c x).2 ((p.logging false).run c' y).2

variable {p : Parties σ ε} {o : Outlook σ} {ready after : Option Statement}
  {loud quiet : List Call} {c c' : Course ε}

theorem echo_done (entity : ε) : p.Echo o ready (.done entity) (.done entity) :=
  fun _ _ hxy => ⟨rfl, Outlook.echoes_refl hxy⟩

theorem echo_of_agree {α : Type} {f f' : Operation σ α} {k k' : α → Course ε}
    (hloud : (p.logging true).run c = f >>= fun a => (p.logging true).run (k a))
    (hquiet : (p.logging false).run c' = f' >>= fun a => (p.logging false).run (k' a))
    (hcompiled : ∀ {x a x'}, f x = (.ok a, x') →
      (p.logging true).compiled c x = (p.logging true).compiled (k a) x')
    (hfailed : ∀ {x e x'}, f x = (.error e, x') → (p.logging true).compiled c x = [])
    (hagree : o.session.Agree f f' loud quiet)
    (hheard : ∀ {compiled loud' quiet'}, Heard after compiled loud' quiet' →
      Heard ready compiled (loud ++ loud') (quiet ++ quiet'))
    (hnext : ∀ a, p.Echo o after (k a) (k' a)) : p.Echo o ready c c' := by
  intro x y hxy
  obtain ⟨result, x', y', hx, hy, halike, hcalls, hcalls'⟩ := hagree.attempts hxy
  rw [hloud, hquiet, Attempt.bind_apply, Attempt.bind_apply, hx, hy]
  cases result with
  | error e =>
    rw [hfailed hx]
    exact ⟨rfl, (Outlook.echoes_refl halike).after hcalls hcalls' hheard⟩
  | ok a =>
    rw [hcompiled hx]
    obtain ⟨hresult, hechoes⟩ := hnext a x' y' halike
    exact ⟨hresult, hechoes.after hcalls hcalls' hheard⟩

private theorem compiled_of_ok (p : Parties σ ε) {ask : Ask ε} {next : ask.Answer → Course ε}
    {answer : ask.Answer} {state after : SessionState σ}
    (h : p.perform ask state = (.ok answer, after)) :
    p.compiled (.step ask next) state =
      (Step.compiled? ⟨ask, .ok answer⟩).toList ++ p.compiled (next answer) after := by
  rw [compiled, trace, h]
  dsimp only
  rw [List.filterMap_cons]
  cases Step.compiled? ⟨ask, .ok answer⟩ <;> rfl

private theorem compiled_of_error (p : Parties σ ε) {ask : Ask ε} {next : ask.Answer → Course ε}
    {e : QueryError} {state after : SessionState σ} (h : p.perform ask state = (.error e, after)) :
    p.compiled (.step ask next) state = [] := by
  rw [compiled, trace, h]
  dsimp only
  rw [List.filterMap_cons_none, List.filterMap_nil]
  cases ask <;> rfl

theorem echo_aside {ask : Ask ε} {next next' : ask.Answer → Course ε}
    (hask : ∀ answer, Step.compiled? ⟨ask, answer⟩ = none)
    (hagree : o.session.Agree ((p.logging true).perform ask) ((p.logging false).perform ask) [] [])
    (hnext : ∀ answer, p.Echo o ready (next answer) (next' answer)) :
    p.Echo o ready (.step ask next) (.step ask next') :=
  echo_of_agree rfl rfl (fun h => by rw [compiled_of_ok _ h, hask]; rfl)
    (fun h => compiled_of_error _ h) hagree id hnext

theorem Impartial.agree_fetch (h : p.Impartial o) (spec : SequenceSpec) (st : Statement) :
    o.session.Agree ((p.logging true).perform (ε := ε) (.fetch spec st.rendered))
      ((p.logging false).perform (.fetch spec st)) [.fetch st.rendered] [.fetch st] :=
  (Outlook.agree_attempt (h.fetched st.rendered st rfl rfl)).bind fun first =>
    .bind (Outlook.agree_allocator (fun a => (.ok ⟨⟩, a.reserve spec first)) fun _ => rfl) fun _ =>
      Outlook.agree_return _

theorem Impartial.agree_execute (h : p.Impartial o) (hdiscreet : p.session.Discreet o)
    (operation : Mutation) (m : Metamodel) (st : Statement) :
    o.session.Agree ((p.logging true).perform (ε := ε) (.execute operation m st.rendered))
      ((p.logging false).perform (.execute operation m st)) [.execute st.rendered] [.execute st] :=
  (Outlook.agree_attempt (h.executed st.rendered st rfl rfl)).bind fun _ =>
    (Outlook.agree_outside (hdiscreet.agree_debug _)).bind fun _ => Outlook.agree_return _

theorem echo_fetch (himpartial : p.Impartial o) {spec : SequenceSpec} {st : Statement}
    {next next' : Int64 → Course ε} (hnext : ∀ id, p.Echo o none (next id) (next' id)) :
    p.Echo o (some st) (.step (.fetch spec st.rendered) next) (.step (.fetch spec st) next') :=
  echo_of_agree rfl rfl (fun h => compiled_of_ok _ h) (fun h => compiled_of_error _ h)
    (himpartial.agree_fetch spec st) .fetched hnext

theorem echo_execute (hdiscreet : p.session.Discreet o) (himpartial : p.Impartial o)
    {operation : Mutation} {m : Metamodel} {st : Statement} {next next' : Nat → Course ε}
    (hnext : ∀ rows, p.Echo o none (next rows) (next' rows)) :
    p.Echo o (some st) (.step (.execute operation m st.rendered) next)
      (.step (.execute operation m st) next') :=
  echo_of_agree rfl rfl (fun h => compiled_of_ok _ h) (fun h => compiled_of_error _ h)
    (himpartial.agree_execute hdiscreet operation m st) .executed hnext

theorem echo_logged (hdiscreet : p.session.Discreet o) {st : Statement} {next next' : Course ε}
    (hnext : p.Echo o (some st) next next') {x y : SessionState σ} (hxy : o.session.alike x y) :
    ((p.logging true).run (.logged true st.rendered next) x).1 =
        ((p.logging false).run (.logged false st next') y).1 ∧
      o.session.Echoes ready
        (st.rendered :: (p.logging true).compiled (.logged true st.rendered next) x) x y
        ((p.logging true).run (.logged true st.rendered next) x).2
        ((p.logging false).run (.logged false st next') y).2 := by
  obtain ⟨-, halike, hcalls, hcalls'⟩ := hdiscreet.agree_log st.rendered st x y hxy
  obtain ⟨hresult, hechoes⟩ := hnext _ _ halike
  exact ⟨hresult, hechoes.after hcalls hcalls' .logged⟩

theorem echo_of_compiled (hdiscreet : p.session.Discreet o) {f f' : Operation σ Statement}
    {result : Except CompileError Statement} {next next' : Statement → Course ε}
    (hf : f = ofExcept .compile (result.map Statement.rendered))
    (hf' : f' = ofExcept .compile result)
    (hloud : (p.logging true).run c = f >>= fun st =>
      (p.logging true).run (.logged true st (next st)))
    (hquiet : (p.logging false).run c' = f' >>= fun st =>
      (p.logging false).run (.logged false st (next' st)))
    (hcompiled : ∀ {x st}, f x = (.ok st, x) → (p.logging true).compiled c x =
      st :: (p.logging true).compiled (.logged true st (next st)) x)
    (hfailed : ∀ {x e}, f x = (.error e, x) → (p.logging true).compiled c x = [])
    (hnext : ∀ st, p.Echo o (some st) (next st.rendered) (next' st)) : p.Echo o ready c c' := by
  intro x y hxy
  subst hf hf'
  rw [hloud, hquiet]
  cases result with
  | error e =>
    rw [hfailed rfl]
    exact ⟨rfl, Outlook.echoes_refl hxy⟩
  | ok st =>
    rw [hcompiled rfl]
    exact echo_logged hdiscreet (hnext st) hxy

theorem echo_render (hdiscreet : p.session.Discreet o) {spec : SequenceSpec}
    {next next' : Statement → Course ε}
    (hnext : ∀ st, p.Echo o (some st) (next st.rendered) (next' st)) :
    p.Echo o ready (.step (.render spec) fun st => .logged true st (next st))
      (.step (.render spec) fun st => .logged false st (next' st)) := by
  have hperform : (p.logging true).perform (ε := ε) (.render spec) = ofExcept .compile
      ((spec.statement p.session.config.dialect false).map Statement.rendered) := by
    rw [← SequenceSpec.statement_log]
    rfl
  exact echo_of_compiled hdiscreet hperform rfl rfl rfl (fun h => compiled_of_ok _ h)
    (fun h => compiled_of_error _ h) hnext

theorem echo_compile (hdiscreet : p.session.Discreet o) {operation : Mutation} {m : Metamodel}
    {entity : ε} {next next' : Statement → Course ε}
    (hnext : ∀ st, p.Echo o (some st) (next st.rendered) (next' st)) :
    p.Echo o ready (.step (.compile operation m entity) fun st => .logged true st (next st))
      (.step (.compile operation m entity) fun st => .logged false st (next' st)) := by
  have hperform : (p.logging true).perform (.compile operation m entity) = ofExcept .compile
      ((operation.query m (p.access.read entity) >>= fun q =>
        q.compile p.session.config.dialect false).map Statement.rendered) := by
    change ofExcept .compile (operation.query m (p.access.read entity) >>= fun q =>
      q.compile p.session.config.dialect true) = _
    cases operation.query m (p.access.read entity) with
    | error e => rfl
    | ok q => exact congrArg _ (q.compile_log _)
  exact echo_of_compiled hdiscreet hperform rfl rfl rfl (fun h => compiled_of_ok _ h)
    (fun h => compiled_of_error _ h) hnext

theorem echo_hook (himpartial : p.Impartial o) {hook : Hook} {m : Metamodel} {entity : ε}
    {next next' : ε → Course ε} (hnext : ∀ given, p.Echo o ready (next given) (next' given)) :
    p.Echo o ready (.step (.hook hook m entity) next) (.step (.hook hook m entity) next') :=
  echo_aside (fun _ => rfl) (Outlook.agree_attempt (himpartial.hooked hook m entity)) hnext

theorem echo_assign (himpartial : p.Impartial o) {path : String} {value : Value} {entity : ε}
    {next next' : ε → Course ε}
    (hnext : ∀ assigned, p.Echo o ready (next assigned) (next' assigned)) :
    p.Echo o ready (.step (.assign path value entity) next)
      (.step (.assign path value entity) next') :=
  echo_aside (fun _ => rfl) (Outlook.agree_attempt (himpartial.assigned path value entity)) hnext

theorem echo_draw (hdiscreet : p.session.Discreet o) (himpartial : p.Impartial o)
    {spec : SequenceSpec} {next next' : Int64 → Course ε}
    (hnext : ∀ id, p.Echo o none (next id) (next' id)) :
    p.Echo o none (.draw true spec next) (.draw false spec next') := by
  have hreserve : o.session.Agree ((p.logging true).perform (ε := ε) (.reserve spec))
      ((p.logging false).perform (.reserve spec)) [] [] :=
    Outlook.agree_allocator (fun a =>
      (a.take? spec).elim (.ok none, a) fun drawn => (.ok (some drawn.1), drawn.2)) fun state => by
        unfold perform
        dsimp only
        cases state.allocator.take? spec <;> rfl
  refine echo_aside (fun _ => rfl) hreserve fun found => ?_
  cases found with
  | some id => exact hnext id
  | none => exact echo_render hdiscreet fun st => echo_fetch himpartial hnext

theorem echo_identify (hdiscreet : p.session.Discreet o) (himpartial : p.Impartial o)
    {read : ε → String → Option Value} {next next' : ε → Course ε}
    (hnext : ∀ complete, p.Echo o none (next complete) (next' complete)) (columns : List Column)
    (entity : ε) :
    p.Echo o none (.identify true read next columns entity)
      (.identify false read next' columns entity) := by
  induction columns generalizing entity with
  | nil => exact hnext entity
  | cons c rest ih =>
    unfold Course.identify
    cases c.sequence? with
    | none => exact ih entity
    | some spec =>
      exact echo_draw hdiscreet himpartial fun id => echo_assign himpartial ih

/-- A version is written between logging and execution, but that is no call. -/
theorem echo_advance (himpartial : p.Impartial o) {read : ε → String → Option Value}
    {version : Option Column} {entity : ε} {next next' : ε → Course ε}
    (hnext : ∀ advanced, p.Echo o ready (next advanced) (next' advanced)) :
    p.Echo o ready (.advance read version entity next) (.advance read version entity next') := by
  unfold Course.advance
  cases version with
  | none => exact hnext entity
  | some c => exact echo_assign himpartial hnext

theorem echo_conclude (hdiscreet : p.session.Discreet o) (himpartial : p.Impartial o)
    {operation : Mutation} {m : Metamodel} {st : Statement} (entity : ε) :
    p.Echo o (some st) (.conclude operation m st.rendered entity)
      (.conclude operation m st entity) := by
  have hlock : ∀ rows, o.session.Agree (Session.checkLock m rows) (Session.checkLock m rows)
      [] [] := by
    intro rows
    unfold Session.checkLock
    split
    · exact Outlook.agree_ofExcept id (.error _)
    · exact Outlook.agree_ofExcept id (.ok ())
  have hhook : p.Echo o none (.step (.hook (.after operation) m entity) .done)
      (.step (.hook (.after operation) m entity) .done) := echo_hook himpartial echo_done
  refine echo_execute hdiscreet himpartial fun rows => ?_
  cases operation with
  | insert => exact hhook
  | update | delete => exact echo_aside (fun _ => rfl) (hlock rows) fun _ => hhook

theorem echo_course (hdiscreet : p.session.Discreet o) (himpartial : p.Impartial o)
    (operation : Mutation) (entity : ε) :
    p.Echo o none ((p.logging true).course operation entity)
      ((p.logging false).course operation entity) := by
  refine echo_aside (fun _ => rfl) (hdiscreet.agree_metamodel p.type) fun m => ?_
  refine echo_hook himpartial fun prepared => ?_
  refine echo_identify hdiscreet himpartial (fun complete => ?_) _ prepared
  refine echo_compile hdiscreet fun st => ?_
  exact echo_advance himpartial (echo_conclude hdiscreet himpartial)

end Parties

namespace Session

variable {σ : Type} {o : Outlook σ} {s : Session σ}

private theorem compile_of_ok (s : Session σ) {q : Query} {st : Statement}
    (h : q.compile s.config.dialect s.config.logStatements = .ok st) (state : SessionState σ) :
    s.compile q state = (.ok st, (s.log st state).2) := by
  rw [compile, Attempt.bind_apply, h]
  change (s.log st >>= fun _ => pure st) state = _
  unfold log
  split <;> rfl

private theorem compile_of_error (s : Session σ) {q : Query} {e : CompileError}
    (h : q.compile s.config.dialect s.config.logStatements = .error e) (state : SessionState σ) :
    s.compile q state = (.error (.compile e), state) := by
  rw [compile, Attempt.bind_apply, h]
  rfl

theorem Discreet.agree_query (h : s.Discreet o) (r : Rendering) :
    o.session.Agree (r.query (s.logging true)) (r.query (s.logging false)) [] [] := by
  cases r with
  | compile q => exact Outlook.agree_return q
  | select type declared | count type declared | updateWhere type _ declared
  | deleteWhere type declared =>
    exact (Outlook.agree_ofExcept .criteria (Criteria.build declared)).bind fun criteria =>
      (h.agree_metamodel type).bind fun m => Outlook.agree_return _

theorem Discreet.echoes_perform (h : s.Discreet o) (r : Rendering) {x y : SessionState σ}
    (hxy : o.session.alike x y) :
    (r.perform (s.logging true) x).1 =
        (r.perform (s.logging false) y).1.map Statement.rendered ∧
      o.session.Echoes none (r.perform (s.logging true) x).1.toOption.toList x y
        (r.perform (s.logging true) x).2 (r.perform (s.logging false) y).2 := by
  obtain ⟨result, x', y', hx, hy, halike, hcalls, hcalls'⟩ := (h.agree_query r).attempts hxy
  rw [Rendering.perform_eq, Rendering.perform_eq, Attempt.bind_apply, Attempt.bind_apply, hx, hy]
  cases result with
  | error e => exact ⟨rfl, (Outlook.echoes_refl halike).after hcalls hcalls' id⟩
  | ok q =>
    dsimp only
    cases hq : q.compile s.config.dialect false with
    | error e =>
      have hloud : q.compile s.config.dialect true = .error e := by
        rw [Query.compile_log, hq]
        rfl
      rw [(s.logging true).compile_of_error hloud, (s.logging false).compile_of_error hq]
      exact ⟨rfl, (Outlook.echoes_refl halike).after hcalls hcalls' id⟩
    | ok st =>
      have hloud : q.compile s.config.dialect true = .ok st.rendered := by
        rw [Query.compile_log, hq]
        rfl
      rw [(s.logging true).compile_of_ok hloud, (s.logging false).compile_of_ok hq]
      obtain ⟨-, hlogged, hcall, hcall'⟩ := h.agree_log st.rendered st x' y' halike
      have hechoes : o.session.Echoes none [st.rendered] x' y' _ _ :=
        (Outlook.echoes_refl hlogged).after hcall hcall' .logged
      exact ⟨rfl, hechoes.after hcalls hcalls' id⟩

/-- The reply that a session that logs gives in place of this one. -/
def Reply.rendered : Reply → Reply
  | metamodel result => metamodel result
  | statement result => statement (result.map Statement.rendered)
  | entity result => entity result

def Request.compiled (s : Session σ) (state : SessionState σ) : Request σ → List Statement
  | lookup _ => []
  | render r => (r.perform s state).1.toOption.toList
  | change c => (c.parties s).compiled ((c.parties s).course c.operation c.entity) state

def compiled (s : Session σ) : List (Request σ) → SessionState σ → List Statement
  | [], _ => []
  | r :: rest, state => r.compiled s state ++ s.compiled rest (r.perform s state).2

theorem Discreet.echoes_request (h : s.Discreet o) {r : Request σ}
    (hr : ∀ c, r = .change c → (c.parties s).Impartial o) {x y : SessionState σ}
    (hxy : o.session.alike x y) :
    (r.perform (s.logging true) x).1 = (r.perform (s.logging false) y).1.rendered ∧
      o.session.Echoes none (r.compiled (s.logging true) x) x y
        (r.perform (s.logging true) x).2 (r.perform (s.logging false) y).2 := by
  cases r with
  | lookup type =>
    obtain ⟨hresult, halike, hcalls, hcalls'⟩ := h.agree_metamodel type x y hxy
    exact ⟨congrArg Reply.metamodel hresult, (Outlook.echoes_refl halike).after hcalls hcalls' id⟩
  | render r =>
    obtain ⟨hresult, hechoes⟩ := h.echoes_perform r hxy
    exact ⟨congrArg Reply.statement hresult, hechoes⟩
  | change c =>
    have hdiscreet : (c.parties s).session.Discreet o := h
    obtain ⟨hresult, hechoes⟩ :=
      Parties.echo_course hdiscreet (hr c rfl) c.operation c.entity x y hxy
    rw [← Parties.mutate_eq_run, ← Parties.mutate_eq_run] at hresult hechoes
    exact ⟨congrArg Reply.entity hresult, hechoes⟩

theorem Discreet.echoes_serve (h : s.Discreet o) {requests : List (Request σ)}
    (hrequests : ∀ c, .change c ∈ requests → (c.parties s).Impartial o) {x y : SessionState σ}
    (hxy : o.session.alike x y) :
    ((s.logging true).serve requests x).1 =
        ((s.logging false).serve requests y).1.map Reply.rendered ∧
      o.session.Echoes none ((s.logging true).compiled requests x) x y
        ((s.logging true).serve requests x).2 ((s.logging false).serve requests y).2 := by
  induction requests generalizing x y with
  | nil => exact ⟨rfl, Outlook.echoes_refl hxy⟩
  | cons r rest ih =>
    have hr : ∀ c, r = .change c → (c.parties s).Impartial o := by
      rintro c rfl
      exact hrequests c (List.mem_cons_self ..)
    obtain ⟨hreply, hfirst⟩ := h.echoes_request hr hxy
    obtain ⟨hreplies, hlater⟩ :=
      ih (fun c hc => hrequests c (List.mem_cons_of_mem _ hc)) hfirst.alike
    exact ⟨congrArg₂ List.cons hreply hreplies, hfirst.trans hlater⟩

/-- Two sessions that differ in nothing but whether they log, from equal registries and allocators
and asked for the same, give the same replies, up to renderings, have the same statements executed
and fetched, and end with equal registries and allocators. The one makes no call to its logger. The
logger of the other is called once for each statement that is compiled, in order, with its
rendering, and right before the statement is executed or fetched, if it is. -/
theorem logging_stays_aside (h : s.Discreet o) {requests : List (Request σ)}
    (hrequests : ∀ c, .change c ∈ requests → (c.parties s).Impartial o) {x y : SessionState σ}
    (hregistry : x.registry = y.registry) (hallocator : x.allocator = y.allocator)
    (halike : o.alike x.surroundings y.surroundings) :
    let loud := (s.logging true).serve requests x
    let quiet := (s.logging false).serve requests y
    let compiled := (s.logging true).compiled requests x
    loud.1 = quiet.1.map Reply.rendered ∧ loud.2.registry = quiet.2.registry ∧
      loud.2.allocator = quiet.2.allocator ∧ o.alike loud.2.surroundings quiet.2.surroundings ∧
      ∃ calls calls', o.calls loud.2.surroundings = o.calls x.surroundings ++ calls ∧
        o.calls quiet.2.surroundings = o.calls y.surroundings ++ calls' ∧
        calls.filterMap Call.received? = calls'.filterMap Call.received? ∧
        (∀ call ∈ calls', call.logged? = none) ∧
        calls.filterMap Call.logged? =
          compiled.map (fun st => some (renderLog st.text st.values)) ∧
        ∀ before call after st, calls = before ++ call :: after → call.statement? = some st →
          Announced compiled before st := by
  obtain ⟨hreplies, ⟨hregistry', hallocator', halike'⟩, calls, calls', hcalls, hcalls', hheard⟩ :=
    h.echoes_serve hrequests ⟨hregistry, hallocator, halike⟩
  refine ⟨hreplies, hregistry', hallocator', halike', calls, calls', hcalls, hcalls',
    hheard.received_eq, hheard.quiet_unlogged, hheard.logged_eq, ?_⟩
  intro before call after st hsplit hst
  rcases hheard.announced hsplit hst with ⟨-, hnone⟩ | hannounced
  · cases hnone
  · exact hannounced

end Session

def Event.call? : Event → Option Call
  | .log text => some (.log text)
  | .fetch st => some (.fetch st)
  | .execute st => some (.execute st)
  | .chain _ | .hook _ _ _ | .assign _ _ | .message _ | .diagnostic _ => none

/-- Those on stage go by the script alone, not by the record of what happened. -/
def backstage : Outlook Stage where
  alike x y :=
    x.sequence = y.sequence ∧ x.rows = y.rows ∧ x.failure = y.failure ∧ x.clocks = y.clocks
  calls stage := stage.events.filterMap Event.call?

private theorem calls_record (e : Event) (stage : Stage) :
    backstage.calls (Stage.record e stage).2 = backstage.calls stage ++ e.call?.toList := by
  change (stage.events ++ [e]).filterMap Event.call? = _
  rw [List.filterMap_append]
  cases e <;> rfl

private theorem agree_record (e e' : Event) :
    backstage.Agree (Stage.record e) (Stage.record e') e.call?.toList e'.call?.toList :=
  fun x y hxy => ⟨rfl, hxy, calls_record e x, calls_record e' y⟩

private theorem agree_answerFetch : backstage.Agree Stage.answerFetch Stage.answerFetch [] [] := by
  rintro x y ⟨hsequence, hrest⟩
  unfold Stage.answerFetch
  rw [Attempt.bind_apply, Attempt.bind_apply]
  dsimp only [Attempt.get_apply]
  rw [hsequence]
  cases y.sequence with
  | nil => exact ⟨rfl, ⟨hsequence, hrest⟩, backstage.unheard x y⟩
  | cons answer rest => exact ⟨rfl, ⟨rfl, hrest⟩, backstage.unheard x y⟩

private theorem agree_execute (st st' : Statement) :
    backstage.Agree (Stage.executor.execute st) (Stage.executor.execute st') [.execute st]
      [.execute st'] := by
  refine (Outlook.agree_lift (agree_record (.execute st) (.execute st'))).bind fun _ => ?_
  rintro x y ⟨hsequence, hrows, hfailure, hclocks⟩
  rw [Attempt.bind_apply, Attempt.bind_apply]
  dsimp only [Attempt.get_apply]
  rw [hrows, hfailure]
  cases y.failure <;>
    exact ⟨rfl, ⟨hsequence, hrows, hfailure, hclocks⟩, backstage.unheard x y⟩

theorem discreet_register : register.Discreet backstage where
  logged st x := calls_record (.log st.log) x
  unnoticed _ _ _ hxy := hxy
  notified d := agree_record (.diagnostic d) (.diagnostic d)

def rehearsed (operation : Mutation) (type : EntityType) (entity : Record) : Change Stage :=
  ⟨Record, operation, type, Record.access, .idle, Stage.executor, entity⟩

theorem impartial_rehearsed (operation : Mutation) (type : EntityType) (entity : Record) :
    ((rehearsed operation type entity).parties register).Impartial backstage where
  hooked _ _ given := Outlook.agree_return given
  assigned path value given :=
    (Outlook.agree_lift (agree_record (.assign path value) (.assign path value))).bind fun _ =>
      Outlook.agree_pure (Record.write given path value)
  fetched st st' _ _ :=
    (Outlook.agree_lift (agree_record (.fetch st) (.fetch st'))).bind fun _ => agree_answerFetch
  executed st st' _ _ := agree_execute st st'

def counterDay : List (Session.Request Stage) :=
  [.render (.count memo []),
    .change (rehearsed .insert coupon.type { values := [("id", .null .bigInt)] }),
    .change (rehearsed .update memo (memoWith (.bigInt 4)))]

def counterDayLog : List String :=
  ["SELECT COUNT(*) FROM Memo", "SELECT NEXT VALUE FOR \"numbers\"",
    "INSERT INTO Coupon (id) VALUES (100)",
    "UPDATE Memo SET body = 'x', version = version + 1 WHERE id = 1 AND version = 4"]

theorem counterDay_logged :
    register.Discreet backstage ∧
      (∀ c, .change c ∈ counterDay → (c.parties register).Impartial backstage) ∧
      backstage.alike opening.surroundings opening.surroundings ∧
      ∃ calls calls',
        backstage.calls ((register.logging true).serve counterDay opening).2.surroundings = calls ∧
        backstage.calls ((register.logging false).serve counterDay opening).2.surroundings =
          calls' ∧
        calls.filterMap Call.received? = calls'.filterMap Call.received? ∧
        (∀ call ∈ calls', call.logged? = none) ∧
        calls.filterMap Call.logged? = counterDayLog.map some := by
  have hchanges : ∀ c, .change c ∈ counterDay → (c.parties register).Impartial backstage := by
    intro c hc
    simp only [counterDay, List.mem_cons, List.not_mem_nil, or_false, reduceCtorEq, false_or,
      Session.Request.change.injEq] at hc
    rcases hc with rfl | rfl <;> exact impartial_rehearsed _ _ _
  have halike : backstage.alike opening.surroundings opening.surroundings := ⟨rfl, rfl, rfl, rfl⟩
  obtain ⟨-, -, -, -, calls, calls', hcalls, hcalls', hreceived, hquiet, hlogged, -⟩ :=
    Session.logging_stays_aside discreet_register hchanges rfl rfl halike
  exact ⟨discreet_register, hchanges, halike, calls, calls', hcalls, hcalls', hreceived, hquiet,
    hlogged⟩

end EntitySql
