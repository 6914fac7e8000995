import EntitySql.Proofs.Outcome
import EntitySql.Session.Basic

/-!
The course of session operations. An operation asks for one thing after the other: its metamodel,
hooks, sequence values, statements, writes into the entity, and the execution. Its course says in
which order, and running the course is what the operation does.
-/

namespace EntitySql

structure Parties (σ ε : Type) where
  session : Session σ
  type : EntityType
  access : EntityAccess σ ε
  listener : Listener σ ε
  executor : Executor σ

namespace Parties

variable {σ ε : Type}

def mutate (p : Parties σ ε) : Mutation → ε → Operation σ ε
  | .insert => p.session.insert p.type p.access p.listener p.executor
  | .update => p.session.update p.type p.access p.listener p.executor
  | .delete => p.session.delete p.type p.access p.listener p.executor

end Parties

inductive Ask (ε : Type)
  | lookup
  | hook (hook : Hook) (m : Metamodel) (entity : ε)
  /-- A value that is in reserve of the sequence, if there is any. -/
  | reserve (spec : SequenceSpec)
  /-- The statement that fetches from the sequence. -/
  | render (spec : SequenceSpec)
  | log (st : Statement)
  | fetch (spec : SequenceSpec) (st : Statement)
  | assign (path : String) (value : Value) (entity : ε)
  /-- The statement that mutates the row of the entity. -/
  | compile (operation : Mutation) (m : Metamodel) (entity : ε)
  | execute (operation : Mutation) (m : Metamodel) (st : Statement)
  /-- That the row was still there, as far as the number of affected rows tells. -/
  | lock (m : Metamodel) (rows : Nat)

abbrev Ask.Answer {ε : Type} : Ask ε → Type
  | lookup => Metamodel
  | hook _ _ _ => ε
  | reserve _ => Option Int64
  | render _ => Statement
  | log _ => Unit
  | fetch _ _ => Int64
  | assign _ _ _ => ε
  | compile _ _ _ => Statement
  | execute _ _ _ => Nat
  | lock _ _ => Unit

structure Step (ε : Type) where
  ask : Ask ε
  answer : Except QueryError ask.Answer

/-- The fixed order of an operation. What comes next may depend on the answer before it. -/
inductive Course (ε : Type)
  | done (entity : ε)
  | step (ask : Ask ε) (next : ask.Answer → Course ε)

namespace Course

variable {ε : Type}

def logged (logs : Bool) (st : Statement) (next : Course ε) : Course ε :=
  if logs then step (.log st) fun _ => next else next

/-- A value of a sequence. Only a sequence without any value in reserve is fetched from. -/
def draw (logs : Bool) (spec : SequenceSpec) (next : Int64 → Course ε) : Course ε :=
  step (.reserve spec) fun
    | some id => next id
    | none =>
      step (.render spec) fun st =>
      logged logs st <|
      step (.fetch spec st) next

/-- A value for each column that a sequence feeds, in order, bound as the value it replaces. -/
def identify (logs : Bool) (read : ε → String → Option Value) (next : ε → Course ε) :
    List Column → ε → Course ε
  | [], entity => next entity
  | c :: rest, entity =>
    match c.sequence? with
    | none => identify logs read next rest entity
    | some spec =>
      draw logs spec fun id =>
      let type := ((read entity c.path).map (·.type)).getD .bigInt
      step (.assign c.path ⟨.int id, type⟩ entity) (identify logs read next rest)

def advance (read : ε → String → Option Value) (version : Option Column) (entity : ε)
    (next : ε → Course ε) : Course ε :=
  match version with
  | some c => step (.assign c.path (nextVersion (read entity c.path)) entity) next
  | none => next entity

/-- From the execution on. An INSERT has no row to miss. -/
def conclude (operation : Mutation) (m : Metamodel) (st : Statement) (entity : ε) : Course ε :=
  step (.execute operation m st) fun rows =>
  match operation with
  | .insert => step (.hook (.after operation) m entity) done
  | .update | .delete =>
    step (.lock m rows) fun _ =>
    step (.hook (.after operation) m entity) done

def identified (m : Metamodel) : Mutation → List Column
  | .insert => m.ids
  | .update | .delete => []

def versioned (m : Metamodel) : Mutation → Option Column
  | .update => m.version
  | .insert | .delete => none

def submit (logs : Bool) (read : ε → String → Option Value) (operation : Mutation) (m : Metamodel)
    (complete : ε) : Course ε :=
  step (.compile operation m complete) fun st =>
  logged logs st <|
  advance read (versioned m operation) complete (conclude operation m st)

def prepare (logs : Bool) (read : ε → String → Option Value) (operation : Mutation) (entity : ε)
    (m : Metamodel) : Course ε :=
  step (.hook (.before operation) m entity) fun prepared =>
  identify logs read (submit logs read operation m) (identified m operation) prepared

def ofMutation (logs : Bool) (read : ε → String → Option Value) (operation : Mutation)
    (entity : ε) : Course ε :=
  step .lookup (prepare logs read operation entity)

end Course

def Mutation.query (m : Metamodel) (read : String → Option Value) :
    Mutation → Except CompileError Query
  | .insert => return .insert (← Insert.ofEntity m read)
  | .update => return .update (← Update.ofEntity m read)
  | .delete => return .delete (← Delete.ofEntity m read)

namespace Parties

open Operation

variable {σ ε : Type} (p : Parties σ ε)

def perform : (ask : Ask ε) → Operation σ ask.Answer
  | .lookup => p.session.metamodel p.type
  | .hook hook m entity => attempt .hook (p.listener.run hook m entity)
  | .reserve spec => fun state =>
    match state.allocator.take? spec with
    | some (id, allocator) => (.ok (some id), { state with allocator })
    | none => (.ok none, state)
  | .render spec =>
    ofExcept .compile (spec.statement p.session.config.dialect p.session.config.logStatements)
  | .log st => outside (p.session.logger.statement st)
  | .fetch spec st => do
    let first ← attempt .execution (p.executor.fetch st)
    modify fun state => { state with allocator := state.allocator.reserve spec first }
    return first
  | .assign path value entity => attempt .assign (p.access.assign path value entity)
  | .compile operation m entity => ofExcept .compile do
    (← operation.query m (p.access.read entity)).compile p.session.config.dialect
      p.session.config.logStatements
  | .execute operation m st => do
    let rows ← attempt .execution (p.executor.execute st)
    outside (p.session.subscriber.debug (.mutated operation m rows))
    return rows
  | .lock m rows => Session.checkLock m rows

def run : Course ε → Operation σ ε
  | .done entity => pure entity
  | .step ask next => do run (next (← p.perform ask))

/-- The steps of a run, up to and including the first that fails. -/
def trace : Course ε → SessionState σ → List (Step ε)
  | .done _, _ => []
  | .step ask next, state =>
    match p.perform ask state with
    | (.ok answer, after) => ⟨ask, .ok answer⟩ :: trace (next answer) after
    | (.error e, _) => [⟨ask, .error e⟩]

def course (operation : Mutation) (entity : ε) : Course ε :=
  .ofMutation p.session.config.logStatements p.access.read operation entity

end Parties

@[simp] theorem Operation.ofExcept_pure {σ ε α : Type} (wrap : ε → QueryError) (a : α) :
    (ofExcept wrap (pure a) : Operation σ α) = pure a := rfl

theorem Operation.ofExcept_eq_ok_iff {σ ε α : Type} {wrap : ε → QueryError} {x : Except ε α} {a : α}
    {state after : SessionState σ} :
    ofExcept wrap x state = (.ok a, after) ↔ x = .ok a ∧ state = after := by
  change (x.mapError wrap, state) = (.ok a, after) ↔ _
  rw [Prod.mk.injEq, Except.mapError_eq_ok_iff]

private theorem Operation.ofExcept_bind {σ ε α β : Type} (wrap : ε → QueryError) (x : Except ε α)
    (f : α → Except ε β) :
    (ofExcept wrap (x >>= f) : Operation σ β) =
      ofExcept wrap x >>= fun a => ofExcept wrap (f a) := by
  funext state
  rw [Attempt.bind_apply]
  cases x <;> rfl

namespace Session

open Operation

variable {σ : Type} (s : Session σ)

def notified (found : Registry.Lookup) (x : σ) : σ :=
  if found.isNew then (s.subscriber.debug (.built found.metamodel) x).2 else x

theorem metamodel_of_lookup {type : EntityType} {state : SessionState σ} {found : Registry.Lookup}
    (h : state.registry.lookup type = .ok found) :
    s.metamodel type state = (.ok found.metamodel, { state with
      registry := found.registry
      surroundings := s.notified found state.surroundings }) := by
  have hfound : (ofExcept .metamodel (state.registry.lookup type) : Operation σ _) state =
      (.ok found, state) := by
    rw [h]
    rfl
  rw [metamodel, Attempt.bind_of_ok (Attempt.get_apply state), Attempt.bind_of_ok hfound,
    Attempt.bind_of_ok (Attempt.modify_apply _ state), notified]
  split <;> rfl

theorem metamodel_of_lookup_error {type : EntityType} {state : SessionState σ} {e : MetamodelError}
    (h : state.registry.lookup type = .error e) :
    s.metamodel type state = (.error (.metamodel e), state) := by
  rw [metamodel, Attempt.bind_of_ok (Attempt.get_apply state), Attempt.bind_apply, h]
  rfl

private theorem allocator_fetch (executor : Executor σ) (spec : SequenceSpec)
    (state : SessionState σ) :
    (s.fetch executor spec state).2.allocator = state.allocator := by
  unfold fetch log
  rw [Attempt.bind_apply]
  match spec.statement s.config.dialect s.config.logStatements with
  | .error e => rfl
  | .ok st =>
    change ((if s.config.logStatements then outside (s.logger.statement st) else pure ()) >>=
      fun _ => attempt .execution (executor.fetch st)) state |>.2.allocator = _
    split <;> rfl

end Session

namespace Parties

open Operation

variable {σ ε : Type} (p : Parties σ ε)

/-! Operations are the runs of their courses. -/

@[simp] theorem run_done (entity : ε) : p.run (.done entity) = pure entity := rfl

@[simp] theorem run_step (ask : Ask ε) (next : ask.Answer → Course ε) :
    p.run (.step ask next) = p.perform ask >>= fun answer => p.run (next answer) := rfl

theorem run_logged (st : Statement) (next : Course ε) :
    p.run (.logged p.session.config.logStatements st next) =
      p.session.log st >>= fun _ => p.run next := by
  unfold Course.logged Session.log
  split <;> simp [perform]

theorem run_draw (spec : SequenceSpec) (next : Int64 → Course ε) :
    p.run (.draw p.session.config.logStatements spec next) = (do
      let (id, allocator) ← (← get).allocator.next spec (p.session.fetch p.executor spec)
      modify fun state => { state with allocator }
      p.run (next id)) := by
  have hfetched : (p.perform (.render spec) >>= fun st =>
      p.run (.logged p.session.config.logStatements st (.step (.fetch spec st) next))) = (do
        let first ← p.session.fetch p.executor spec
        modify fun state => { state with allocator := state.allocator.reserve spec first }
        p.run (next first)) := by
    simp only [run_step, run_logged, perform, Session.fetch, bind_assoc, pure_bind]
  funext state
  rw [Course.draw, run_step, Attempt.bind_apply, Attempt.bind_of_ok (Attempt.get_apply state)]
  match htake : state.allocator.take? spec with
  | some (id, allocator) => simp [Attempt.bind_apply, perform, Allocator.next, htake]
  | none =>
    -- The session keeps the value in the allocator that it had before the fetch.
    have hkept := p.session.allocator_fetch p.executor spec state
    simp only [perform, Allocator.next, htake, run_step]
    rw [← perform, hfetched]
    match hfetch : p.session.fetch p.executor spec state with
    | (.ok first, after) =>
      have hkept : after.allocator = state.allocator := by rwa [hfetch] at hkept
      simp [Attempt.bind_apply, Except.map, hfetch, hkept]
    | (.error e, after) => simp [Attempt.bind_apply, Except.map, hfetch]

/-- Identifiers are given as the session does, and what follows runs on the complete entity. -/
theorem run_identify (next : ε → Course ε) (columns : List Column) (entity : ε) :
    p.run (.identify p.session.config.logStatements p.access.read next columns entity) = (do
      let complete ← p.session.assignIds p.access p.executor columns entity
      p.run (next complete)) := by
  induction columns generalizing entity with
  | nil => simp [Course.identify, Session.assignIds]
  | cons c rest ih =>
    unfold Course.identify Session.assignIds
    match c.sequence? with
    | none => exact ih entity
    | some spec =>
      simp only [run_draw, run_step, ih, perform, Session.assignId, bind_assoc]

theorem run_advance (m : Metamodel) (entity : ε) (next : ε → Course ε) :
    p.run (.advance p.access.read (Course.versioned m .update) entity next) =
      Session.advanceVersion p.access m entity >>= fun advanced => p.run (next advanced) := by
  unfold Course.advance Course.versioned Session.advanceVersion
  cases m.version with
  | none => simp
  | some c => simp [perform]

theorem run_submit (operation : Mutation) (m : Metamodel) (complete : ε) :
    p.run (.submit p.session.config.logStatements p.access.read operation m complete) = (do
      let q ← ofExcept .compile (operation.query m (p.access.read complete))
      let st ← p.session.compile q
      p.run (.advance p.access.read (Course.versioned m operation) complete
        (.conclude operation m st))) := by
  simp only [Course.submit, run_step, run_logged, perform, Session.compile, ofExcept_bind,
    bind_assoc, pure_bind]

/-- An operation is the run of its course. -/
theorem mutate_eq_run (operation : Mutation) (entity : ε) :
    p.mutate operation entity = p.run (p.course operation entity) := by
  simp only [course, Course.ofMutation, Course.prepare, run_step, run_identify, run_submit]
  cases operation with
  | insert =>
    simp only [mutate, Session.insert, Course.identified, Course.versioned, Course.advance,
      Course.conclude, run_step, run_done, perform, Session.execute, Mutation.query,
      ofExcept_bind, ofExcept_pure, bind_assoc, pure_bind, bind_pure]
  | update =>
    simp only [mutate, Session.update, Course.identified, Session.assignIds, run_advance,
      Course.conclude, run_step, run_done, perform, Session.execute, Mutation.query,
      ofExcept_bind, ofExcept_pure, bind_assoc, pure_bind, bind_pure]
  | delete =>
    simp only [mutate, Session.delete, Course.identified, Session.assignIds, Course.versioned,
      Course.advance, Course.conclude, run_step, run_done, perform, Session.execute,
      Mutation.query, ofExcept_bind, ofExcept_pure, bind_assoc, pure_bind, bind_pure]

end Parties
end EntitySql
