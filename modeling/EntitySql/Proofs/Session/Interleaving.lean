import EntitySql.Proofs.Query.Effect
import EntitySql.Proofs.Session.Aside
import Mathlib.Logic.Function.Basic

/-!
Updates of several clients on one store. A client reads a row, and from then on takes the steps of
its update one at a time, while others take theirs in between. Only the execution of the statement
touches the store.
-/

namespace EntitySql

structure Store (σ : Type) where
  rows : σ → List Row
  /-- What the database makes of tests that are neither for equality nor for null. -/
  other : Test → Datum → Truth

/-- Whether a registry has the right metamodel of a type, or none yet. -/
def Registry.Agrees (r : Registry) (type : EntityType) (m : Metamodel) : Prop :=
  r.find? type.key = none ∨ r.find? type.key = some m

namespace Parties

variable {σ ε : Type}

/-- The entity is as the row was when it was read, as far as the row is found by it. -/
def Reflects (p : Parties σ ε) (m : Metamodel) (entity : ε) (seen : Row) : Prop :=
  ∀ c ∈ m.keys, (p.access.read entity c.path).map (·.datum) = some (seen c.path)

structure Compiles (p : Parties σ ε) (m : Metamodel) (entity : ε) (q : Update) (st : Statement) :
    Prop where
  query : Update.ofEntity m (p.access.read entity) = .ok q
  statement :
    (Query.update q).compile p.session.config.dialect p.session.config.logStatements = .ok st

/-- What a client gets done besides the update itself: hooks succeed and leave identifier and
version alone, the entity takes its next version, statements compile, and nothing but the execution
touches the store, on which it has the declared effect. -/
structure Cooperates (p : Parties σ ε) (store : Store σ) (m : Metamodel) (v : Column) : Prop where
  accepted : Metamodel.ofDescriptor p.type.descriptor = .ok m
  logged : ∀ st s, store.rows (p.session.logger.statement st s).2 = store.rows s
  notified : ∀ d s, store.rows (p.session.subscriber.receive d s).2 = store.rows s
  hooked : ∀ hook ∈ [Hook.before .update, Hook.after .update], ∀ entity s, ∃ given s',
    p.listener.run hook m entity s = (.ok given, s') ∧ store.rows s' = store.rows s ∧
      ∀ c ∈ m.keys, p.access.read given c.path = p.access.read entity c.path
  compiled : ∀ entity, ∃ q st, p.Compiles m entity q st
  assigned : ∀ entity s, ∃ advanced s',
    p.access.assign v.path (nextVersion (p.access.read entity v.path)) entity s =
        (.ok advanced, s') ∧ store.rows s' = store.rows s ∧
      p.access.read advanced v.path = some (nextVersion (p.access.read entity v.path))
  executed : ∀ entity q st, p.Compiles m entity q st → ∀ s, ∃ s',
    p.executor.execute st s = (.ok (q.affected store.other (store.rows s)), s') ∧
      store.rows s' = (store.rows s).map (q.written store.other)

end Parties

/-- An update under way: the row that it is about, as it was read, and what is left to do. -/
structure Errand (ε : Type) where
  row : Nat
  seen : Row
  rest : Except QueryError (Course ε)

def Errand.result? {ε : Type} (e : Errand ε) : Option (Except QueryError ε) :=
  match e.rest with
  | .ok (.done final) => some (.ok final)
  | .ok (.step _ _) => none
  | .error error => some (.error error)

theorem Errand.result?_eq_ok_iff {ε : Type} {e : Errand ε} {final : ε} :
    e.result? = some (.ok final) ↔ e.rest = .ok (.done final) := by
  unfold result?
  split <;> simp_all

theorem Errand.result?_eq_error_iff {ε : Type} {e : Errand ε} {error : QueryError} :
    e.result? = some (.error error) ↔ e.rest = .error error := by
  unfold result?
  split <;> simp_all

structure World (ι σ ε : Type) where
  surroundings : σ
  errand : ι → Option (Errand ε)

inductive Course.Advances {ε : Type} : Course ε → Step ε → Except QueryError (Course ε) → Prop
  | step {ask : Ask ε} {next : ask.Answer → Course ε} (answer : Except QueryError ask.Answer) :
      Advances (.step ask next) ⟨ask, answer⟩ (answer.map next)

namespace World

inductive Event (ι ε : Type)
  | read (client : ι) (row : Nat) (entity : ε)
  | act (client : ι) (step : Step ε)

/-- Something that happened, with the world before and after it. -/
structure Move (ι σ ε : Type) where
  before : World ι σ ε
  event : Event ι ε
  after : World ι σ ε

variable {ι σ ε : Type} [DecidableEq ι]

/-- What may happen next. The registry that a session meets may be shared with others, who have
used it in the meantime; so may its allocator. -/
inductive Moves (clients : ι → Parties σ ε) (store : Store σ) (m : Metamodel) :
    World ι σ ε → Event ι ε → World ι σ ε → Prop
  | read {w : World ι σ ε} {i : ι} {k : Nat} {seen : Row} {entity : ε} :
      w.errand i = none → (store.rows w.surroundings)[k]? = some seen →
      (clients i).Reflects m entity seen →
      Moves clients store m w (.read i k entity)
        { surroundings := w.surroundings
          errand := Function.update w.errand i
            (some ⟨k, seen, .ok ((clients i).course .update entity)⟩) }
  | act {w : World ι σ ε} {i : ι} {k : Nat} {seen : Row} {course : Course ε} {step : Step ε}
      {rest : Except QueryError (Course ε)} {registry : Registry} {allocator : Allocator}
      {after : SessionState σ} :
      w.errand i = some ⟨k, seen, .ok course⟩ → course.Advances step rest →
      registry.Agrees (clients i).type m →
      (clients i).perform step.ask ⟨registry, allocator, w.surroundings⟩ = (step.answer, after) →
      Moves clients store m w (.act i step)
        { surroundings := after.surroundings
          errand := Function.update w.errand i (some ⟨k, seen, rest⟩) }

inductive Runs (clients : ι → Parties σ ε) (store : Store σ) (m : Metamodel) (start : World ι σ ε) :
    List (Move ι σ ε) → World ι σ ε → Prop
  | nil : Runs clients store m start [] start
  | snoc {past : List (Move ι σ ε)} {w w' : World ι σ ε} {event : Event ι ε} :
      Runs clients store m start past w → Moves clients store m w event w' →
      Runs clients store m start (past ++ [⟨w, event, w'⟩]) w'

/-- The next move of a client that is not done yet, whose session has seen no metamodel so far. -/
def turn (clients : ι → Parties σ ε) (w : World ι σ ε) (i : ι) : Option (Move ι σ ε) :=
  match w.errand i with
  | some ⟨k, seen, .ok (.step ask next)⟩ =>
    let (answer, after) := (clients i).perform ask { surroundings := w.surroundings }
    some ⟨w, .act i ⟨ask, answer⟩,
      { surroundings := after.surroundings
        errand := Function.update w.errand i (some ⟨k, seen, answer.map next⟩) }⟩
  | _ => none

/-- The moves of clients that take turns as told, and the world after them. -/
def play (clients : ι → Parties σ ε) :
    World ι σ ε → List ι → List (Move ι σ ε) × World ι σ ε
  | w, [] => ([], w)
  | w, i :: schedule =>
    match turn clients w i with
    | some move =>
      let (moves, last) := play clients move.after schedule
      (move :: moves, last)
    | none => play clients w schedule

variable {clients : ι → Parties σ ε} {store : Store σ} {m : Metamodel} {start w : World ι σ ε}
  {past : List (Move ι σ ε)}

theorem moves_of_turn {i : ι} {move : Move ι σ ε} (h : turn clients w i = some move) :
    move.before = w ∧ Moves clients store m w move.event move.after := by
  unfold turn at h
  split at h
  next k seen ask next herrand =>
    cases h
    exact ⟨rfl, .act herrand (.step _) (.inl rfl) rfl⟩
  next => cases h

theorem runs_append_play (schedule : List ι) (h : Runs clients store m start past w) :
    Runs clients store m start (past ++ (play clients w schedule).1)
      (play clients w schedule).2 := by
  induction schedule generalizing past w with
  | nil => simpa [play] using h
  | cons i schedule ih =>
    unfold play
    match hturn : turn clients w i with
    | none => exact ih h
    | some move =>
      obtain ⟨rfl, hmoves⟩ := moves_of_turn hturn
      simpa using ih (h.snoc hmoves)

end World

namespace Parties

open Operation

variable {σ ε : Type} {p : Parties σ ε} {store : Store σ} {m : Metamodel} {v : Column}
  {state after : SessionState σ} {step : Step ε} {rest : Except QueryError (Course ε)}

private theorem advance_of_perform {ask : Ask ε} {next : ask.Answer → Course ε}
    (hadvances : (Course.step ask next).Advances step rest)
    (hperform : p.perform step.ask state = (step.answer, after))
    {answer : Except QueryError ask.Answer} {after' : SessionState σ}
    (hanswer : p.perform ask state = (answer, after')) :
    step = ⟨ask, answer⟩ ∧ rest = answer.map next ∧ after = after' := by
  cases hadvances with
  | step found =>
    obtain ⟨rfl, rfl⟩ := Prod.mk.inj (hperform.symm.trans hanswer)
    exact ⟨rfl, rfl, rfl⟩

private theorem attempt_of_ok {δ α : Type} {wrap : δ → QueryError} {act : Attempt σ δ α} {a : α}
    {s' : σ} (h : act state.surroundings = (.ok a, s')) :
    attempt wrap act state = (.ok a, { state with surroundings := s' }) := by
  rw [attempt, h]
  rfl

theorem Cooperates.rows_debug (h : p.Cooperates store m v) (d : Diagnostic) (s : σ) :
    store.rows (p.session.subscriber.debug d s).2 = store.rows s := by
  unfold Subscriber.debug
  split
  · exact h.notified d s
  · rfl

theorem exists_lookup {registry : Registry} {type : EntityType}
    (haccepted : Metamodel.ofDescriptor type.descriptor = .ok m)
    (hregistry : registry.Agrees type m) :
    ∃ found, registry.lookup type = .ok found ∧ found.metamodel = m ∧
      found.registry.Agrees type m := by
  unfold Registry.lookup
  rcases hregistry with hnone | hfound
  · rw [hnone, haccepted]
    refine ⟨_, rfl, rfl, .inr ?_⟩
    unfold Registry.find? at hnone ⊢
    simp [List.lookup_append, hnone]
  · rw [hfound]
    exact ⟨_, rfl, rfl, .inr hfound⟩

theorem Cooperates.lookup (h : p.Cooperates store m v)
    (hregistry : state.registry.Agrees p.type m) :
    ∃ after, p.perform .lookup state = (.ok m, after) ∧
      store.rows after.surroundings = store.rows state.surroundings ∧
      after.registry.Agrees p.type m := by
  obtain ⟨found, hlookup, rfl, hagrees⟩ := exists_lookup h.accepted hregistry
  refine ⟨_, p.session.metamodel_of_lookup hlookup, ?_, hagrees⟩
  rw [Session.notified]
  split
  · exact h.rows_debug _ _
  · rfl

theorem Cooperates.agrees (h : p.Cooperates store m v) (ask : Ask ε)
    (hregistry : state.registry.Agrees p.type m) :
    (p.perform ask state).2.registry.Agrees p.type m := by
  by_cases hask : ask = .lookup
  · obtain ⟨after, hlookup, -, hagrees⟩ := h.lookup hregistry
    rw [hask, hlookup]
    exact hagrees
  · rwa [registry_perform hask]

theorem Cooperates.execute (h : p.Cooperates store m v) {entity : ε} {q : Update} {st : Statement}
    (hst : p.Compiles m entity q st) (state : SessionState σ) :
    ∃ after, p.perform (.execute .update m st) state =
        (.ok (q.affected store.other (store.rows state.surroundings)), after) ∧
      store.rows after.surroundings =
        (store.rows state.surroundings).map (q.written store.other) := by
  obtain ⟨s', hexecute, hrows⟩ := h.executed entity q st hst state.surroundings
  rw [perform, Attempt.bind_of_ok (attempt_of_ok hexecute)]
  exact ⟨_, rfl, (h.rows_debug _ s').trans hrows⟩

/-- What is left of an update before its execution, with what is known by then. -/
inductive Pending (p : Parties σ ε) (m : Metamodel) (v : Column) (seen : Row) : Course ε → Prop
  | called {entity : ε} : p.Reflects m entity seen → Pending p m v seen (p.course .update entity)
  | found {entity : ε} : p.Reflects m entity seen → Pending p m v seen
      (.prepare p.session.config.logStatements p.access.read .update entity m)
  | prepared {entity : ε} : p.Reflects m entity seen → Pending p m v seen
      (.submit p.session.config.logStatements p.access.read .update m entity)
  | compiled {entity : ε} {q : Update} {st : Statement} :
      p.Reflects m entity seen → p.Compiles m entity q st → Pending p m v seen
        (.step (.log st) fun _ => .advance p.access.read (some v) entity (.conclude .update m st))
  | logged {entity : ε} {q : Update} {st : Statement} :
      p.Reflects m entity seen → p.Compiles m entity q st → Pending p m v seen
        (.advance p.access.read (some v) entity (.conclude .update m st))
  | advanced {entity advanced : ε} {q : Update} {st : Statement} :
      p.Reflects m entity seen → p.Compiles m entity q st →
      p.access.read advanced v.path = some (nextVersion (p.access.read entity v.path)) →
      Pending p m v seen (.conclude .update m st advanced)

/-- What is left once the statement has changed a number of rows. -/
inductive Settling (p : Parties σ ε) (m : Metamodel) (advanced : ε) (rows : Nat) :
    Course ε → Prop
  | executed : Settling p m advanced rows
      (.step (.lock m rows) fun _ => .step (.hook (.after .update) m advanced) .done)
  | checked : rows ≠ 0 → Settling p m advanced rows
      (.step (.hook (.after .update) m advanced) .done)
  | returned {final : ε} : rows ≠ 0 →
      (∀ c ∈ m.keys, p.access.read final c.path = p.access.read advanced c.path) →
      Settling p m advanced rows (.done final)

/-- The execution of the update of an entity that reflects what was seen. -/
structure Executes (p : Parties σ ε) (store : Store σ) (m : Metamodel) (v : Column) (seen : Row)
    (entity advanced : ε) (q : Update) (st : Statement) (before after : σ) : Prop where
  reflects : p.Reflects m entity seen
  compiles : p.Compiles m entity q st
  advances : p.access.read advanced v.path = some (nextVersion (p.access.read entity v.path))
  writes : store.rows after = (store.rows before).map (q.written store.other)

/-- One step of a pending update: it stays pending and the store as it is, or the statement is
executed. -/
theorem Pending.advance (h : p.Cooperates store m v) (hv : m.version = some v) {seen : Row}
    {course : Course ε} (hpending : p.Pending m v seen course)
    (hadvances : course.Advances step rest)
    (hregistry : state.registry.Agrees p.type m)
    (hperform : p.perform step.ask state = (step.answer, after)) :
    (store.rows after.surroundings = store.rows state.surroundings ∧
        ∃ course', rest = .ok course' ∧ p.Pending m v seen course') ∨
      ∃ entity advanced q st,
        p.Executes store m v seen entity advanced q st state.surroundings after.surroundings ∧
        course = .conclude .update m st advanced ∧
        step = ⟨.execute .update m st,
          .ok (q.affected store.other (store.rows state.surroundings))⟩ ∧
        ∃ course', rest = .ok course' ∧ p.Settling m advanced
          (q.affected store.other (store.rows state.surroundings)) course' := by
  cases hpending with
  | called hentity =>
    obtain ⟨after', hlookup, hrows, -⟩ := h.lookup hregistry
    obtain ⟨rfl, rfl, rfl⟩ := advance_of_perform hadvances hperform hlookup
    exact .inl ⟨hrows, _, rfl, .found hentity⟩
  | found hentity =>
    obtain ⟨given, s', hhook, hrows, hkept⟩ :=
      h.hooked (.before .update) (by simp) _ state.surroundings
    obtain ⟨rfl, rfl, rfl⟩ := advance_of_perform hadvances hperform (attempt_of_ok hhook)
    refine .inl ⟨hrows, _, rfl, .prepared fun c hc => ?_⟩
    rw [hkept c hc]
    exact hentity c hc
  | @prepared entity hentity =>
    obtain ⟨q, st, hst⟩ := h.compiled entity
    have hcompile : p.perform (.compile .update m entity) state = (.ok st, state) := by
      simp only [perform, Mutation.query, hst.query]
      exact congrArg (fun st => Operation.ofExcept QueryError.compile st state) hst.statement
    obtain ⟨rfl, rfl, rfl⟩ := advance_of_perform hadvances hperform hcompile
    refine .inl ⟨rfl, _, rfl, ?_⟩
    rw [Course.versioned, hv]
    unfold Course.logged
    split
    · exact .compiled hentity hst
    · exact .logged hentity hst
  | compiled hentity hst =>
    obtain ⟨rfl, rfl, rfl⟩ := advance_of_perform hadvances hperform rfl
    exact .inl ⟨h.logged _ _, _, rfl, .logged hentity hst⟩
  | @logged entity _ _ hentity hst =>
    obtain ⟨advanced, s', hassign, hrows, hread⟩ := h.assigned entity state.surroundings
    obtain ⟨rfl, rfl, rfl⟩ := advance_of_perform hadvances hperform (attempt_of_ok hassign)
    exact .inl ⟨hrows, _, rfl, .advanced hentity hst hread⟩
  | advanced hentity hst hadvanced =>
    obtain ⟨after', hexecute, hrows⟩ := h.execute hst state
    obtain ⟨rfl, rfl, rfl⟩ := advance_of_perform hadvances hperform hexecute
    exact .inr ⟨_, _, _, _, ⟨hentity, hst, hadvanced, hrows⟩, rfl, rfl, _, rfl, .executed⟩

/-- One step of an update after its execution, which leaves the store alone. If no row was changed,
it is the last. -/
theorem Settling.advance (h : p.Cooperates store m v) (hv : m.version = some v) {advanced : ε}
    {rows : Nat} {course : Course ε} (hsettling : p.Settling m advanced rows course)
    (hadvances : course.Advances step rest)
    (hperform : p.perform step.ask state = (step.answer, after)) :
    store.rows after.surroundings = store.rows state.surroundings ∧
      ((rows = 0 ∧ rest = .error (.optimisticLock m.entity)) ∨
        rows ≠ 0 ∧ ∃ course', rest = .ok course' ∧ p.Settling m advanced rows course') := by
  cases hsettling with
  | executed =>
    have hversion : m.version.isSome = true := by rw [hv, Option.isSome_some]
    by_cases hrows : rows = 0
    · have hlock : p.perform (.lock m rows) state =
          (.error (.optimisticLock m.entity), state) := by
        simp only [perform, Session.checkLock]
        rw [if_pos ⟨hversion, hrows⟩]
        rfl
      obtain ⟨-, rfl, rfl⟩ := advance_of_perform hadvances hperform hlock
      exact ⟨rfl, .inl ⟨hrows, rfl⟩⟩
    · have hlock : p.perform (.lock m rows) state = (.ok (), state) := by
        simp only [perform, Session.checkLock]
        rw [if_neg fun hmissed => hrows hmissed.2]
        rfl
      obtain ⟨rfl, rfl, rfl⟩ := advance_of_perform hadvances hperform hlock
      exact ⟨rfl, .inr ⟨hrows, _, rfl, .checked hrows⟩⟩
  | checked hrows =>
    obtain ⟨given, s', hhook, hkept, hkeys⟩ :=
      h.hooked (.after .update) (by simp) _ state.surroundings
    obtain ⟨rfl, rfl, rfl⟩ := advance_of_perform hadvances hperform (attempt_of_ok hhook)
    exact ⟨hkept, .inr ⟨hrows, _, rfl, .returned hrows hkeys⟩⟩
  | returned => cases hadvances

theorem Settling.of_done {advanced final : ε} {rows : Nat}
    (h : p.Settling m advanced rows (.done final)) :
    rows ≠ 0 ∧ ∀ c ∈ m.keys, p.access.read final c.path = p.access.read advanced c.path := by
  cases h with
  | returned hrows hkeys => exact ⟨hrows, hkeys⟩

end Parties

namespace World

variable {ι σ ε : Type} [DecidableEq ι] {clients : ι → Parties σ ε} {store : Store σ}
  {m : Metamodel} {v : Column} {start w : World ι σ ε} {past : List (Move ι σ ε)} {i : ι} {k : Nat}
  {seen : Row} {state : SessionState σ}

/-- While the others pause, a client gets to the end of its course, as its session would. -/
theorem exists_runs_run (h : (clients i).Cooperates store m v) (course : Course ε)
    (state : SessionState σ) (hruns : Runs clients store m start past w)
    (herrand : w.errand i = some ⟨k, seen, .ok course⟩)
    (hstate : state.surroundings = w.surroundings)
    (hregistry : state.registry.Agrees (clients i).type m) :
    ∃ more w', Runs clients store m start (past ++ more) w' ∧
      (∀ move ∈ more, ∃ step, move.event = .act i step) ∧
      w'.errand i = some ⟨k, seen, ((clients i).run course state).1.map .done⟩ ∧
      w'.surroundings = ((clients i).run course state).2.surroundings := by
  -- Each step moves the world and the state of the session on, to the same surroundings.
  induction course generalizing past w state with
  | done final => exact ⟨[], w, by simpa using hruns, by simp, herrand, hstate.symm⟩
  | step ask next ih =>
    obtain ⟨registry, allocator, surroundings⟩ := state
    obtain rfl : surroundings = w.surroundings := hstate
    have hagrees := h.agrees ask hregistry
    rw [Parties.run_step, Attempt.bind_apply]
    match hperform : (clients i).perform ask ⟨registry, allocator, w.surroundings⟩ with
    | (answer, after) =>
      rw [hperform] at hagrees
      have hmoves : Moves clients store m w (.act i ⟨ask, answer⟩)
          { surroundings := after.surroundings
            errand := Function.update w.errand i (some ⟨k, seen, answer.map next⟩) } :=
        .act herrand (.step answer) hregistry hperform
      have hruns := hruns.snoc hmoves
      cases answer with
      | error e => exact ⟨[_], _, hruns, by simp, Function.update_self .., rfl⟩
      | ok answer =>
        obtain ⟨more, w', hmore, hacts, hend⟩ :=
          ih answer after hruns (Function.update_self ..) rfl hagrees
        rw [List.append_assoc, List.singleton_append] at hmore
        exact ⟨_, w', hmore, List.forall_mem_cons.mpr ⟨⟨_, rfl⟩, hacts⟩, hend⟩

theorem exists_runs_mutate {entity : ε} (h : (clients i).Cooperates store m v)
    (hruns : Runs clients store m start past w)
    (herrand : w.errand i = some ⟨k, seen, .ok ((clients i).course .update entity)⟩)
    (hstate : state.surroundings = w.surroundings)
    (hregistry : state.registry.Agrees (clients i).type m) :
    ∃ more w', Runs clients store m start (past ++ more) w' ∧
      (∀ move ∈ more, ∃ step, move.event = .act i step) ∧
      w'.errand i = some ⟨k, seen, ((clients i).mutate .update entity state).1.map .done⟩ ∧
      w'.surroundings = ((clients i).mutate .update entity state).2.surroundings := by
  rw [Parties.mutate_eq_run]
  exact exists_runs_run h _ state hruns herrand hstate hregistry

/-- No client has to wait for another in order to return. -/
theorem exists_runs_returns {e : Errand ε} (h : (clients i).Cooperates store m v)
    (hruns : Runs clients store m start past w) (he : w.errand i = some e) :
    ∃ more w' e', Runs clients store m start (past ++ more) w' ∧
      (∀ move ∈ more, ∃ step, move.event = .act i step) ∧
      w'.errand i = some e' ∧ e'.row = e.row ∧ e'.seen = e.seen ∧ e'.result?.isSome := by
  obtain ⟨k, seen, rest⟩ := e
  cases rest with
  | error error =>
    exact ⟨[], w, _, by simpa using hruns, by simp, he, rfl, rfl, rfl⟩
  | ok course =>
    obtain ⟨more, w', hmore, hacts, hend, -⟩ :=
      exists_runs_run h course { surroundings := w.surroundings } hruns he rfl (.inl rfl)
    refine ⟨more, w', _, hmore, hacts, hend, rfl, rfl, ?_⟩
    cases ((clients i).run course { surroundings := w.surroundings }).1 <;> rfl

end World
end EntitySql
