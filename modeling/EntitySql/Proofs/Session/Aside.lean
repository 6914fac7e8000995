import EntitySql.Proofs.Session.Course
import Mathlib.Tactic.TypeStar

/-!
What goes on aside from the registry. Of all that a session operation asks for, only the lookup of
its metamodel has to do with the registry; the rest neither looks at it nor changes it, and lets
nothing be heard of metamodels.
-/

namespace EntitySql

/-- Neither looks at the registry nor changes it. -/
def Blind {σ : Type} {α : Type*} (act : SessionState σ → α × SessionState σ) : Prop :=
  ∀ state registry, act { state with registry } = ((act state).1, { (act state).2 with registry })

/-- Also lets nothing be heard. -/
structure Aside {σ : Type} {α : Type*} (heard : σ → List Diagnostic)
    (act : SessionState σ → α × SessionState σ) : Prop where
  blind : Blind act
  quiet : ∀ state, heard (act state).2.surroundings = heard state.surroundings

theorem Blind.registry_eq {σ : Type} {α : Type*} {act : SessionState σ → α × SessionState σ}
    (h : Blind act) (state : SessionState σ) : (act state).2.registry = state.registry :=
  congrArg (fun outcome => outcome.2.registry) (h state state.registry)

theorem Aside.map {σ : Type} {α β : Type*} {heard : σ → List Diagnostic}
    {act : SessionState σ → α × SessionState σ} (h : Aside heard act) (f : α → β) :
    Aside heard fun state => (f (act state).1, (act state).2) :=
  ⟨fun state registry => by rw [h.blind], h.quiet⟩

section

open Operation

variable {σ α β : Type} {heard : σ → List Diagnostic}

theorem aside_pure (a : α) : Aside heard (pure a : Operation σ α) :=
  ⟨fun _ _ => rfl, fun _ => rfl⟩

theorem aside_ofExcept {ε : Type} (wrap : ε → QueryError) (result : Except ε α) :
    Aside heard (ofExcept wrap result : Operation σ α) :=
  ⟨fun _ _ => rfl, fun _ => rfl⟩

theorem aside_outside {act : StateM σ α} (h : ∀ x, heard (act x).2 = heard x) :
    Aside heard (outside act) :=
  ⟨fun _ _ => rfl, fun state => h state.surroundings⟩

theorem aside_attempt {ε : Type} {act : Attempt σ ε α} {wrap : ε → QueryError}
    (h : ∀ x, heard (act x).2 = heard x) : Aside heard (attempt wrap act) :=
  ⟨fun _ _ => rfl, fun state => h state.surroundings⟩

theorem aside_allocator {act : Operation σ α} (f : Allocator → Except QueryError α × Allocator)
    (hact : ∀ state, act state =
      ((f state.allocator).1, { state with allocator := (f state.allocator).2 })) :
    Aside heard act :=
  ⟨fun state registry => by rw [hact, hact state], fun state => by rw [hact]⟩

theorem Aside.bind {x : Operation σ α} {f : α → Operation σ β} (hx : Aside heard x)
    (hf : ∀ a, Aside heard (f a)) : Aside heard (x >>= f) := by
  refine ⟨fun state registry => ?_, fun state => ?_⟩
  · rw [Attempt.bind_apply, Attempt.bind_apply, hx.blind]
    match x state with
    | (.ok a, between) => exact (hf a).blind between registry
    | (.error e, between) => rfl
  · have hquiet := hx.quiet state
    rw [Attempt.bind_apply]
    match hstate : x state with
    | (.ok a, between) =>
      rw [hstate] at hquiet
      exact ((hf a).quiet between).trans hquiet
    | (.error e, between) => rwa [hstate] at hquiet

end

namespace Session

variable {σ : Type} {heard : σ → List Diagnostic} {s : Session σ}

/-- Nothing is heard of what the session logs and tells, unless it is about metamodels. -/
structure Reticent (s : Session σ) (heard : σ → List Diagnostic) : Prop where
  logged : ∀ st x, heard (s.logger.statement st x).2 = heard x
  mutated : ∀ operation m rows x,
    heard (s.subscriber.debug (.mutated operation m rows) x).2 = heard x

theorem reticent_const (s : Session σ) (silence : List Diagnostic) : s.Reticent fun _ => silence :=
  ⟨fun _ _ => rfl, fun _ _ _ _ => rfl⟩

theorem Reticent.aside_log (h : s.Reticent heard) (st : Statement) : Aside heard (s.log st) := by
  unfold log
  split
  · exact aside_outside (h.logged st)
  · exact aside_pure ()

theorem Reticent.aside_compile (h : s.Reticent heard) (q : Query) : Aside heard (s.compile q) :=
  (aside_ofExcept .compile _).bind fun st => (h.aside_log st).bind fun _ => aside_pure st

private theorem aside_checkLock (m : Metamodel) (rows : Nat) :
    Aside heard (checkLock m rows : Operation σ Unit) := by
  unfold checkLock
  split
  · exact aside_ofExcept id (.error _)
  · exact aside_pure ()

end Session

namespace Parties

variable {σ ε : Type} {heard : σ → List Diagnostic} {p : Parties σ ε}

/-- Neither is anything heard of the others who take part. -/
structure Reticent (p : Parties σ ε) (heard : σ → List Diagnostic) : Prop where
  session : p.session.Reticent heard
  hooked : ∀ hook m entity x, heard (p.listener.run hook m entity x).2 = heard x
  assigned : ∀ path value entity x, heard (p.access.assign path value entity x).2 = heard x
  fetched : ∀ st x, heard (p.executor.fetch st x).2 = heard x
  executed : ∀ st x, heard (p.executor.execute st x).2 = heard x

theorem reticent_const (p : Parties σ ε) (silence : List Diagnostic) :
    p.Reticent fun _ => silence :=
  ⟨p.session.reticent_const silence, fun _ _ _ _ => rfl, fun _ _ _ _ => rfl, fun _ _ => rfl,
    fun _ _ => rfl⟩

theorem Reticent.aside_perform (h : p.Reticent heard) {ask : Ask ε} (hask : ask ≠ .lookup) :
    Aside heard (p.perform ask) := by
  cases ask with
  | lookup => contradiction
  | hook hook m entity => exact aside_attempt (h.hooked hook m entity)
  | reserve spec =>
    refine aside_allocator (fun a =>
      (a.take? spec).elim (.ok none, a) fun drawn => (.ok (some drawn.1), drawn.2)) fun state => ?_
    unfold perform
    dsimp only
    cases state.allocator.take? spec <;> rfl
  | render | compile => exact aside_ofExcept ..
  | log st => exact aside_outside (h.session.logged st)
  | fetch spec st =>
    refine (aside_attempt (h.fetched st)).bind fun first => Aside.bind ?_ fun _ => aside_pure first
    exact aside_allocator (fun a => (.ok ⟨⟩, a.reserve spec first)) fun _ => rfl
  | assign path value entity => exact aside_attempt (h.assigned path value entity)
  | execute operation m st =>
    refine (aside_attempt (h.executed st)).bind fun rows => ?_
    exact (aside_outside (h.session.mutated operation m rows)).bind fun _ => aside_pure rows
  | lock m rows => exact Session.aside_checkLock m rows

theorem registry_perform {ask : Ask ε} (hask : ask ≠ .lookup) (state : SessionState σ) :
    (p.perform ask state).2.registry = state.registry :=
  ((p.reticent_const []).aside_perform hask).blind.registry_eq state

theorem Reticent.aside_step (h : p.Reticent heard) {ask : Ask ε} {next : ask.Answer → Course ε}
    (hask : ask ≠ .lookup) (hnext : ∀ answer, Aside heard (p.run (next answer))) :
    Aside heard (p.run (.step ask next)) :=
  (h.aside_perform hask).bind hnext

theorem Reticent.aside_logged (h : p.Reticent heard) {logs : Bool} {st : Statement}
    {next : Course ε} (hnext : Aside heard (p.run next)) :
    Aside heard (p.run (.logged logs st next)) := by
  unfold Course.logged
  split
  · exact h.aside_step (by simp) fun _ => hnext
  · exact hnext

theorem Reticent.aside_draw (h : p.Reticent heard) {logs : Bool} {spec : SequenceSpec}
    {next : Int64 → Course ε} (hnext : ∀ id, Aside heard (p.run (next id))) :
    Aside heard (p.run (.draw logs spec next)) := by
  refine h.aside_step (by simp) fun found => ?_
  cases found with
  | some id => exact hnext id
  | none => exact h.aside_step (by simp) fun st => h.aside_logged (h.aside_step (by simp) hnext)

theorem Reticent.aside_identify (h : p.Reticent heard) {logs : Bool}
    {read : ε → String → Option Value} {next : ε → Course ε}
    (hnext : ∀ complete, Aside heard (p.run (next complete))) (columns : List Column) (entity : ε) :
    Aside heard (p.run (.identify logs read next columns entity)) := by
  induction columns generalizing entity with
  | nil => exact hnext entity
  | cons c rest ih =>
    unfold Course.identify
    cases c.sequence? with
    | none => exact ih entity
    | some spec => exact h.aside_draw fun id => h.aside_step (by simp) ih

theorem Reticent.aside_advance (h : p.Reticent heard) {read : ε → String → Option Value}
    {version : Option Column} {entity : ε} {next : ε → Course ε}
    (hnext : ∀ advanced, Aside heard (p.run (next advanced))) :
    Aside heard (p.run (.advance read version entity next)) := by
  unfold Course.advance
  cases version with
  | none => exact hnext entity
  | some c => exact h.aside_step (by simp) hnext

theorem Reticent.aside_conclude (h : p.Reticent heard) (operation : Mutation) (m : Metamodel)
    (st : Statement) (entity : ε) : Aside heard (p.run (.conclude operation m st entity)) := by
  have hafter : Aside heard (p.run (.step (.hook (.after operation) m entity) .done)) :=
    h.aside_step (by simp) aside_pure
  refine h.aside_step (by simp) fun rows => ?_
  cases operation with
  | insert => exact hafter
  | update | delete => exact h.aside_step (by simp) fun _ => hafter

theorem Reticent.aside_prepare (h : p.Reticent heard) (logs : Bool)
    (read : ε → String → Option Value) (operation : Mutation) (entity : ε) (m : Metamodel) :
    Aside heard (p.run (.prepare logs read operation entity m)) := by
  refine h.aside_step (by simp) (h.aside_identify (fun complete => ?_) _)
  refine h.aside_step (by simp) fun st => h.aside_logged (h.aside_advance fun advanced => ?_)
  exact h.aside_conclude operation m st advanced

end Parties
end EntitySql
