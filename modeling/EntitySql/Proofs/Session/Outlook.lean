import EntitySql.Proofs.Session.Course

/-!
What surrounds a session, as those see it who take part: which differences go unnoticed, and which
calls leave a trace. Two acts agree if they come to the same wherever no difference is noticed.
-/

namespace EntitySql

inductive Call
  | log (text : Option String)
  | fetch (st : Statement)
  | execute (st : Statement)
  deriving DecidableEq, Repr

namespace Call

def logged? : Call → Option (Option String)
  | log text => some text
  | fetch _ | execute _ => none

def statement? : Call → Option Statement
  | log _ => none
  | fetch st | execute st => some st

/-- The call as it looks to an executor that reads text and values alone. -/
def received? : Call → Option Call
  | log _ => none
  | fetch st => some (fetch { st with log := none })
  | execute st => some (execute { st with log := none })

end Call

/-- A way of looking at surroundings: which of them are all the same to those who take part, and
which calls have been made so far. -/
structure Outlook (τ : Type) where
  alike : τ → τ → Prop
  calls : τ → List Call

def Outlook.Agree {τ α : Type} (o : Outlook τ) (act act' : StateM τ α) (loud quiet : List Call) :
    Prop :=
  ∀ x y, o.alike x y → (act x).1 = (act' y).1 ∧ o.alike (act x).2 (act' y).2 ∧
    o.calls (act x).2 = o.calls x ++ loud ∧ o.calls (act' y).2 = o.calls y ++ quiet

namespace Outlook

theorem unheard {τ : Type} (o : Outlook τ) (x y : τ) :
    o.calls x = o.calls x ++ [] ∧ o.calls y = o.calls y ++ [] :=
  ⟨(List.append_nil _).symm, (List.append_nil _).symm⟩

section

variable {τ α β ε : Type} {o : Outlook τ} {act act' : StateM τ α} {loud quiet : List Call} {x y : τ}

theorem agree_pure (a : α) : o.Agree (pure a) (pure a) [] [] :=
  fun x y hxy => ⟨rfl, hxy, o.unheard x y⟩

theorem agree_return (a : α) : o.Agree (pure a : Attempt τ ε α) (pure a : Attempt τ ε α) [] [] :=
  agree_pure (Except.ok a)

theorem agree_lift (h : o.Agree act act' loud quiet) :
    o.Agree (liftM act : Attempt τ ε α) (liftM act' : Attempt τ ε α) loud quiet := by
  intro x y hxy
  obtain ⟨hresult, hagreed⟩ := h x y hxy
  exact ⟨congrArg Except.ok hresult, hagreed⟩

theorem Agree.attempts {f f' : Attempt τ ε α} (h : o.Agree f f' loud quiet) (hxy : o.alike x y) :
    ∃ result x' y', f x = (result, x') ∧ f' y = (result, y') ∧ o.alike x' y' ∧
      o.calls x' = o.calls x ++ loud ∧ o.calls y' = o.calls y ++ quiet := by
  obtain ⟨hresult, hagreed⟩ := h x y hxy
  exact ⟨(f x).1, (f x).2, (f' y).2, rfl, Prod.ext hresult.symm rfl, hagreed⟩

theorem Agree.bind {f f' : Attempt τ ε α} {g g' : α → Attempt τ ε β}
    (h : o.Agree f f' loud quiet) (hg : ∀ a, o.Agree (g a) (g' a) [] []) :
    o.Agree (f >>= g : Attempt τ ε β) (f' >>= g' : Attempt τ ε β) loud quiet := by
  intro x y hxy
  obtain ⟨result, x', y', hx, hy, halike, hloud, hquiet⟩ := h.attempts hxy
  rw [Attempt.bind_apply, Attempt.bind_apply, hx, hy]
  cases result with
  | error e => exact ⟨rfl, halike, hloud, hquiet⟩
  | ok a =>
    obtain ⟨hresult, hafter, hmore, hmore'⟩ := hg a x' y' halike
    rw [hloud, List.append_nil] at hmore
    rw [hquiet, List.append_nil] at hmore'
    exact ⟨hresult, hafter, hmore, hmore'⟩

end

def session {σ : Type} (o : Outlook σ) : Outlook (SessionState σ) where
  alike x y :=
    x.registry = y.registry ∧ x.allocator = y.allocator ∧ o.alike x.surroundings y.surroundings
  calls state := o.calls state.surroundings

section

open Operation

variable {σ α ε : Type} {o : Outlook σ} {loud quiet : List Call}

theorem agree_attempt {act act' : Attempt σ ε α} {wrap : ε → QueryError}
    (h : o.Agree act act' loud quiet) :
    o.session.Agree (attempt wrap act) (attempt wrap act') loud quiet := by
  rintro x y ⟨hregistry, hallocator, hxy⟩
  obtain ⟨hresult, halike, hcalls⟩ := h _ _ hxy
  exact ⟨congrArg (·.mapError wrap) hresult, ⟨hregistry, hallocator, halike⟩, hcalls⟩

theorem agree_outside {act act' : StateM σ α} (h : o.Agree act act' loud quiet) :
    o.session.Agree (outside act) (outside act') loud quiet := by
  rintro x y ⟨hregistry, hallocator, hxy⟩
  obtain ⟨hresult, halike, hcalls⟩ := h _ _ hxy
  exact ⟨congrArg Except.ok hresult, ⟨hregistry, hallocator, halike⟩, hcalls⟩

theorem agree_ofExcept (wrap : ε → QueryError) (result : Except ε α) :
    o.session.Agree (ofExcept wrap result : Operation σ α) (ofExcept wrap result) [] [] :=
  agree_pure (result.mapError wrap)

theorem agree_allocator {act : StateM (SessionState σ) α} (f : Allocator → α × Allocator)
    (hact : ∀ state, act state =
      ((f state.allocator).1, { state with allocator := (f state.allocator).2 })) :
    o.session.Agree act act [] [] := by
  intro x y hxy
  rw [hact, hact, hxy.2.1]
  exact ⟨rfl, ⟨hxy.1, rfl, hxy.2.2⟩, o.session.unheard x y⟩

end

end Outlook
end EntitySql
