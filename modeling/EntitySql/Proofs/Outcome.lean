import EntitySql.Session.Listener
import Mathlib.Data.List.Forall2

/-!
Results of computations that may fail. A sequence of steps succeeds exactly if each step does,
which opens a computation at the values its steps found. An attempt is such a computation on
surroundings: each step goes on from where the step before left them.
-/

namespace Except

variable {ε ε' α β : Type}

theorem pure_eq_ok_iff {a b : α} : (pure a : Except ε α) = .ok b ↔ a = b := by
  simp [pure, Except.pure]

theorem bind_eq_ok_iff {x : Except ε α} {f : α → Except ε β} {b : β} :
    x >>= f = .ok b ↔ ∃ a, x = .ok a ∧ f a = .ok b := by
  cases x with
  | error e => simp [bind, Except.bind]
  | ok a => simp [bind, Except.bind]

theorem map_eq_ok_iff {x : Except ε α} {f : α → β} {b : β} :
    f <$> x = .ok b ↔ ∃ a, x = .ok a ∧ f a = b := by
  cases x with
  | error e => simp [Functor.map, Except.map]
  | ok a => simp [Functor.map, Except.map]

theorem map_eq_error_iff {x : Except ε α} {f : α → β} {e : ε} :
    f <$> x = .error e ↔ x = .error e := by
  cases x with
  | error e' => simp [Functor.map, Except.map]
  | ok a => simp [Functor.map, Except.map]

theorem mapError_eq_ok_iff {x : Except ε α} {f : ε → ε'} {a : α} :
    x.mapError f = .ok a ↔ x = .ok a := by
  cases x with
  | error e =>
    have hfails : (Except.error e : Except ε α).mapError f = .error (f e) := rfl
    simp [hfails]
  | ok b =>
    have hkept : (Except.ok b : Except ε α).mapError f = .ok b := rfl
    simp [hkept]

theorem guard_eq_ok_iff {c : Prop} [Decidable c] {e : ε} {rest : Unit → Except ε β} {b : β} :
    (if c then throw e >>= rest else rest ()) = .ok b ↔ ¬c ∧ rest () = .ok b := by
  split
  next hc =>
    have hfails : (throw e >>= rest : Except ε β) ≠ .ok b := by
      intro h
      cases h
    simp [hc, hfails]
  next hc => simp [hc]

theorem forall₂_of_mapM_eq_ok {f : α → Except ε β} {l : List α} {found : List β}
    (h : l.mapM f = .ok found) : List.Forall₂ (fun a b => f a = .ok b) l found := by
  induction l generalizing found with
  | nil =>
    cases pure_eq_ok_iff.mp h
    exact .nil
  | cons a rest ih =>
    rw [List.mapM_cons] at h
    obtain ⟨b, hb, h⟩ := bind_eq_ok_iff.mp h
    obtain ⟨others, hothers, rfl⟩ := map_eq_ok_iff.mp h
    exact .cons hb (ih hothers)

theorem mapM_eq_of_forall₂ {f : α → Except ε β} {R : α → α → Prop} {l others : List α}
    (h : List.Forall₂ R l others) (hf : ∀ a b, R a b → f b = f a) : others.mapM f = l.mapM f := by
  induction h with
  | nil => rfl
  | cons hfirst _ ih => rw [List.mapM_cons, List.mapM_cons, hf _ _ hfirst, ih]

end Except

namespace EntitySql.Attempt

variable {σ ε α β : Type} {s s' : σ}

@[simp] theorem pure_apply (a : α) (s : σ) : (pure a : Attempt σ ε α) s = (.ok a, s) := rfl

@[simp] theorem get_apply (s : σ) : (get : Attempt σ ε σ) s = (.ok s, s) := rfl

@[simp] theorem modify_apply (f : σ → σ) (s : σ) :
    (modify f : Attempt σ ε PUnit) s = (.ok ⟨⟩, f s) := rfl

@[simp] theorem ofExcept_apply (result : Except ε α) (s : σ) :
    (ofExcept result : Attempt σ ε α) s = (result, s) := rfl

theorem bind_apply (x : Attempt σ ε α) (f : α → Attempt σ ε β) (s : σ) :
    (x >>= f) s = match x s with
      | (.ok a, s') => f a s'
      | (.error e, s') => (.error e, s') := by
  have hstep : (x >>= f) s = ExceptT.bindCont f (x s).1 (x s).2 := rfl
  rw [hstep]
  rcases x s with ⟨_ | _, _⟩
  · rfl
  · rfl

@[simp] theorem map_apply (f : α → β) (x : Attempt σ ε α) (s : σ) :
    (f <$> x) s = ((x s).1.map f, (x s).2) := by
  rw [map_eq_pure_bind, bind_apply]
  rcases x s with ⟨_ | _, _⟩
  · rfl
  · rfl

theorem bind_of_ok {x : Attempt σ ε α} {f : α → Attempt σ ε β} {a : α}
    (h : x s = (.ok a, s')) : (x >>= f) s = f a s' := by
  rw [bind_apply, h]

theorem exists_of_bind_ok {x : Attempt σ ε α} {f : α → Attempt σ ε β} {b : β}
    (h : (x >>= f) s = (.ok b, s')) :
    ∃ a between, x s = (.ok a, between) ∧ f a between = (.ok b, s') := by
  rw [bind_apply] at h
  match hx : x s with
  | (.ok a, between) => exact ⟨a, between, rfl, by rwa [hx] at h⟩
  | (.error e, between) =>
    rw [hx] at h
    cases h

end EntitySql.Attempt
