import EntitySql.Proofs.Session.Provenance

/-!
Values of several sequences, handed out one after the other. Blocks are kept by name, so asking for
other sequences in between does not change what a name comes to.
-/

namespace EntitySql

namespace Allocator

/-- Answers to fetches, which have to be for the sequence that is fetched from. -/
def answered (spec : SequenceSpec) : StateT (List Fetch) Option Int64
  | f :: rest => if f.spec = spec then some (f.first, rest) else none
  | [] => none

def handOut : Allocator → List SequenceSpec →
    StateT (List Fetch) Option (List (SequenceSpec × Int64) × Allocator)
  | a, [] => pure ([], a)
  | a, spec :: specs => do
    let (id, b) ← a.next spec (answered spec)
    let (draws, c) ← b.handOut specs
    return ((spec, id) :: draws, c)

variable {a b c : Allocator} {spec : SequenceSpec} {specs : List SequenceSpec} {id : Int64}
  {fetches rest : List Fetch} {draws : List (SequenceSpec × Int64)} {name : String}

theorem next_answered_iff :
    a.next spec (answered spec) fetches = some ((id, b), rest) ↔
      a.take? spec = some (id, b) ∧ fetches = rest ∨
        a.take? spec = none ∧ b = a.reserve spec id ∧
          ∃ f, fetches = f :: rest ∧ f.spec = spec ∧ f.first = id := by
  unfold next
  cases a.take? spec with
  | some found =>
    change some (found, fetches) = some ((id, b), rest) ↔ _
    simp
  | none =>
    change (answered spec fetches >>= fun answer =>
      some ((answer.1, a.reserve spec answer.1), answer.2)) = some ((id, b), rest) ↔ _
    cases fetches with
    | nil => simp [answered]
    | cons f more =>
      by_cases hspec : f.spec = spec
      · simp only [answered, hspec]
        constructor
        · rintro ⟨⟩
          simp [hspec]
        · rintro (⟨⟨⟩, -⟩ | ⟨-, rfl, f', hf, -, rfl⟩)
          cases hf
          rfl
      · refine iff_of_false (by simp [answered, hspec]) ?_
        rintro (⟨⟨⟩, -⟩ | ⟨-, -, f', hf, hspec', -⟩)
        cases hf
        exact hspec hspec'

theorem handOut_nil_iff :
    a.handOut [] fetches = some ((draws, c), rest) ↔ draws = [] ∧ a = c ∧ fetches = rest := by
  change some (([], a), fetches) = some ((draws, c), rest) ↔ _
  simp [and_assoc, eq_comm]

theorem handOut_cons_iff :
    a.handOut (spec :: specs) fetches = some ((draws, c), rest) ↔
      ∃ id b between more, a.next spec (answered spec) fetches = some ((id, b), between) ∧
        b.handOut specs between = some ((more, c), rest) ∧ draws = (spec, id) :: more := by
  change (a.next spec (answered spec) fetches >>= fun first =>
    first.1.2.handOut specs first.2 >>= fun others =>
      some (((spec, first.1.1) :: others.1.1, others.1.2), others.2)) = some ((draws, c), rest) ↔ _
  constructor
  · intro h
    obtain ⟨⟨⟨id, b⟩, between⟩, hfirst, h⟩ := Option.bind_eq_some_iff.mp h
    obtain ⟨⟨⟨more, c'⟩, rest'⟩, hothers, h⟩ := Option.bind_eq_some_iff.mp h
    cases h
    exact ⟨id, b, between, more, hfirst, hothers, rfl⟩
  · rintro ⟨id, b, between, more, hfirst, hothers, rfl⟩
    rw [hfirst, Option.bind_eq_bind, Option.bind_some, hothers]
    rfl

private theorem block?_next_of_ne (hname : name ≠ spec.name)
    (h : a.next spec (answered spec) fetches = some ((id, b), rest)) :
    b.block? name = a.block? name := by
  rcases next_answered_iff.mp h with ⟨htake, -⟩ | ⟨-, rfl, -⟩
  · obtain ⟨remaining, rfl, -⟩ := take?_eq_some htake
    exact block?_put_of_ne a _ hname
  · unfold reserve
    split
    · exact block?_put_of_ne a _ hname
    · rfl

/-- What an allocator hands out of a sequence depends on the block of the sequence alone. -/
theorem exists_next_of_block?_eq {a' : Allocator} {fetches' rest' : List Fetch}
    (hblock : a.block? spec.name = a'.block? spec.name)
    (h : a.next spec (answered spec) fetches = some ((id, b), rest))
    (hfetches : ∀ f, f.spec = spec → fetches = f :: rest → fetches' = f :: rest')
    (hkept : fetches = rest → fetches' = rest') :
    ∃ b', a'.next spec (answered spec) fetches' = some ((id, b'), rest') ∧
      b.block? spec.name = b'.block? spec.name := by
  rcases next_answered_iff.mp h with ⟨htake, hrest⟩ | ⟨htake, rfl, f, hf, hspec, hfirst⟩
  · obtain ⟨remaining, rfl, hhere⟩ := take?_eq_some htake
    rw [hblock] at hhere
    have htake' : a'.take? spec = some (id, a'.put spec.name ⟨id + 1, remaining⟩) := by
      simp [take?, hhere]
    refine ⟨_, next_answered_iff.mpr (.inl ⟨htake', hkept hrest⟩), ?_⟩
    rw [block?_put_self, block?_put_self]
  · have htake' : a'.take? spec = none := by
      unfold take? at htake ⊢
      rw [← hblock]
      split at htake <;> simp_all
    have hf' := hfetches f hspec hf
    refine ⟨_, next_answered_iff.mpr (.inr ⟨htake', rfl, f, hf', hspec, hfirst⟩), ?_⟩
    unfold reserve
    split
    · rw [block?_put_self, block?_put_self]
    · exact hblock

theorem handOut_filter {a' : Allocator} (hblock : a.block? name = a'.block? name)
    (h : a.handOut specs fetches = some ((draws, c), [])) :
    ∃ c', a'.handOut (specs.filter (·.name == name)) (fetches.filter (·.spec.name == name)) =
      some ((draws.filter (·.1.name == name), c'), []) := by
  induction specs generalizing a a' fetches draws with
  | nil =>
    obtain ⟨rfl, rfl, rfl⟩ := handOut_nil_iff.mp h
    exact ⟨a', rfl⟩
  | cons spec specs ih =>
    obtain ⟨id, b, between, more, hfirst, hothers, rfl⟩ := handOut_cons_iff.mp h
    by_cases hname : spec.name = name
    · subst hname
      have hfetches : ∀ f, f.spec = spec → fetches = f :: between →
          fetches.filter (·.spec.name == spec.name) =
            f :: between.filter (·.spec.name == spec.name) := by
        rintro f rfl rfl
        rw [List.filter_cons_of_pos (by simp)]
      have hkept : fetches = between → fetches.filter (·.spec.name == spec.name) =
          between.filter (·.spec.name == spec.name) := by
        rintro rfl
        rfl
      obtain ⟨b', hfirst', hblock'⟩ := exists_next_of_block?_eq hblock hfirst hfetches hkept
      obtain ⟨c', hothers'⟩ := ih hblock' hothers
      refine ⟨c', ?_⟩
      simp only [List.filter_cons, beq_self_eq_true, if_true]
      exact handOut_cons_iff.mpr ⟨id, b', _, _, hfirst', hothers', rfl⟩
    · have hother : b.block? name = a'.block? name :=
        (block?_next_of_ne (Ne.symm hname) hfirst).trans hblock
      have hfetches : fetches.filter (·.spec.name == name) =
          between.filter (·.spec.name == name) := by
        rcases next_answered_iff.mp hfirst with ⟨-, rfl⟩ | ⟨-, -, f, rfl, rfl, -⟩
        · rfl
        · rw [List.filter_cons_of_neg (by simpa using hname)]
      obtain ⟨c', hothers'⟩ := ih hother hothers
      refine ⟨c', ?_⟩
      simpa [hname, hfetches] using hothers'

end Allocator

end EntitySql
