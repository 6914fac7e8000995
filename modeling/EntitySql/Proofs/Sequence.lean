import EntitySql.Proofs.Outcome
import EntitySql.Sequence
import Mathlib.Algebra.Order.Floor.Div
import Mathlib.Data.List.Nodup
import Mathlib.Data.List.Pairwise

/-!
Runs of allocators. Several allocators serve requests in any order, and any fetch may fail. What
an allocator has handed out of a sequence, followed by what it still has in reserve, are the
blocks that it fetched; so blocks that do not overlap give every value once.
-/

namespace EntitySql

/-- As many integers as told, in ascending order and without gaps. -/
def consecutive (first : Int) : Nat → List Int
  | 0 => []
  | count + 1 => first :: consecutive (first + 1) count

@[simp] theorem length_consecutive (first : Int) (count : Nat) :
    (consecutive first count).length = count := by
  induction count generalizing first with
  | zero => rfl
  | succ count ih => simp [consecutive, ih]

theorem mem_consecutive {first n : Int} {count : Nat} :
    n ∈ consecutive first count ↔ first ≤ n ∧ n < first + count := by
  induction count generalizing first with
  | zero =>
    simp only [consecutive, List.not_mem_nil, false_iff]
    omega
  | succ count ih =>
    simp only [consecutive, List.mem_cons, ih]
    omega

theorem nodup_consecutive (first : Int) (count : Nat) : (consecutive first count).Nodup := by
  induction count generalizing first with
  | zero => exact .nil
  | succ count ih =>
    refine List.nodup_cons.mpr ⟨?_, ih _⟩
    rw [mem_consecutive]
    omega

structure Draw where
  allocator : Nat
  spec : SequenceSpec
  value : Int64
  deriving DecidableEq, Repr

namespace Draw

/-- The values that a fetched one reserves, itself included. -/
def block (d : Draw) : List Int := consecutive d.value.toInt d.spec.increment.toInt.toNat

/-- Fetched blocks of one sequence do not overlap. -/
def Apart (d e : Draw) : Prop := d.spec.name = e.spec.name → d.block.Disjoint e.block

instance (d e : Draw) : Decidable (Apart d e) :=
  inferInstanceAs (Decidable (d.spec.name = e.spec.name → ∀ n ∈ d.block, n ∉ e.block))

instance : Std.Symm Apart where
  symm _ _ hapart hname := (hapart hname.symm).symm

def of (allocator : Nat) (name : String) (draws : List Draw) : List Draw :=
  draws.filter fun d => d.allocator == allocator && d.spec.name == name

theorem of_append (allocator : Nat) (name : String) (draws more : List Draw) :
    of allocator name (draws ++ more) = of allocator name draws ++ of allocator name more :=
  List.filter_append ..

@[simp] theorem of_self (d : Draw) : of d.allocator d.spec.name [d] = [d] := by
  simp [of]

theorem of_other {d : Draw} {allocator : Nat} {name : String}
    (h : ¬(allocator = d.allocator ∧ name = d.spec.name)) : of allocator name [d] = [] := by
  have hne : d.allocator = allocator → ¬d.spec.name = name := fun ha hn => h ⟨ha.symm, hn.symm⟩
  simpa [of] using hne

theorem mem_of {d : Draw} {allocator : Nat} {name : String} {draws : List Draw} :
    d ∈ of allocator name draws ↔
      d ∈ draws ∧ d.allocator = allocator ∧ d.spec.name = name := by
  simp [of]

end Draw

/-- What a run of requests leaves behind. The fetches that failed are in none of the lists. -/
structure History where
  allocators : Nat → Allocator := fun _ => {}
  fetched : List Draw := []
  handed : List Draw := []

namespace History

/-- One more value is handed out by an allocator, after what it fetched for it. -/
def extend (h : History) (d : Draw) (new : List Draw) (a : Allocator) : History where
  allocators := Function.update h.allocators d.allocator a
  fetched := h.fetched ++ new
  handed := h.handed ++ [d]

@[simp] theorem allocators_extend_self (h : History) (d : Draw) (new : List Draw)
    (a : Allocator) : (h.extend d new a).allocators d.allocator = a :=
  Function.update_self ..

private theorem allocators_extend_of_ne (h : History) {d : Draw} (new : List Draw) (a : Allocator)
    {allocator : Nat} (hne : allocator ≠ d.allocator) :
    (h.extend d new a).allocators allocator = h.allocators allocator :=
  Function.update_of_ne hne ..

@[simp] theorem fetched_extend (h : History) (d : Draw) (new : List Draw) (a : Allocator) :
    (h.extend d new a).fetched = h.fetched ++ new := rfl

@[simp] theorem handed_extend (h : History) (d : Draw) (new : List Draw) (a : Allocator) :
    (h.extend d new a).handed = h.handed ++ [d] := rfl

end History

/-- A request to one of the allocators. `answer` is what a fetch would give at that moment. -/
structure Request (ε : Type) where
  allocator : Nat
  spec : SequenceSpec
  answer : Except ε Int64

namespace Request

variable {ε : Type}

def fetch (r : Request ε) : Attempt History ε Int64 := do
  let first ← Attempt.ofExcept r.answer
  modify fun h => { h with fetched := h.fetched ++ [⟨r.allocator, r.spec, first⟩] }
  return first

def serve (r : Request ε) : Attempt History ε Int64 := do
  let (value, allocator) ← ((← get).allocators r.allocator).next r.spec r.fetch
  modify fun h => { h with
    allocators := Function.update h.allocators r.allocator allocator
    handed := h.handed ++ [⟨r.allocator, r.spec, value⟩] }
  return value

variable {r : Request ε} {h : History}

theorem serve_of_take?_eq_some {value : Int64} {a : Allocator}
    (htake : (h.allocators r.allocator).take? r.spec = some (value, a)) :
    r.serve h = (.ok value, h.extend ⟨r.allocator, r.spec, value⟩ [] a) := by
  simp [serve, History.extend, Allocator.next, Attempt.bind_apply, Except.map, htake]

theorem serve_of_answer_eq_ok {first : Int64}
    (htake : (h.allocators r.allocator).take? r.spec = none) (hanswer : r.answer = .ok first) :
    r.serve h = (.ok first, h.extend ⟨r.allocator, r.spec, first⟩ [⟨r.allocator, r.spec, first⟩]
      ((h.allocators r.allocator).reserve r.spec first)) := by
  simp [serve, History.extend, Allocator.next, fetch, Attempt.bind_apply, Except.map, htake,
    hanswer]

theorem serve_of_answer_eq_error {e : ε}
    (htake : (h.allocators r.allocator).take? r.spec = none) (hanswer : r.answer = .error e) :
    r.serve h = (.error e, h) := by
  simp [serve, Allocator.next, fetch, Attempt.bind_apply, htake, hanswer]

end Request

namespace Allocator

def reserved (a : Allocator) (name : String) : List Int :=
  match a.block? name with
  | some block => consecutive block.next.toInt block.remaining
  | none => []

variable {a : Allocator} {spec : SequenceSpec}

theorem reserved_of_block? {name : String} {block : Block} (h : a.block? name = some block) :
    a.reserved name = consecutive block.next.toInt block.remaining := by
  rw [reserved, h]

private theorem reserved_put_of_ne {name other : String} (block : Block) (h : other ≠ name) :
    (a.put name block).reserved other = a.reserved other := by
  unfold reserved
  rw [a.block?_put_of_ne block h]

private theorem reserved_reserve_of_ne {first : Int64} {other : String} (h : other ≠ spec.name) :
    (a.reserve spec first).reserved other = a.reserved other := by
  unfold reserve
  split
  · exact reserved_put_of_ne _ h
  · rfl

private theorem take?_eq_none (h : a.take? spec = none) : a.reserved spec.name = [] := by
  unfold take? at h
  unfold reserved
  match hblock : a.block? spec.name with
  | none => rfl
  | some ⟨_, 0⟩ => rfl
  | some ⟨_, _ + 1⟩ => simp [hblock] at h

theorem take?_eq_some {value : Int64} {b : Allocator} (h : a.take? spec = some (value, b)) :
    ∃ remaining, b = a.put spec.name ⟨value + 1, remaining⟩ ∧
      a.block? spec.name = some ⟨value, remaining + 1⟩ := by
  unfold take? at h
  match hblock : a.block? spec.name with
  | none => simp [hblock] at h
  | some ⟨_, 0⟩ => simp [hblock] at h
  | some ⟨next, remaining + 1⟩ =>
    simp only [hblock, Option.some.injEq, Prod.mk.injEq] at h
    obtain ⟨rfl, rfl⟩ := h
    exact ⟨remaining, rfl, rfl⟩

theorem reserved_of_take? {value : Int64} {b : Allocator} (h : a.take? spec = some (value, b)) :
    value.toInt ∈ a.reserved spec.name ∧
      (value.toInt + 1 ≤ Int64.maxValue.toInt →
        a.reserved spec.name = value.toInt :: b.reserved spec.name) := by
  obtain ⟨remaining, rfl, hblock⟩ := take?_eq_some h
  have hreserved : a.reserved spec.name =
      value.toInt :: consecutive (value.toInt + 1) remaining := reserved_of_block? hblock
  rw [hreserved]
  refine ⟨List.mem_cons_self, fun hbound => ?_⟩
  rw [reserved_of_block? (a.block?_put_self ..), toInt_add_one hbound]

theorem reserved_of_reserve {first : Int64} (hincrement : 1 ≤ spec.increment)
    (hbound : first.toInt + spec.increment.toInt ≤ Int64.maxValue.toInt)
    (hempty : a.reserved spec.name = []) :
    first.toInt :: (a.reserve spec first).reserved spec.name =
      consecutive first.toInt spec.increment.toInt.toNat := by
  have hone : 1 ≤ spec.increment.toInt := Int64.le_iff_toInt_le.mp hincrement
  obtain ⟨rest, hrest⟩ : ∃ rest, spec.increment.toInt.toNat = rest + 1 :=
    ⟨spec.increment.toInt.toNat - 1, by omega⟩
  rw [hrest, consecutive]
  congr 1
  unfold reserve
  split
  next hmany =>
    have hmore : 1 < spec.increment.toInt := Int64.lt_iff_toInt_lt.mp hmany
    have hfirst : first ≠ Int64.maxValue := by
      rintro rfl
      omega
    have hnext : first.toInt + 1 ≤ Int64.maxValue.toInt := by omega
    rw [reserved_of_block? (a.block?_put_self ..), if_neg hfirst, toInt_add_one hnext, hrest]
    rfl
  next hsingle =>
    have hrest' : rest = 0 := by
      have hnot : ¬1 < spec.increment.toInt := fun h => hsingle (Int64.lt_iff_toInt_lt.mpr h)
      omega
    rw [hempty, hrest']
    rfl

end Allocator

/-- Sequences that are told apart by their names, and that advance. -/
structure SequenceSpec.Distinguished (specs : Set SequenceSpec) : Prop where
  eq_of_name : ∀ spec ∈ specs, ∀ other ∈ specs, spec.name = other.name → spec = other
  advances : ∀ spec ∈ specs, 1 ≤ spec.increment

private theorem SequenceSpec.count_pos {spec : SequenceSpec} (h : 1 ≤ spec.increment) :
    0 < spec.increment.toInt.toNat := by
  have hone : 1 ≤ spec.increment.toInt := Int64.le_iff_toInt_le.mp h
  omega

namespace History

def Bounded (h : History) : Prop :=
  ∀ d ∈ h.fetched, d.value.toInt + d.spec.increment.toInt ≤ Int64.maxValue.toInt

/-- The blocks of one sequence do not overlap, whichever allocators fetched them. -/
def Apart (h : History) : Prop := h.fetched.Pairwise Draw.Apart

instance (h : History) : Decidable h.Bounded := List.decidableBAll ..

instance (h : History) : Decidable h.Apart := List.instDecidablePairwise ..

/-- What an allocator has handed out of a sequence and what it has in reserve add up to the blocks
that it fetched, and the reserve is less than a block. -/
structure Accounted (specs : Set SequenceSpec) (h : History) : Prop where
  fetched_mem : ∀ d ∈ h.fetched, d.spec ∈ specs
  handed_mem : ∀ d ∈ h.handed, d.spec ∈ specs
  total : ∀ allocator, ∀ spec ∈ specs,
    (Draw.of allocator spec.name h.handed).map (·.value.toInt) ++
        (h.allocators allocator).reserved spec.name =
      (Draw.of allocator spec.name h.fetched).flatMap Draw.block
  short : ∀ allocator, ∀ spec ∈ specs,
    ((h.allocators allocator).reserved spec.name).length < spec.increment.toInt.toNat

variable {ε : Type} {specs : Set SequenceSpec} {h : History} {r : Request ε}
  {requests more : List (Request ε)}

theorem accounted_empty (hspecs : SequenceSpec.Distinguished specs) :
    Accounted specs ({} : History) where
  fetched_mem := by simp
  handed_mem := by simp
  total allocator spec _ := rfl
  short allocator spec hspec := SequenceSpec.count_pos (hspecs.advances spec hspec)

/-- One more value is handed out, from the reserve or as the first of a new block. -/
theorem Accounted.extend (haccounted : h.Accounted specs)
    (hspecs : SequenceSpec.Distinguished specs) {d : Draw} {a : Allocator} {new : List Draw}
    (hd : d.spec ∈ specs) (hnew : new = [] ∨ new = [d])
    (hself : d.value.toInt :: a.reserved d.spec.name =
      (h.allocators d.allocator).reserved d.spec.name ++ new.flatMap Draw.block)
    (hother : ∀ other, other ≠ d.spec.name →
      a.reserved other = (h.allocators d.allocator).reserved other)
    (hshort : (a.reserved d.spec.name).length < d.spec.increment.toInt.toNat) :
    (h.extend d new a).Accounted specs := by
  have hnew_mem : ∀ e ∈ new, e = d := by
    rcases hnew with rfl | rfl <;> simp
  have hnew_self : Draw.of d.allocator d.spec.name new = new := by
    rcases hnew with rfl | rfl
    · rfl
    · exact d.of_self
  have hnew_other : ∀ {allocator name}, ¬(allocator = d.allocator ∧ name = d.spec.name) →
      Draw.of allocator name new = [] := by
    intro allocator name hne
    rcases hnew with rfl | rfl
    · rfl
    · exact Draw.of_other hne
  have hkept : ∀ {allocator name}, ¬(allocator = d.allocator ∧ name = d.spec.name) →
      ((h.extend d new a).allocators allocator).reserved name =
        (h.allocators allocator).reserved name := by
    intro allocator name hne
    by_cases hallocator : allocator = d.allocator
    · subst hallocator
      rw [allocators_extend_self]
      exact hother name fun hname => hne ⟨rfl, hname⟩
    · rw [h.allocators_extend_of_ne new a hallocator]
  refine ⟨?_, ?_, ?_, ?_⟩
  · intro e he
    rcases List.mem_append.mp he with he | he
    · exact haccounted.fetched_mem e he
    · rwa [hnew_mem e he]
  · intro e he
    rcases List.mem_append.mp he with he | he
    · exact haccounted.handed_mem e he
    · rwa [List.mem_singleton.mp he]
  · intro allocator spec hspec
    have htotal := haccounted.total allocator spec hspec
    rw [handed_extend, fetched_extend, Draw.of_append, Draw.of_append]
    by_cases hsame : allocator = d.allocator ∧ spec.name = d.spec.name
    · obtain ⟨rfl, hname⟩ := hsame
      rw [hname] at htotal ⊢
      rw [Draw.of_self, hnew_self, allocators_extend_self, List.flatMap_append, ← htotal]
      simp [hself]
    · rw [Draw.of_other hsame, hnew_other hsame, hkept hsame]
      simpa using htotal
  · intro allocator spec hspec
    by_cases hsame : allocator = d.allocator ∧ spec.name = d.spec.name
    · obtain ⟨rfl, hname⟩ := hsame
      obtain rfl := hspecs.eq_of_name spec hspec d.spec hd hname
      rwa [allocators_extend_self]
    · rw [hkept hsame]
      exact haccounted.short allocator spec hspec

theorem Accounted.reserved_lt (haccounted : h.Accounted specs) (hbounded : h.Bounded)
    {allocator : Nat} {spec : SequenceSpec} (hspec : spec ∈ specs) {n : Int}
    (hn : n ∈ (h.allocators allocator).reserved spec.name) : n + 1 ≤ Int64.maxValue.toInt := by
  have hfetched : n ∈ (Draw.of allocator spec.name h.fetched).flatMap Draw.block := by
    rw [← haccounted.total allocator spec hspec]
    exact List.mem_append_right _ hn
  obtain ⟨d, hd, hblock⟩ := List.mem_flatMap.mp hfetched
  have hbound := hbounded d (Draw.mem_of.mp hd).1
  obtain ⟨hlow, hhigh⟩ := mem_consecutive.mp hblock
  omega

theorem fetched_prefix_serve (r : Request ε) (h : History) :
    h.fetched <+: (r.serve h).2.fetched := by
  match htake : (h.allocators r.allocator).take? r.spec, hanswer : r.answer with
  | some (value, a), _ =>
    rw [Request.serve_of_take?_eq_some htake]
    exact List.prefix_append ..
  | none, .error e =>
    rw [Request.serve_of_answer_eq_error htake hanswer]
  | none, .ok first =>
    rw [Request.serve_of_answer_eq_ok htake hanswer]
    exact List.prefix_append ..

theorem Bounded.of_prefix {later : History} (hbounded : later.Bounded)
    (hearlier : h.fetched <+: later.fetched) : h.Bounded :=
  fun d hd => hbounded d (hearlier.subset hd)

theorem accounted_serve (hspecs : SequenceSpec.Distinguished specs) (hr : r.spec ∈ specs)
    (haccounted : h.Accounted specs) (hbounded : (r.serve h).2.Bounded) :
    (r.serve h).2.Accounted specs := by
  have hbefore := hbounded.of_prefix (fetched_prefix_serve r h)
  match htake : (h.allocators r.allocator).take? r.spec with
  | some (value, a) =>
    rw [Request.serve_of_take?_eq_some htake]
    obtain ⟨hmem, hreserved⟩ := Allocator.reserved_of_take? htake
    have hreserved := hreserved (haccounted.reserved_lt hbefore hr hmem)
    have hshort := haccounted.short r.allocator r.spec hr
    obtain ⟨remaining, rfl, -⟩ := Allocator.take?_eq_some htake
    rw [hreserved, List.length_cons] at hshort
    refine haccounted.extend hspecs hr (.inl rfl) ?_ ?_ (Nat.lt_of_succ_lt hshort)
    · simp [hreserved]
    · exact fun other hne => Allocator.reserved_put_of_ne _ hne
  | none =>
    match hanswer : r.answer with
    | .error e =>
      rw [Request.serve_of_answer_eq_error htake hanswer]
      exact haccounted
    | .ok first =>
      rw [Request.serve_of_answer_eq_ok htake hanswer] at hbounded ⊢
      have hempty := Allocator.take?_eq_none htake
      have hblock := Allocator.reserved_of_reserve (hspecs.advances _ hr)
        (hbounded ⟨r.allocator, r.spec, first⟩ (by simp)) hempty
      refine haccounted.extend hspecs hr (.inr rfl) ?_ ?_ ?_
      · simp [hempty, hblock, Draw.block]
      · exact fun other hne => Allocator.reserved_reserve_of_ne hne
      · have hlength := congrArg List.length hblock
        rw [List.length_cons, length_consecutive] at hlength
        exact Nat.lt_of_succ_le (Nat.le_of_eq hlength)

def run (h : History) (requests : List (Request ε)) : History :=
  requests.foldl (fun h r => (r.serve h).2) h

theorem fetched_prefix_run (h : History) (requests : List (Request ε)) :
    h.fetched <+: (h.run requests).fetched := by
  induction requests generalizing h with
  | nil => exact List.prefix_rfl
  | cons r rest ih => exact (fetched_prefix_serve r h).trans (ih _)

theorem accounted_run (hspecs : SequenceSpec.Distinguished specs)
    (hrequests : ∀ r ∈ requests, r.spec ∈ specs) (haccounted : h.Accounted specs)
    (hbounded : (h.run requests).Bounded) : (h.run requests).Accounted specs := by
  induction requests generalizing h with
  | nil => exact haccounted
  | cons r rest ih =>
    rw [List.forall_mem_cons] at hrequests
    have hserved := hbounded.of_prefix (fetched_prefix_run (r.serve h).2 rest)
    exact ih hrequests.2 (accounted_serve hspecs hrequests.1 haccounted hserved) hbounded

theorem Apart.of_prefix {later : History} (hapart : later.Apart)
    (hearlier : h.fetched <+: later.fetched) : h.Apart :=
  hapart.sublist hearlier.sublist

/-- What requests leave behind is orderly: every value is one of a block that its allocator
fetched of its sequence, no value of a sequence is handed out twice, and each allocator hands out
one block after the other, from its first value to its last, with no fetch before its time. -/
structure Orderly (specs : Set SequenceSpec) (h : History) : Prop where
  from_block : ∀ d ∈ h.handed, ∃ e ∈ h.fetched,
    e.allocator = d.allocator ∧ e.spec = d.spec ∧ d.value.toInt ∈ e.block
  distinct : h.handed.Pairwise fun d e => d.spec.name = e.spec.name → d.value ≠ e.value
  in_order : ∀ allocator, ∀ spec ∈ specs,
    (Draw.of allocator spec.name h.handed).map (·.value.toInt) <+:
      (Draw.of allocator spec.name h.fetched).flatMap Draw.block
  fetches : ∀ allocator, ∀ spec ∈ specs,
    (Draw.of allocator spec.name h.fetched).length =
      (Draw.of allocator spec.name h.handed).length ⌈/⌉ spec.increment.toInt.toNat

theorem Accounted.in_order (haccounted : h.Accounted specs) (allocator : Nat)
    {spec : SequenceSpec} (hspec : spec ∈ specs) :
    (Draw.of allocator spec.name h.handed).map (·.value.toInt) <+:
      (Draw.of allocator spec.name h.fetched).flatMap Draw.block := by
  rw [← haccounted.total allocator spec hspec]
  exact List.prefix_append ..

theorem Accounted.from_block (haccounted : h.Accounted specs)
    (hspecs : SequenceSpec.Distinguished specs) {d : Draw} (hd : d ∈ h.handed) :
    ∃ e ∈ h.fetched, e.allocator = d.allocator ∧ e.spec = d.spec ∧ d.value.toInt ∈ e.block := by
  have hspec := haccounted.handed_mem d hd
  have hvalue : d.value.toInt ∈ (Draw.of d.allocator d.spec.name h.handed).map (·.value.toInt) :=
    List.mem_map_of_mem (f := fun d : Draw => d.value.toInt) (Draw.mem_of.mpr ⟨hd, rfl, rfl⟩)
  obtain ⟨e, he, hblock⟩ :=
    List.mem_flatMap.mp ((haccounted.in_order d.allocator hspec).subset hvalue)
  obtain ⟨hfetched, hallocator, hname⟩ := Draw.mem_of.mp he
  have hsame := hspecs.eq_of_name e.spec (haccounted.fetched_mem e hfetched) d.spec hspec hname
  exact ⟨e, hfetched, hallocator, hsame, hblock⟩

/-- Full blocks but for what is left of the last one. -/
theorem Accounted.fetches (haccounted : h.Accounted specs)
    (hspecs : SequenceSpec.Distinguished specs) (allocator : Nat) {spec : SequenceSpec}
    (hspec : spec ∈ specs) :
    (Draw.of allocator spec.name h.fetched).length =
      (Draw.of allocator spec.name h.handed).length ⌈/⌉ spec.increment.toInt.toNat := by
  have hblocks : ∀ draws : List Draw, (∀ d ∈ draws, d.spec = spec) →
      (draws.flatMap Draw.block).length = draws.length * spec.increment.toInt.toNat := by
    intro draws hdraws
    induction draws with
    | nil => simp
    | cons d rest ih =>
      rw [List.forall_mem_cons] at hdraws
      rw [List.flatMap_cons, List.length_append, ih hdraws.2, Draw.block, length_consecutive,
        hdraws.1, List.length_cons, Nat.succ_mul, Nat.add_comm]
  have hfetched : ∀ d ∈ Draw.of allocator spec.name h.fetched, d.spec = spec := by
    intro d hd
    obtain ⟨hmem, -, hname⟩ := Draw.mem_of.mp hd
    exact hspecs.eq_of_name d.spec (haccounted.fetched_mem d hmem) spec hspec hname
  have htotal := congrArg List.length (haccounted.total allocator spec hspec)
  rw [List.length_append, List.length_map, hblocks _ hfetched] at htotal
  have hshort := haccounted.short allocator spec hspec
  have hpos : 0 < spec.increment.toInt.toNat := by omega
  rw [Nat.ceilDiv_eq_add_pred_div]
  refine (Nat.div_eq_of_lt_le ?_ ?_).symm
  · omega
  · rw [Nat.succ_mul]
    omega

theorem Accounted.nodup_values (haccounted : h.Accounted specs) (hapart : h.Apart)
    (allocator : Nat) {spec : SequenceSpec} (hspec : spec ∈ specs) :
    ((Draw.of allocator spec.name h.handed).map (·.value.toInt)).Nodup := by
  have hblocks : ((Draw.of allocator spec.name h.fetched).flatMap Draw.block).Nodup := by
    refine List.nodup_flatMap.mpr ⟨fun d _ => nodup_consecutive .., ?_⟩
    have hof : (Draw.of allocator spec.name h.fetched).Pairwise Draw.Apart := hapart.filter _
    refine hof.imp_of_mem fun hd he hdisjoint => hdisjoint ?_
    rw [(Draw.mem_of.mp hd).2.2, (Draw.mem_of.mp he).2.2]
  exact hblocks.sublist (haccounted.in_order allocator hspec).sublist

theorem Accounted.distinct (haccounted : h.Accounted specs)
    (hspecs : SequenceSpec.Distinguished specs) (hapart : h.Apart) :
    h.handed.Pairwise fun d e => d.spec.name = e.spec.name → d.value ≠ e.value := by
  rw [List.pairwise_iff_forall_sublist]
  intro d e hsub hname hvalue
  have hd : d ∈ h.handed := hsub.subset (by simp)
  have he : e ∈ h.handed := hsub.subset (by simp)
  by_cases hallocator : e.allocator = d.allocator
  · have hpair : [d, e].Sublist (Draw.of d.allocator d.spec.name h.handed) := by
      have hboth : Draw.of d.allocator d.spec.name [d, e] = [d, e] := by
        simp [Draw.of, hallocator, hname]
      exact hboth ▸ hsub.filter _
    have hvalues := haccounted.nodup_values hapart d.allocator (haccounted.handed_mem d hd)
    have hnodup := hvalues.sublist (hpair.map _)
    simp [hvalue] at hnodup
  · obtain ⟨f, hf, hfallocator, hfspec, hfblock⟩ := haccounted.from_block hspecs hd
    obtain ⟨g, hg, hgallocator, hgspec, hgblock⟩ := haccounted.from_block hspecs he
    have hne : f ≠ g := by
      rintro rfl
      exact hallocator (hgallocator.symm.trans hfallocator)
    have hdisjoint := hapart.forall hf hg hne (by rw [hfspec, hgspec, hname])
    exact hdisjoint hfblock (hvalue ▸ hgblock)

theorem Accounted.orderly (haccounted : h.Accounted specs)
    (hspecs : SequenceSpec.Distinguished specs) (hapart : h.Apart) : h.Orderly specs where
  from_block _ hd := haccounted.from_block hspecs hd
  distinct := haccounted.distinct hspecs hapart
  in_order allocator _ hspec := haccounted.in_order allocator hspec
  fetches allocator _ hspec := haccounted.fetches hspecs allocator hspec

/-- A request is either served from the reserve, whatever a fetch would have given, or its fetch
decides: the value fetched is the one handed out, and a failure is passed on and changes nothing. -/
theorem serve_from_reserve_or_fetch (h : History) (allocator : Nat) (spec : SequenceSpec) :
    (∃ value later, ∀ answer : Except ε Int64,
        (Request.mk allocator spec answer).serve h = (.ok value, later)) ∨
      (∀ first, ((Request.mk (ε := ε) allocator spec (.ok first)).serve h).1 = .ok first) ∧
        ∀ e : ε, (Request.mk allocator spec (.error e)).serve h = (.error e, h) := by
  match htake : (h.allocators allocator).take? spec with
  | some (value, a) =>
    left
    exact ⟨value, h.extend ⟨allocator, spec, value⟩ [] a, fun answer =>
      Request.serve_of_take?_eq_some (r := ⟨allocator, spec, answer⟩) htake⟩
  | none =>
    right
    refine ⟨fun first => ?_, fun e => Request.serve_of_answer_eq_error htake rfl⟩
    rw [Request.serve_of_answer_eq_ok htake rfl]

end History

/-- Sequences are allocated in blocks. Allocators that serve requests in any order, with any
fetches failing, leave an orderly history at every moment, as long as the blocks of one sequence
do not overlap and do not reach beyond the largest number. -/
theorem allocation_in_blocks {ε : Type} {specs : Set SequenceSpec}
    (hspecs : SequenceSpec.Distinguished specs) {requests : List (Request ε)}
    (hrequests : ∀ r ∈ requests, r.spec ∈ specs)
    (hbounded : (History.run {} requests).Bounded) (hapart : (History.run {} requests).Apart) :
    (∀ served, served <+: requests → (History.run {} served).Orderly specs) ∧
      ∀ h allocator spec,
        (∃ value later, ∀ answer : Except ε Int64,
          (Request.mk allocator spec answer).serve h = (.ok value, later)) ∨
        (∀ first, ((Request.mk (ε := ε) allocator spec (.ok first)).serve h).1 = .ok first) ∧
          ∀ e : ε, (Request.mk allocator spec (.error e)).serve h = (.error e, h) := by
  refine ⟨?_, History.serve_from_reserve_or_fetch⟩
  rintro served ⟨rest, rfl⟩
  have hearlier :
      (History.run {} served).fetched <+: (History.run {} (served ++ rest)).fetched := by
    have happend : History.run {} (served ++ rest) = (History.run {} served).run rest :=
      List.foldl_append
    rw [happend]
    exact History.fetched_prefix_run _ rest
  have hserved : ∀ r ∈ served, r.spec ∈ specs := fun r hr =>
    hrequests r (List.mem_append_left rest hr)
  have haccounted := History.accounted_run hspecs hserved (History.accounted_empty hspecs)
    (hbounded.of_prefix hearlier)
  exact haccounted.orderly hspecs (hapart.of_prefix hearlier)

/-- Orders are numbered in blocks of three and entries one by one. -/
def numberings : Set SequenceSpec :=
  { spec | spec = { name := "orders", increment := 3 } ∨ spec = { name := "entries" } }

/-- Requests to two allocators. The first error is that of a fetch that is not needed; the second
one makes its request fail. -/
def mixedRequests : List (Request String) := [
  ⟨0, { name := "orders", increment := 3 }, .ok 10⟩,
  ⟨1, { name := "orders", increment := 3 }, .ok 1⟩,
  ⟨0, { name := "orders", increment := 3 }, .error "unused"⟩,
  ⟨0, { name := "entries" }, .error "offline"⟩,
  ⟨0, { name := "entries" }, .ok 7⟩,
  ⟨0, { name := "orders", increment := 3 }, .ok 0⟩,
  ⟨0, { name := "orders", increment := 3 }, .ok 4⟩]

theorem mixedRequests_in_blocks :
    (History.run {} mixedRequests).fetched.map (·.value) = [10, 1, 7, 4] ∧
      (History.run {} mixedRequests).handed.map (·.value) = [10, 1, 11, 7, 12, 4] ∧
      ∀ served, served <+: mixedRequests → (History.run {} served).Orderly numberings := by
  have hspecs : SequenceSpec.Distinguished numberings := by
    constructor
    · rintro spec (rfl | rfl) other (rfl | rfl) hname
      · rfl
      · exact absurd hname (by decide)
      · exact absurd hname (by decide)
      · rfl
    · rintro spec (rfl | rfl) <;> decide
  have hrequests : ∀ r ∈ mixedRequests, r.spec ∈ numberings := by
    simp [mixedRequests, numberings]
  have hbounded : (History.run {} mixedRequests).Bounded := by decide
  have happart : (History.run {} mixedRequests).Apart := by decide
  exact ⟨rfl, rfl, (allocation_in_blocks hspecs hrequests hbounded happart).1⟩

end EntitySql
