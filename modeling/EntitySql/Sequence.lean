import EntitySql.Metamodel.Descriptor

/-!
Block allocation of sequence values. A fetched value `v` of a sequence that advances by `n`
reserves the values from `v` up to `v + n - 1`; they are handed out before the next fetch.
-/

namespace EntitySql

/-- The rest of a fetched block: the next value and how many are left, that one included. -/
structure Block where
  next : Int64
  remaining : Nat
  deriving DecidableEq, Repr

/-- The blocks of a session by sequence name. An exhausted block is as good as none. -/
structure Allocator where
  blocks : List (String × Block) := []
  deriving DecidableEq, Repr, Inhabited

namespace Allocator

def block? (a : Allocator) (name : String) : Option Block := a.blocks.lookup name

def put (a : Allocator) (name : String) (block : Block) : Allocator :=
  ⟨(name, block) :: a.blocks.filter (·.1 != name)⟩

@[simp] theorem block?_put_self (a : Allocator) (name : String) (block : Block) :
    (a.put name block).block? name = some block := by
  simp [put, block?]

theorem block?_put_of_ne (a : Allocator) {name other : String} (block : Block)
    (h : other ≠ name) : (a.put name block).block? other = a.block? other := by
  have hne : (other == name) = false := by simpa using h
  simp only [put, block?, List.lookup_cons, hne]
  induction a.blocks with
  | nil => rfl
  | cons entry rest ih =>
    obtain ⟨key, value⟩ := entry
    by_cases hk : key = name
    · subst hk
      simp [List.lookup_cons, hne, ih]
    · simp [hk, List.lookup_cons, ih]

/-- The next value of a block in reserve, if there is any. -/
def take? (a : Allocator) (spec : SequenceSpec) : Option (Int64 × Allocator) :=
  match a.block? spec.name with
  | some ⟨next, remaining + 1⟩ => some (next, a.put spec.name ⟨next + 1, remaining⟩)
  | _ => none

/-- Keeps what a fetched value reserves beyond itself. A sequence that advances by one reserves
nothing. -/
def reserve (a : Allocator) (spec : SequenceSpec) (first : Int64) : Allocator :=
  if spec.increment > 1 then
    a.put spec.name
      ⟨if first = Int64.maxValue then first else first + 1, spec.increment.toInt.toNat - 1⟩
  else a

/-- The next value of a sequence and the allocator after it. Only an exhausted block is a reason
to fetch; a fetch that fails leaves nothing behind. -/
def next {m : Type → Type} [Monad m] (a : Allocator) (spec : SequenceSpec) (fetch : m Int64) :
    m (Int64 × Allocator) :=
  match a.take? spec with
  | some found => pure found
  | none => do
    let first ← fetch
    return (first, a.reserve spec first)

end Allocator
end EntitySql
