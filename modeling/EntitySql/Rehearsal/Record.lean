import EntitySql.Rehearsal.Stage

/-!
Entities for rehearsals: values by property path, with a choice of which writes to accept.
-/

namespace EntitySql

/-- An entity made of values under property paths. If `writable` is given only the paths in it
accept writes, and only of the type that stands with them, if any. -/
structure Record where
  values : List (String × Value) := []
  writable : Option (List (String × Option SqlType)) := none
  deriving DecidableEq, Repr, Inhabited

namespace Record

def read (r : Record) (path : String) : Option Value := r.values.lookup path

/-- Puts the value in place of the first one under the path, or at the end. -/
def replace (path : String) (value : Value) : List (String × Value) → List (String × Value)
  | [] => [(path, value)]
  | entry :: rest =>
    if entry.1 = path then (path, value) :: rest else entry :: replace path value rest

def store (r : Record) (path : String) (value : Value) : Record :=
  { r with values := replace path value r.values }

def erase (r : Record) (path : String) : Record :=
  { r with values := r.values.filter (·.1 != path) }

def write (r : Record) (path : String) (value : Value) : Except AssignError Record :=
  match r.writable with
  | none => .ok (r.store path value)
  | some paths =>
    match paths.lookup path with
    | none => .error (.unsupported path)
    | some none => .ok (r.store path value)
    | some (some type) =>
      if value.type = type then .ok (r.store path value)
      else .error (.typeMismatch path type value.type)

theorem read_store_self (r : Record) (path : String) (value : Value) :
    (r.store path value).read path = some value := by
  unfold read store
  induction r.values with
  | nil => simp [replace]
  | cons entry rest ih =>
    obtain ⟨key, old⟩ := entry
    by_cases h : key = path
    · simp [replace, h]
    · have hne : (path == key) = false := beq_false_of_ne (Ne.symm h)
      simpa [replace, h, List.lookup_cons, hne] using ih

theorem read_store_of_ne (r : Record) {path other : String} (value : Value) (h : other ≠ path) :
    (r.store path value).read other = r.read other := by
  unfold read store
  have hne : (other == path) = false := by simpa using h
  induction r.values with
  | nil => simp [replace, List.lookup_cons, hne]
  | cons entry rest ih =>
    obtain ⟨key, old⟩ := entry
    by_cases hk : key = path
    · subst hk
      simp [replace, List.lookup_cons, hne]
    · simp only [replace, hk, if_false, List.lookup_cons] at ih ⊢
      split <;> simp_all

/-- Writes are recorded before they are accepted or refused. -/
def access : EntityAccess Stage Record where
  read := read
  assign path value r := do
    Stage.record (.assign path value)
    Attempt.ofExcept (r.write path value)

end Record

end EntitySql
