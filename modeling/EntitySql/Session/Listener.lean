import EntitySql.Query.Entity
import EntitySql.Session.Diagnostic

/-!
Entities as a session sees them, and the listeners that accompany their mutations. Everything
may act on the surroundings `σ`: a database, a clock, a record of what happened.
-/

namespace EntitySql

/-- A computation on the surroundings that may fail. What it did to them before failing stays. -/
abbrev Attempt (σ ε α : Type) := ExceptT ε (StateM σ) α

/-- A result that was computed without looking at the surroundings. -/
def Attempt.ofExcept {σ ε α : Type} (result : Except ε α) : Attempt σ ε α :=
  fun state => (result, state)

inductive AssignError
  | unsupported (property : String)
  | typeMismatch (property : String) (expected found : SqlType)
  deriving DecidableEq, Repr

def AssignError.message : AssignError → String
  | .unsupported property => "property `" ++ property ++ "` cannot be assigned"
  | .typeMismatch property expected found =>
    "property `" ++ property ++ "` expects " ++ expected.name ++ ", got " ++ found.name

/-- How entities of type `ε` are read and written by property path. -/
structure EntityAccess (σ ε : Type) where
  read : ε → String → Option Value
  assign : String → Value → ε → Attempt σ AssignError ε

def EntityAccess.readOnly {σ ε : Type} (read : ε → String → Option Value) : EntityAccess σ ε :=
  ⟨read, fun property _ _ => throw (.unsupported property)⟩

inductive Hook
  | before (operation : Mutation)
  | after (operation : Mutation)
  deriving DecidableEq, Repr

def Hook.name : Hook → String
  | .before .insert => "pre_insert"
  | .after .insert => "post_insert"
  | .before .update => "pre_update"
  | .after .update => "post_update"
  | .before .delete => "pre_delete"
  | .after .delete => "post_delete"

/-- Receives an entity at every hook and gives it on, changed or not. Before an operation the
entity given on is the one that is stored; afterwards it is the one that the caller gets. -/
structure Listener (σ ε : Type) where
  run : Hook → Metamodel → ε → Attempt σ String ε

namespace Listener

variable {σ ε : Type}

def idle : Listener σ ε := ⟨fun _ _ entity => pure entity⟩

/-- Calls listeners one after the other, each on the entity that the one before it gave on. The
first that fails is the last that is called. -/
def chain (listeners : List (Listener σ ε)) : Listener σ ε :=
  ⟨fun hook m entity => listeners.foldlM (fun current l => l.run hook m current) entity⟩

/-- Writes into an entity; a refusal fails the hook with its text. -/
def write (access : EntityAccess σ ε) (path : String) (value : Value) (entity : ε) :
    Attempt σ String ε :=
  ExceptT.adapt AssignError.message (access.assign path value entity)

def stamp (access : EntityAccess σ ε) (time : Timestamp) (column : Option Column) (entity : ε) :
    Attempt σ String ε :=
  match column with
  | some c => write access c.path (.timestamp time) entity
  | none => pure entity

/-- Gives a version of zero to an entity that has none, bound as the null it replaces. -/
def initVersion (access : EntityAccess σ ε) (column : Option Column) (entity : ε) :
    Attempt σ String ε :=
  match column with
  | none => pure entity
  | some c =>
    match access.read entity c.path with
    | none => write access c.path (.bigInt 0) entity
    | some current =>
      if current.isNull then write access c.path ⟨.int 0, current.type⟩ entity else pure entity

/-- Stamps audit columns: before an insert the times of creation and of modification, from one
reading of the clock, and the first version; before an update the time of modification. -/
def audit (access : EntityAccess σ ε) (clock : StateM σ Timestamp) : Listener σ ε where
  run hook m entity :=
    match hook with
    | .before .insert => do
      let now ← clock
      let created ← stamp access now m.createdAt entity
      let updated ← stamp access now m.updatedAt created
      initVersion access m.version updated
    | .before .update =>
      match m.updatedAt with
      | some c => do
        let now ← clock
        write access c.path (.timestamp now) entity
      | none => pure entity
    | _ => pure entity

end Listener
end EntitySql
