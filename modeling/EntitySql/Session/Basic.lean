import EntitySql.Config.Basic
import EntitySql.Metamodel.Registry
import EntitySql.Query.Compile
import EntitySql.Sequence
import EntitySql.Session.Listener

/-!
Sessions compile queries, log the statements, and carry entities through their mutations: hooks,
generated identifiers, execution, and the check that no one else was faster.
-/

namespace EntitySql

/-- What a database is to a session. Its errors are its own and kept as text. -/
structure Executor (σ : Type) where
  /-- Runs a statement and tells how many rows it affected. -/
  execute : Statement → Attempt σ String Nat
  /-- Runs the query for a sequence value. -/
  fetch : Statement → Attempt σ String Int64

inductive QueryError
  | metamodel (error : MetamodelError)
  | criteria (error : CriteriaError)
  | compile (error : CompileError)
  | assign (error : AssignError)
  | hook (text : String)
  | execution (text : String)
  | optimisticLock (entity : String)
  deriving DecidableEq, Repr

namespace QueryError

def message : QueryError → String
  | metamodel error => error.message
  | criteria error => error.message
  | compile error => error.message
  | assign error => error.message
  | hook text => "lifecycle hook failed: " ++ text
  | execution text => "statement execution failed: " ++ text
  | optimisticLock entity =>
    "optimistic lock failed for entity `" ++ entity ++ "`: no row matched the expected version"

/-- The text of the error behind this one. Errors that are passed on unchanged have none. -/
def source? : QueryError → Option String
  | hook text => some text
  | execution text => some text
  | _ => none

end QueryError

/-- What does not change during the life of a session. -/
structure Session (σ : Type) where
  config : Config
  logger : Logger σ
  subscriber : Subscriber σ

/-- What session operations act on. The registry may be shared between sessions, the allocator
belongs to one. -/
structure SessionState (σ : Type) where
  registry : Registry := {}
  allocator : Allocator := {}
  surroundings : σ

abbrev Operation (σ α : Type) := Attempt (SessionState σ) QueryError α

namespace Operation

variable {σ α : Type}

def outside (act : StateM σ α) : Operation σ α := fun state =>
  let (result, surroundings) := act state.surroundings
  (.ok result, { state with surroundings })

/-- Acts on the surroundings alone, with failures accounted for by `wrap`. -/
def attempt {ε : Type} (wrap : ε → QueryError) (act : Attempt σ ε α) : Operation σ α :=
  fun state =>
    let (result, surroundings) := act state.surroundings
    (result.mapError wrap, { state with surroundings })

def ofExcept {ε : Type} (wrap : ε → QueryError) (result : Except ε α) : Operation σ α :=
  Attempt.ofExcept (result.mapError wrap)

end Operation

namespace Session

open Operation

variable {σ ε : Type}

def metamodel (s : Session σ) (type : EntityType) : Operation σ Metamodel := do
  let found ← ofExcept .metamodel ((← get).registry.lookup type)
  modify fun state => { state with registry := found.registry }
  if found.isNew then outside (s.subscriber.debug (.built found.metamodel))
  return found.metamodel

def log (s : Session σ) (st : Statement) : Operation σ Unit :=
  if s.config.logStatements then outside (s.logger.statement st) else pure ()

def compile (s : Session σ) (q : Query) : Operation σ Statement := do
  let st ← ofExcept .compile (q.compile s.config.dialect s.config.logStatements)
  s.log st
  return st

def select (s : Session σ) (type : EntityType) (declared : List Declaration) :
    Operation σ Statement := do
  let criteria ← ofExcept .criteria (Criteria.build declared)
  s.compile (.select { target := ← s.metamodel type, criteria })

def count (s : Session σ) (type : EntityType) (declared : List Declaration) :
    Operation σ Statement := do
  let criteria ← ofExcept .criteria (Criteria.build declared)
  s.compile (.select { target := ← s.metamodel type, criteria, projection := .count })

def updateWhere (s : Session σ) (type : EntityType) (assignments : List Assignment)
    (declared : List Declaration) : Operation σ Statement := do
  let criteria ← ofExcept .criteria (Criteria.build declared)
  let target ← s.metamodel type
  s.compile (.update
    { target, assignments, criteria, allowMissingWhere := s.config.allowMissingWhere })

def deleteWhere (s : Session σ) (type : EntityType) (declared : List Declaration) :
    Operation σ Statement := do
  let criteria ← ofExcept .criteria (Criteria.build declared)
  let target ← s.metamodel type
  s.compile (.delete { target, criteria, allowMissingWhere := s.config.allowMissingWhere })

def fetch (s : Session σ) (executor : Executor σ) (spec : SequenceSpec) : Operation σ Int64 := do
  let st ← ofExcept .compile (spec.statement s.config.dialect s.config.logStatements)
  s.log st
  attempt .execution (executor.fetch st)

/-- Gives an identifier from a sequence to the entity, bound as the value that it replaces. -/
def assignId (s : Session σ) (access : EntityAccess σ ε) (executor : Executor σ) (c : Column)
    (spec : SequenceSpec) (entity : ε) : Operation σ ε := do
  let (id, allocator) ← (← get).allocator.next spec (s.fetch executor spec)
  modify fun state => { state with allocator }
  let type := ((access.read entity c.path).map (·.type)).getD .bigInt
  attempt .assign (access.assign c.path ⟨.int id, type⟩ entity)

def assignIds (s : Session σ) (access : EntityAccess σ ε) (executor : Executor σ) :
    List Column → ε → Operation σ ε
  | [], entity => pure entity
  | c :: rest, entity => do
    match c.sequence? with
    | some spec => s.assignIds access executor rest (← s.assignId access executor c spec entity)
    | none => s.assignIds access executor rest entity

def execute (s : Session σ) (executor : Executor σ) (operation : Mutation) (m : Metamodel)
    (st : Statement) : Operation σ Nat := do
  let rows ← attempt .execution (executor.execute st)
  outside (s.subscriber.debug (.mutated operation m rows))
  return rows

/-- A versioned row that was not there any more was changed by someone else. -/
def checkLock (m : Metamodel) (rows : Nat) : Operation σ Unit :=
  if m.version.isSome ∧ rows = 0 then throw (.optimisticLock m.entity) else pure ()

/-- Advances the version of the entity, in step with what the statement does to the row. -/
def advanceVersion (access : EntityAccess σ ε) (m : Metamodel) (entity : ε) : Operation σ ε :=
  match m.version with
  | some c =>
    attempt .assign (access.assign c.path (nextVersion (access.read entity c.path)) entity)
  | none => pure entity

def insert (s : Session σ) (type : EntityType) (access : EntityAccess σ ε)
    (listener : Listener σ ε) (executor : Executor σ) (entity : ε) : Operation σ ε := do
  let m ← s.metamodel type
  let prepared ← attempt .hook (listener.run (.before .insert) m entity)
  let identified ← s.assignIds access executor m.ids prepared
  let q ← ofExcept .compile (Insert.ofEntity m (access.read identified))
  let st ← s.compile (.insert q)
  let _ ← s.execute executor .insert m st
  attempt .hook (listener.run (.after .insert) m identified)

/-- Updates the row of an entity. The version is written into the entity before the statement
runs: an entity that refuses the write must not leave a changed row behind. -/
def update (s : Session σ) (type : EntityType) (access : EntityAccess σ ε)
    (listener : Listener σ ε) (executor : Executor σ) (entity : ε) : Operation σ ε := do
  let m ← s.metamodel type
  let prepared ← attempt .hook (listener.run (.before .update) m entity)
  let q ← ofExcept .compile (Update.ofEntity m (access.read prepared))
  let st ← s.compile (.update q)
  let advanced ← advanceVersion access m prepared
  let rows ← s.execute executor .update m st
  checkLock m rows
  attempt .hook (listener.run (.after .update) m advanced)

def delete (s : Session σ) (type : EntityType) (access : EntityAccess σ ε)
    (listener : Listener σ ε) (executor : Executor σ) (entity : ε) : Operation σ ε := do
  let m ← s.metamodel type
  let prepared ← attempt .hook (listener.run (.before .delete) m entity)
  let q ← ofExcept .compile (Delete.ofEntity m (access.read prepared))
  let st ← s.compile (.delete q)
  let rows ← s.execute executor .delete m st
  checkLock m rows
  attempt .hook (listener.run (.after .delete) m prepared)

end Session
end EntitySql
