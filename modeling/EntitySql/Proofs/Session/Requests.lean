import EntitySql.Proofs.Session.Course

/-!
What a session is asked for, one request after the other: metamodels, statements for queries, and
the mutation of entities of any type.
-/

namespace EntitySql

/-- A statement that the session leaves to its caller. -/
inductive Rendering
  | compile (q : Query)
  | select (type : EntityType) (declared : List Declaration)
  | count (type : EntityType) (declared : List Declaration)
  | updateWhere (type : EntityType) (assignments : List Assignment) (declared : List Declaration)
  | deleteWhere (type : EntityType) (declared : List Declaration)

namespace Rendering

open Operation

variable {σ : Type} (s : Session σ)

def perform : Rendering → Operation σ Statement
  | compile q => s.compile q
  | select type declared => s.select type declared
  | count type declared => s.count type declared
  | updateWhere type assignments declared => s.updateWhere type assignments declared
  | deleteWhere type declared => s.deleteWhere type declared

def query : Rendering → Operation σ Query
  | compile q => pure q
  | select type declared => do
    let criteria ← ofExcept .criteria (Criteria.build declared)
    return .select { target := ← s.metamodel type, criteria }
  | count type declared => do
    let criteria ← ofExcept .criteria (Criteria.build declared)
    return .select { target := ← s.metamodel type, criteria, projection := .count }
  | updateWhere type assignments declared => do
    let criteria ← ofExcept .criteria (Criteria.build declared)
    let target ← s.metamodel type
    return .update
      { target, assignments, criteria, allowMissingWhere := s.config.allowMissingWhere }
  | deleteWhere type declared => do
    let criteria ← ofExcept .criteria (Criteria.build declared)
    let target ← s.metamodel type
    return .delete { target, criteria, allowMissingWhere := s.config.allowMissingWhere }

theorem perform_eq (r : Rendering) : r.perform s = r.query s >>= s.compile := by
  cases r with
  | compile q => rw [perform, query, pure_bind]
  | select => simp only [perform, query, Session.select, bind_assoc, pure_bind]
  | count => simp only [perform, query, Session.count, bind_assoc, pure_bind]
  | updateWhere => simp only [perform, query, Session.updateWhere, bind_assoc, pure_bind]
  | deleteWhere => simp only [perform, query, Session.deleteWhere, bind_assoc, pure_bind]

end Rendering

/-- A mutation of an entity, with everyone who takes part in it besides the session. -/
structure Change (σ : Type) where
  Entity : Type
  operation : Mutation
  type : EntityType
  access : EntityAccess σ Entity
  listener : Listener σ Entity
  executor : Executor σ
  entity : Entity

def Change.parties {σ : Type} (c : Change σ) (s : Session σ) : Parties σ c.Entity :=
  ⟨s, c.type, c.access, c.listener, c.executor⟩

namespace Session

inductive Request (σ : Type)
  | lookup (type : EntityType)
  | render (r : Rendering)
  | change (c : Change σ)

inductive Reply
  | metamodel (result : Except QueryError Metamodel)
  | statement (result : Except QueryError Statement)
  | entity {ε : Type} (result : Except QueryError ε)

variable {σ : Type}

def Request.perform (s : Session σ) (state : SessionState σ) :
    Request σ → Reply × SessionState σ
  | lookup type =>
    let (result, after) := s.metamodel type state
    (.metamodel result, after)
  | render r =>
    let (result, after) := r.perform s state
    (.statement result, after)
  | change c =>
    let (result, after) := (c.parties s).mutate c.operation c.entity state
    (.entity result, after)

/-- A request that fails is no obstacle to those after it. -/
def serve (s : Session σ) : List (Request σ) → SessionState σ → List Reply × SessionState σ
  | [], state => ([], state)
  | r :: rest, state =>
    let (reply, between) := r.perform s state
    let (replies, after) := s.serve rest between
    (reply :: replies, after)

end Session
end EntitySql
