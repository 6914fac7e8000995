import EntitySql.Config.Basic
import EntitySql.Config.Document
import EntitySql.Criteria.Basic
import EntitySql.Criteria.Scope
import EntitySql.Dialect
import EntitySql.Metamodel.Basic
import EntitySql.Metamodel.Build
import EntitySql.Metamodel.Descriptor
import EntitySql.Metamodel.Registry
import EntitySql.Proofs.Condition.Basic
import EntitySql.Proofs.Condition.Grammar
import EntitySql.Proofs.Condition.Meaning
import EntitySql.Proofs.Condition.Token
import EntitySql.Proofs.Criteria.Faults
import EntitySql.Proofs.Criteria.Fragments
import EntitySql.Proofs.Metamodel.Flattening
import EntitySql.Proofs.Metamodel.Layout
import EntitySql.Proofs.Metamodel.Naming
import EntitySql.Proofs.Metamodel.Registry
import EntitySql.Proofs.Metamodel.Validity
import EntitySql.Proofs.Outcome
import EntitySql.Proofs.Query.Account
import EntitySql.Proofs.Query.Agreement
import EntitySql.Proofs.Query.Binding
import EntitySql.Proofs.Query.Effect
import EntitySql.Proofs.Query.EntityUpdate
import EntitySql.Proofs.Query.Reference
import EntitySql.Proofs.Query.Rendering
import EntitySql.Proofs.Query.Restriction
import EntitySql.Proofs.Query.SequenceQuery
import EntitySql.Proofs.Query.Tail
import EntitySql.Proofs.Query.Values
import EntitySql.Proofs.Sequence
import EntitySql.Proofs.Session.Aside
import EntitySql.Proofs.Session.Audit
import EntitySql.Proofs.Session.Chain
import EntitySql.Proofs.Session.Course
import EntitySql.Proofs.Session.HandOut
import EntitySql.Proofs.Session.InsertedRow
import EntitySql.Proofs.Session.Interleaving
import EntitySql.Proofs.Session.Logging
import EntitySql.Proofs.Session.Lookups
import EntitySql.Proofs.Session.OptimisticLock
import EntitySql.Proofs.Session.Order
import EntitySql.Proofs.Session.Provenance
import EntitySql.Proofs.Session.Restriction
import EntitySql.Proofs.Session.Version
import EntitySql.Proofs.Statement.Alignment
import EntitySql.Proofs.Statement.Drafting
import EntitySql.Proofs.Statement.Lexeme
import EntitySql.Proofs.Statement.LogText
import EntitySql.Proofs.Value.Literal
import EntitySql.Proofs.Value.Quoted
import EntitySql.Proofs.Value.ReadBack
import EntitySql.Query.Basic
import EntitySql.Query.Clause
import EntitySql.Query.Compile
import EntitySql.Query.Entity
import EntitySql.Query.Error
import EntitySql.Query.Predicate
import EntitySql.Rehearsal.Plan
import EntitySql.Rehearsal.Record
import EntitySql.Rehearsal.Stage
import EntitySql.Sequence
import EntitySql.Session.Basic
import EntitySql.Session.Diagnostic
import EntitySql.Session.Listener
import EntitySql.Statement.Basic
import EntitySql.Statement.Draft
import EntitySql.Statement.Region
import EntitySql.Text.CaseTable
import EntitySql.Text.LowerCase
import EntitySql.Value.Basic
import EntitySql.Value.Binary64
import EntitySql.Value.Calendar
import EntitySql.Value.Literal
import EntitySql.Value.Shortest
