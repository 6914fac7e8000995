import EntitySql.Metamodel.Basic
import EntitySql.Statement.Basic

/-!
Diagnostics: structured messages about what is going on, for whoever subscribes to them. All of
them are of the debug level.
-/

namespace EntitySql

inductive Mutation
  | insert
  | update
  | delete
  deriving DecidableEq, Repr

inductive DetailLevel
  | info
  | debug
  deriving DecidableEq, Repr

structure Diagnostic where
  target : String
  message : String
  fields : List (String × String) := []
  deriving DecidableEq, Repr

namespace Diagnostic

def statement (sql : String) : Diagnostic :=
  { target := "sqlscope::sql", message := "statement", fields := [("sql", sql)] }

def note (text : String) : Diagnostic := { target := "sqlscope", message := text }

def built (m : Metamodel) : Diagnostic :=
  { target := "sqlscope_orm::metamodel::registry"
    message := "built entity metamodel"
    fields := [("entity", m.entity), ("table", m.table.name),
      ("columns", toString m.columns.length)] }

def mutated (operation : Mutation) (m : Metamodel) (rows : Nat) : Diagnostic :=
  { target := "sqlscope_orm::session"
    message :=
      match operation with
      | .insert => "inserted entity"
      | .update => "updated entity"
      | .delete => "deleted entity"
    fields := [("entity", m.entity), ("table", m.table.name), ("rows", toString rows)] }

end Diagnostic

structure Subscriber (σ : Type) where
  level : Option DetailLevel
  receive : Diagnostic → StateM σ Unit

namespace Subscriber

def wantsDebug {σ : Type} (s : Subscriber σ) : Bool := s.level == some .debug

def debug {σ : Type} (s : Subscriber σ) (d : Diagnostic) : StateM σ Unit :=
  if s.wantsDebug then s.receive d else pure ()

end Subscriber

/-- Where statements and messages are logged. A message is handed over as a computation, so that
a logger that has no use for it need not have it made. -/
structure Logger (σ : Type) where
  message : StateM σ String → StateM σ Unit
  statement : Statement → StateM σ Unit

namespace Logger

def silent {σ : Type} : Logger σ := ⟨fun _ => pure (), fun _ => pure ()⟩

/-- Turns what is logged into diagnostics. Of a statement only its rendering counts. -/
def diagnostic {σ : Type} (s : Subscriber σ) : Logger σ where
  message supplier := do
    if s.wantsDebug then s.receive (.note (← supplier))
  statement st :=
    match st.log with
    | some sql => s.debug (.statement sql)
    | none => pure ()

end Logger
end EntitySql
