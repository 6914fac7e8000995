/-!
Descriptors: what an entity declares about its table and its properties, before anything is
checked.
-/

namespace EntitySql

/-- A sequence that feeds a column. It advances by `increment` with every fetch, so one fetched
value reserves as many values as the increment says. -/
structure SequenceSpec where
  name : String
  increment : Int64 := 1
  quoted : Bool := false
  deriving DecidableEq, Repr

inductive Marker
  | id
  | version
  | createdAt
  | updatedAt
  /-- Renames the column, quotes it, or both. -/
  | column (name : Option String) (quoted : Bool)
  /-- The database assigns the value on insert. -/
  | identity
  /-- The value is fetched from a sequence before the insert. -/
  | sequence (spec : SequenceSpec)
  deriving DecidableEq, Repr

/-- A table name. Quoting applies to the schema too. -/
structure Table where
  name : String
  schema : Option String := none
  quoted : Bool := false
  deriving DecidableEq, Repr

/-- A property with its markers, or the properties of another descriptor under a common name. -/
inductive Member (δ : Type)
  | property (name : String) (markers : List Marker)
  | embedded (name : String) (descriptor : δ)

/-- The declaration of an entity. Without a table it is stored under its own name. -/
structure Descriptor where
  name : String
  table : Option Table := none
  identifierLess : Bool := false
  members : List (Member Descriptor) := []

end EntitySql
