import EntitySql.Metamodel.Descriptor

/-!
Metamodels: the flat view of an entity. Embedded properties appear among the columns under
dotted paths. Which columns play a role is kept apart from them, by their positions.
-/

namespace EntitySql

inductive Role
  | id
  | version
  | createdAt
  | updatedAt
  deriving DecidableEq, Repr

namespace Role

/-- The roles that at most one column of an entity plays. -/
def exclusive : List Role := [version, createdAt, updatedAt]

def all : List Role := exclusive ++ [id]

def name : Role → String
  | id => "id"
  | version => "version"
  | createdAt => "created-at"
  | updatedAt => "updated-at"

def marker : Role → Marker
  | id => .id
  | version => .version
  | createdAt => .createdAt
  | updatedAt => .updatedAt

end Role

inductive Generation
  | identity
  | sequence (spec : SequenceSpec)
  deriving DecidableEq, Repr

/-- A flattened column. `path` is dotted, `name` is its last part as declared. -/
structure Column where
  path : String
  name : String
  column : String
  quoted : Bool
  generation : Option Generation
  deriving DecidableEq, Repr

namespace Column

def isGenerated (c : Column) : Bool := c.generation.isSome

def isIdentity (c : Column) : Bool := c.generation == some .identity

def sequence? (c : Column) : Option SequenceSpec :=
  match c.generation with
  | some (.sequence spec) => some spec
  | _ => none

/-- The column as seen from an entity that embeds its own under `property`. -/
def under (property : String) (c : Column) : Column :=
  { c with path := property ++ "." ++ c.path }

end Column

/-- Where the columns that play a role stand among the columns of an entity. -/
structure Slots where
  ids : List Nat := []
  version : Option Nat := none
  createdAt : Option Nat := none
  updatedAt : Option Nat := none
  deriving DecidableEq, Repr

namespace Slots

def positions (slots : Slots) : Role → List Nat
  | .id => slots.ids
  | .version => slots.version.toList
  | .createdAt => slots.createdAt.toList
  | .updatedAt => slots.updatedAt.toList

def holds (slots : Slots) (i : Nat) (role : Role) : Bool := (slots.positions role).contains i

def put (slots : Slots) (i : Nat) : Role → Slots
  | .id => { slots with ids := slots.ids ++ [i] }
  | .version => { slots with version := some i }
  | .createdAt => { slots with createdAt := some i }
  | .updatedAt => { slots with updatedAt := some i }

end Slots

/-- The checked, flat description of an entity. An embedded property keeps the metamodel of its
own descriptor, whose positions count its own columns. -/
structure Metamodel where
  entity : String
  table : Table
  columns : List Column
  slots : Slots
  identifierLess : Bool
  embedded : List (String × Metamodel)

namespace Metamodel

def ids (m : Metamodel) : List Column := m.slots.ids.filterMap (m.columns[·]?)

/-- Whether a column is part of the identifier; columns are told apart by their paths. -/
def isId (m : Metamodel) (c : Column) : Bool := m.ids.any (·.path == c.path)

def version (m : Metamodel) : Option Column := m.slots.version.bind (m.columns[·]?)

def createdAt (m : Metamodel) : Option Column := m.slots.createdAt.bind (m.columns[·]?)

def updatedAt (m : Metamodel) : Option Column := m.slots.updatedAt.bind (m.columns[·]?)

theorem ids_subset (m : Metamodel) : m.ids ⊆ m.columns := by
  intro c hc
  obtain ⟨i, -, hi⟩ := List.mem_filterMap.mp hc
  exact List.mem_of_getElem? hi

theorem mem_columns_of_slot {m : Metamodel} {slot : Option Nat} {c : Column}
    (h : slot.bind (m.columns[·]?) = some c) : c ∈ m.columns := by
  obtain ⟨i, -, hi⟩ := Option.bind_eq_some_iff.mp h
  exact List.mem_of_getElem? hi

/-- The columns that an INSERT supplies: the database fills in the others. -/
def supplied (m : Metamodel) : List Column := m.columns.filter (!·.isIdentity)

/-- The column a property reference stands for. A full path wins; otherwise a bare property
name will do if exactly one column has it. -/
def column? (m : Metamodel) (property : String) : Option Column :=
  match m.columns.find? (·.path == property) with
  | some c => some c
  | none =>
    match m.columns.filter (·.name == property) with
    | [c] => some c
    | _ => none

end Metamodel
end EntitySql
