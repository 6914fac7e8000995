import EntitySql.Metamodel.Basic
import EntitySql.Text.LowerCase

/-!
Building a metamodel from a descriptor: each property becomes a column, embedded descriptors are
built on their own first and then joined in, and columns that get in each other's way are
refused. The positions of an embedded metamodel count its own columns, so the roles are read off
them and given anew when its columns are joined in.
-/

namespace EntitySql

/-- Faults of a descriptor. `entity` names the descriptor at fault, which may be an embedded
one. -/
inductive MetamodelError
  | noColumns (entity : String)
  | missingId (entity : String)
  | emptyPropertyName (entity : String)
  | duplicateProperty (entity property : String)
  | duplicateRole (entity property : String) (role : Role) (first : String)
  | generatorOnNonId (entity property : String)
  | conflictingGeneration (entity property : String)
  | invalidIncrement (entity property sequence : String) (increment : Int64)
  | duplicateColumn (entity property column other : String)
  deriving DecidableEq, Repr

namespace MetamodelError

def ofEntity (entity : String) : String := "entity `" ++ entity ++ "`"

def ofProperty (entity property : String) : String :=
  ofEntity entity ++ ": property `" ++ property ++ "`"

def message : MetamodelError → String
  | noColumns entity => ofEntity entity ++ " declares no columns"
  | missingId entity => ofEntity entity ++ " declares no identifier property"
  | emptyPropertyName entity => ofEntity entity ++ " declares a property with an empty name"
  | duplicateProperty entity property =>
    ofProperty entity property ++ " is declared more than once"
  | duplicateRole entity property role first =>
    ofProperty entity property ++ " is a second " ++ role.name ++ " property (first: `" ++
      first ++ "`)"
  | generatorOnNonId entity property =>
    ofProperty entity property ++ " declares a generated value but is not an identifier"
  | conflictingGeneration entity property =>
    ofProperty entity property ++ " declares more than one generation strategy"
  | invalidIncrement entity property sequence increment =>
    ofEntity entity ++ ": sequence `" ++ sequence ++ "` on property `" ++ property ++
      "` must increment by at least 1, got " ++ toString increment.toInt
  | duplicateColumn entity property column other =>
    ofProperty entity property ++ " maps to column `" ++ column ++ "`, already used by `" ++
      other ++ "`"

end MetamodelError

namespace Column

def generation? (entity property : String) :
    Marker → Except MetamodelError (Option Generation)
  | .identity => .ok (some .identity)
  | .sequence spec =>
    if spec.increment < 1 then
      .error (.invalidIncrement entity property spec.name spec.increment)
    else .ok (some (.sequence spec))
  | _ => .ok none

/-- The generation that a list of markers asks for on top of `found`. Two are one too many,
even if they are the same. -/
def generations (entity property : String) (found : Option Generation) :
    List Marker → Except MetamodelError (Option Generation)
  | [] => .ok found
  | marker :: rest => do
    match ← generation? entity property marker, found with
    | none, _ => generations entity property found rest
    | some generation, none => generations entity property (some generation) rest
    | some _, some _ => .error (.conflictingGeneration entity property)

def rename? : Marker → Option String
  | .column name _ => name
  | _ => none

def quotes : Marker → Bool
  | .column _ quoted => quoted
  | _ => false

/-- The column of a property and the roles it plays. The last rename counts, one quoting marker is
enough, and only identifiers may be generated. -/
def ofProperty (entity name : String) (markers : List Marker) :
    Except MetamodelError (Column × (Role → Bool)) := do
  if name.isEmpty then throw (.emptyPropertyName entity)
  let generation ← generations entity name none markers
  if generation.isSome && !markers.contains .id then throw (.generatorOnNonId entity name)
  let column : Column := {
    path := name
    name := name
    column := (markers.filterMap rename?).getLast?.getD name
    quoted := markers.any quotes
    generation }
  return (column, fun role => markers.contains role.marker)

/-- What two columns must not share, letter case aside. -/
def key (c : Column) : String := lowerCase c.column

end Column

/-- What the members of a descriptor come to: columns, their roles, and embedded metamodels. -/
structure Flattened where
  columns : List Column := []
  slots : Slots := {}
  embedded : List (String × Metamodel) := []

namespace Flattened

def path (found : Flattened) (i : Nat) : String := (found.columns[i]?).elim "" (·.path)

/-- Gives a role to the column that comes next. Several columns may identify a row; of the other
roles each is for one column. -/
def claim (entity : String) (found : Flattened) (c : Column) (slots : Slots) (role : Role) :
    Except MetamodelError Slots :=
  match role, slots.positions role with
  | .id, _ | _, [] => .ok (slots.put found.columns.length role)
  | _, first :: _ => .error (.duplicateRole entity c.path role (found.path first))

/-- Adds a column with its roles, unless its path, its column or an exclusive role of it is
already taken. -/
def push (entity : String) (found : Flattened) (c : Column) (roles : Role → Bool) :
    Except MetamodelError Flattened :=
  if found.columns.any (·.path == c.path) then .error (.duplicateProperty entity c.path)
  else
    match found.columns.find? (·.key == c.key) with
    | some other => .error (.duplicateColumn entity c.path c.column other.path)
    | none => do
      let slots ← (Role.all.filter roles).foldlM (found.claim entity c) found.slots
      return { found with columns := found.columns ++ [c], slots }

/-- Adds the columns of an embedded metamodel under its name. -/
def join (entity name : String) (inner : Metamodel) (found : Flattened) :
    Except MetamodelError Flattened := do
  let joined ← inner.columns.zipIdx.foldlM
    (fun found (c, i) => found.push entity (c.under name) (inner.slots.holds i)) found
  return { joined with embedded := joined.embedded ++ [(name, inner)] }

end Flattened

mutual

/-- The metamodel of a descriptor. An embedded descriptor needs no identifier of its own. -/
def Descriptor.build (topLevel : Bool) : Descriptor → Except MetamodelError Metamodel
  | ⟨name, table, identifierLess, members⟩ => do
    let flattened ← Descriptor.flatten name {} members
    if flattened.columns.isEmpty then throw (.noColumns name)
    let identifierLess := identifierLess || !topLevel
    if flattened.slots.ids.isEmpty && !identifierLess then throw (.missingId name)
    return {
      entity := name
      table := table.getD { name }
      columns := flattened.columns
      slots := flattened.slots
      identifierLess
      embedded := flattened.embedded }
termination_by structural descriptor => descriptor

def Descriptor.flatten (entity : String) (found : Flattened) :
    List (Member Descriptor) → Except MetamodelError Flattened
  | [] => .ok found
  | .property name markers :: rest => do
    let (column, roles) ← Column.ofProperty entity name markers
    flatten entity (← found.push entity column roles) rest
  | .embedded name descriptor :: rest => do
    if name.isEmpty then throw (.emptyPropertyName entity)
    let inner ← descriptor.build false
    flatten entity (← found.join entity name inner) rest
termination_by structural members => members

end

def Metamodel.ofDescriptor (descriptor : Descriptor) : Except MetamodelError Metamodel :=
  descriptor.build true

end EntitySql
