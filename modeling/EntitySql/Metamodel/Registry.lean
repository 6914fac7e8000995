import EntitySql.Metamodel.Build

/-!
The registry of metamodels. A metamodel is built when its entity type is looked up for the first
time and stays; a failed build leaves no entry.
-/

namespace EntitySql

/-- An entity type: its identity, and what it declares when it is asked. -/
structure EntityType where
  key : Nat
  descriptor : Descriptor

/-- The metamodels built so far, with the keys of their types, in order of their building. -/
structure Registry where
  entries : List (Nat × Metamodel) := []

structure Registry.Lookup where
  metamodel : Metamodel
  registry : Registry
  isNew : Bool

namespace Registry

def size (r : Registry) : Nat := r.entries.length

def find? (r : Registry) (key : Nat) : Option Metamodel := r.entries.lookup key

/-- The metamodel of a type, built from its descriptor if there is none yet. -/
def lookup (r : Registry) (type : EntityType) : Except MetamodelError Lookup :=
  match r.find? type.key with
  | some metamodel => .ok ⟨metamodel, r, false⟩
  | none =>
    (Metamodel.ofDescriptor type.descriptor).map fun metamodel =>
      ⟨metamodel, ⟨r.entries ++ [(type.key, metamodel)]⟩, true⟩

end Registry
end EntitySql
