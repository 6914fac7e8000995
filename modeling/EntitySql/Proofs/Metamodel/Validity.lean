import EntitySql.Proofs.Metamodel.Flattening

/-!
Validity of descriptors, stated of the whole tree at once. Building checks columns one by one and
level by level; what it accepts depends on neither.
-/

namespace EntitySql

/-- What a descriptor has to satisfy as a whole in order to describe an entity. -/
structure Descriptor.Valid (descriptor : Descriptor) : Prop where
  named : ∀ other ∈ descriptor.subtree, ∀ member ∈ other.members, member.name ≠ ""
  consistent : ∀ leaf ∈ descriptor.leaves, leaf.Consistent
  inhabited : ∀ other ∈ descriptor.subtree, other.leaves ≠ []
  paths : (descriptor.leaves.map (·.path)).Nodup
  columns : (descriptor.leaves.map fun leaf => lowerCase leaf.columnName).Nodup
  roles : ∀ role ∈ Role.exclusive, (descriptor.leaves.filter (·.plays role)).length ≤ 1
  identified : descriptor.identifierLess = true ∨
    ∃ leaf ∈ descriptor.leaves, Marker.id ∈ leaf.markers

section
universe u
variable {α : Type}

private theorem pairwise_forall_iff {β : Sort u} {R : β → α → α → Prop} {l : List α} :
    (l.Pairwise fun x y => ∀ b, R b x y) ↔ ∀ b, l.Pairwise (R b) := by
  simp only [List.pairwise_iff_forall_sublist]
  constructor
  · intro h b x y hsub
    exact h hsub b
  · intro h x y hsub b
    exact h b hsub

end

namespace Descriptor

theorem pairwise_compatible_iff (leaves : List Leaf) :
    leaves.Pairwise Leaf.Compatible ↔
      (leaves.map (·.path)).Nodup ∧
        (leaves.map fun leaf => lowerCase leaf.columnName).Nodup ∧
        ∀ role ∈ Role.exclusive, (leaves.filter (·.plays role)).length ≤ 1 := by
  have hcompatible : ∀ leaf other : Leaf, leaf.Compatible other ↔
      leaf.path ≠ other.path ∧ lowerCase leaf.columnName ≠ lowerCase other.columnName ∧
        ∀ role ∈ Role.exclusive, leaf.plays role = true → other.plays role = false := by
    intro leaf other
    exact ⟨fun h => ⟨h.columns.path, h.columns.key, h.roles⟩,
      fun ⟨hpath, hkey, hroles⟩ => ⟨⟨hpath, hkey⟩, hroles⟩⟩
  rw [List.Pairwise.iff fun leaf other => hcompatible leaf other]
  simp only [List.pairwise_and_iff, pairwise_forall_iff, pairwise_not_and_iff]
  rw [List.Nodup, List.pairwise_map, List.pairwise_map]

private theorem valid_iff {descriptor : Descriptor} :
    descriptor.Valid ↔ descriptor.Flattens ∧ descriptor.Identified := by
  constructor
  · intro h
    have hcompatible := (pairwise_compatible_iff _).mpr ⟨h.paths, h.columns, h.roles⟩
    exact ⟨⟨fun other hother => ⟨h.named other hother, h.inhabited other hother⟩, h.consistent,
      hcompatible⟩, h.identified⟩
  · rintro ⟨⟨hsound, hconsistent, hcompatible⟩, hidentified⟩
    obtain ⟨hpaths, hcolumns, hroles⟩ := (pairwise_compatible_iff _).mp hcompatible
    exact ⟨fun other hother => (hsound other hother).named, hconsistent,
      fun other hother => (hsound other hother).inhabited, hpaths, hcolumns, hroles, hidentified⟩

end Descriptor

/-- A descriptor is accepted exactly if it is valid as a whole: neither the order of its members
nor the level at which two of them meet makes a difference. -/
theorem accepted_iff_valid (descriptor : Descriptor) :
    (∃ m, Metamodel.ofDescriptor descriptor = .ok m) ↔ descriptor.Valid := by
  rw [Descriptor.valid_iff]
  constructor
  · rintro ⟨m, hm⟩
    obtain ⟨hflattens, hidentified, -⟩ := Descriptor.flattens_of_build descriptor hm
    exact ⟨hflattens, hidentified rfl⟩
  · rintro ⟨hflattens, hidentified⟩
    exact Descriptor.exists_build true descriptor hflattens fun _ => hidentified

/-- Letter case does not tell columns apart. -/
example :
    Metamodel.ofDescriptor {
      name := "Tag"
      members := [.property "ID" [.id], .property "id" []] } =
      .error (.duplicateColumn "Tag" "id" "id" "ID") := rfl

end EntitySql
