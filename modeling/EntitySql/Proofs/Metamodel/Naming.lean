import EntitySql.Proofs.Metamodel.Layout

/-!
The names of members. Paths are all that is told apart, so two members of one level may share a
name as long as one of them embeds: what stands below them has different paths. Properties of one
level never share a name.
-/

namespace EntitySql

namespace Member

def leaves : Member Descriptor → List Leaf
  | .property name markers => [⟨name, name, markers⟩]
  | .embedded name descriptor => descriptor.leaves.map (·.under name)

def Apart (a b : Member Descriptor) : Prop :=
  ∀ leaf ∈ a.leaves, ∀ other ∈ b.leaves, leaf.path ≠ other.path

def property? : Member Descriptor → Option String
  | .property name _ => some name
  | .embedded _ _ => none

def embedding? : Member Descriptor → Option String
  | .property _ _ => none
  | .embedded name _ => some name

end Member

namespace Descriptor

def memberNames (descriptor : Descriptor) : List String := descriptor.members.map Member.name

def propertyNames (descriptor : Descriptor) : List String :=
  descriptor.members.filterMap Member.property?

def embeddingNames (descriptor : Descriptor) : List String :=
  descriptor.members.filterMap Member.embedding?

private theorem leavesOf_eq_flatMap (members : List (Member Descriptor)) :
    leavesOf members = members.flatMap Member.leaves := by
  induction members with
  | nil => rfl
  | cons member rest ih => cases member <;> simp [leavesOf, Member.leaves, ih]

private theorem leaves_eq_flatMap (descriptor : Descriptor) :
    descriptor.leaves = descriptor.members.flatMap Member.leaves := by
  obtain ⟨name, table, identifierLess, members⟩ := descriptor
  exact leavesOf_eq_flatMap members

mutual

/-- A common prefix neither joins paths nor parts them. -/
theorem paths_nodup_of_mem_subtree (descriptor : Descriptor) {level : Descriptor}
    (h : (descriptor.leaves.map (·.path)).Nodup) (hlevel : level ∈ descriptor.subtree) :
    (level.leaves.map (·.path)).Nodup := by
  match descriptor with
  | ⟨name, table, identifierLess, members⟩ =>
    rcases List.mem_cons.mp hlevel with rfl | hlevel
    · exact h
    · exact paths_nodup_of_mem_subtreeOf members h hlevel

theorem paths_nodup_of_mem_subtreeOf (members : List (Member Descriptor)) {level : Descriptor}
    (h : ((leavesOf members).map (·.path)).Nodup) (hlevel : level ∈ subtreeOf members) :
    (level.leaves.map (·.path)).Nodup := by
  match members with
  | [] => contradiction
  | .property name markers :: rest =>
    exact paths_nodup_of_mem_subtreeOf rest (List.nodup_cons.mp h).2 hlevel
  | .embedded name descriptor :: rest =>
    rw [leavesOf, List.map_append, List.map_map] at h
    obtain ⟨hhere, hrest, -⟩ := List.nodup_append.mp h
    have hinner : (descriptor.leaves.map (·.path)).Nodup := by
      refine List.Nodup.of_map (name ++ "." ++ ·) ?_
      rw [List.map_map]
      exact hhere
    rcases List.mem_append.mp hlevel with hlevel | hlevel
    · exact paths_nodup_of_mem_subtree descriptor hinner hlevel
    · exact paths_nodup_of_mem_subtreeOf rest hrest hlevel

end

variable {descriptor : Descriptor}

private theorem pairwise_apart (h : (descriptor.leaves.map (·.path)).Nodup) :
    descriptor.members.Pairwise Member.Apart := by
  rw [leaves_eq_flatMap, List.Nodup, List.pairwise_map, List.pairwise_flatMap] at h
  exact h.2

private theorem propertyNames_nodup (h : descriptor.members.Pairwise Member.Apart) :
    descriptor.propertyNames.Nodup := by
  refine List.pairwise_filterMap.mpr (h.imp ?_)
  intro a b hapart name hname other hother
  cases a with
  | embedded => cases hname
  | property =>
    cases b with
    | embedded => cases hother
    | property =>
      cases hname
      cases hother
      exact hapart _ (List.mem_singleton_self _) _ (List.mem_singleton_self _)

theorem count_memberNames (name : String) :
    descriptor.memberNames.count name =
      descriptor.propertyNames.count name + descriptor.embeddingNames.count name := by
  unfold memberNames propertyNames embeddingNames
  induction descriptor.members with
  | nil => rfl
  | cons member rest ih =>
    cases member with
    | property first _ =>
      simp only [List.map_cons, List.filterMap_cons, Member.name, Member.property?,
        Member.embedding?, List.count_cons, ih]
      exact Nat.add_right_comm ..
    | embedded first _ =>
      simp only [List.map_cons, List.filterMap_cons, Member.name, Member.property?,
        Member.embedding?, List.count_cons, ih]
      exact Nat.add_assoc ..

/-- Where properties have names of their own, it is for the embeddings to have them too. -/
theorem memberNames_nodup_iff (h : descriptor.propertyNames.Nodup) :
    descriptor.memberNames.Nodup ↔
      ∀ name ∈ descriptor.embeddingNames, descriptor.memberNames.count name = 1 := by
  constructor
  · intro hnodup name hname
    refine List.count_eq_one_of_mem hnodup (List.count_pos_iff.mp ?_)
    rw [count_memberNames]
    exact Nat.add_pos_right _ (List.count_pos_iff.mpr hname)
  · intro hsingle
    refine List.nodup_iff_count_le_one.mpr fun name => ?_
    by_cases hname : name ∈ descriptor.embeddingNames
    · exact Nat.le_of_eq (hsingle name hname)
    · rw [count_memberNames, List.count_eq_zero_of_not_mem hname]
      exact List.nodup_iff_count_le_one.mp h name

theorem Embeds.names {members : List (Member Descriptor)} {columns : List Column}
    {embedded : List (String × Metamodel)} (h : Embeds members columns embedded) :
    embedded.map Prod.fst = members.filterMap Member.embedding? := by
  match h with
  | .nil => rfl
  | .property hrest => exact hrest.names
  | .embedded _ hrest => exact congrArg (_ :: ·) hrest.names

end Descriptor

/-- At every level of an accepted descriptor the members are apart by their paths, and properties
have names of their own. So the members have names of their own exactly if no embedding has the
name of another member. -/
theorem accepted_member_names {descriptor : Descriptor} {m : Metamodel}
    (h : Metamodel.ofDescriptor descriptor = .ok m) :
    m.embedded.map Prod.fst = descriptor.embeddingNames ∧
      ∀ level ∈ descriptor.subtree,
        level.members.Pairwise Member.Apart ∧ level.propertyNames.Nodup ∧
          (level.memberNames.Nodup ↔
            ∀ name ∈ level.embeddingNames, level.memberNames.count name = 1) := by
  constructor
  · obtain ⟨-, -, -, -, hembeds⟩ := Descriptor.flattensTo_of_build descriptor h
    exact hembeds.names
  · intro level hlevel
    have hpaths := ((accepted_iff_valid descriptor).mp ⟨m, h⟩).paths
    have hapart := Descriptor.pairwise_apart
      (Descriptor.paths_nodup_of_mem_subtree descriptor hpaths hlevel)
    have hproperties := Descriptor.propertyNames_nodup hapart
    exact ⟨hapart, hproperties, Descriptor.memberNames_nodup_iff hproperties⟩

theorem shipment_member_names :
    (∃ m, Metamodel.ofDescriptor shipment = .ok m ∧
      m.embedded.map Prod.fst = ["key", "address"]) ∧
      ∀ level ∈ shipment.subtree, level.memberNames.Nodup := by
  have haccepted : Metamodel.ofDescriptor shipment = .ok _ := rfl
  have hsingle : ∀ level ∈ shipment.subtree, ∀ name ∈ level.embeddingNames,
      level.memberNames.count name = 1 := by decide
  obtain ⟨hembedded, hlevels⟩ := accepted_member_names haccepted
  refine ⟨⟨_, haccepted, hembedded⟩, fun level hlevel => ?_⟩
  exact (hlevels level hlevel).2.2.mpr (hsingle level hlevel)

/-- A place as a property, as an embedded city and as an embedded spot. -/
def threePlaces : Descriptor where
  name := "Doc"
  members := [
    .property "id" [.id],
    .property "place" [],
    .embedded "place" { name := "City", members := [.property "city" []] },
    .embedded "place" { name := "Spot", members := [.property "zip" []] }]

/-- Three members of one level share a name. -/
theorem threePlaces_accepted :
    ∃ m, Metamodel.ofDescriptor threePlaces = .ok m ∧
      m.columns.map (·.path) = ["id", "place", "place.city", "place.zip"] ∧
      m.embedded.map Prod.fst = ["place", "place"] ∧
      threePlaces ∈ threePlaces.subtree ∧ ¬threePlaces.memberNames.Nodup :=
  ⟨_, rfl, rfl, rfl, .head _, by decide⟩

end EntitySql
