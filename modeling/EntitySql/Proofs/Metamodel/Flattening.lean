import EntitySql.Metamodel.Build
import EntitySql.Proofs.Outcome
import Mathlib.Data.List.Nodup

/-!
Flattening of descriptors. The properties of a descriptor and of those that it embeds are its
leaves, each of which stands for one column. Building a descriptor succeeds exactly if its leaves
are consistent and no two of them get in each other's way, and yields their columns in order, with
the positions of those that play a role.
-/

namespace EntitySql

def Marker.generation? : Marker → Option Generation
  | .identity => some .identity
  | .sequence spec => some (.sequence spec)
  | _ => none

/-- A property of a descriptor or of one that it embeds, under its dotted path. -/
structure Leaf where
  path : String
  name : String
  markers : List Marker
  deriving DecidableEq, Repr

namespace Leaf

def under (property : String) (leaf : Leaf) : Leaf :=
  { leaf with path := property ++ "." ++ leaf.path }

def generations (leaf : Leaf) : List Generation := leaf.markers.filterMap Marker.generation?

def columnName (leaf : Leaf) : String :=
  (leaf.markers.filterMap Column.rename?).getLast?.getD leaf.name

def plays (leaf : Leaf) (role : Role) : Bool := leaf.markers.contains role.marker

def toColumn (leaf : Leaf) : Column where
  path := leaf.path
  name := leaf.name
  column := leaf.columnName
  quoted := leaf.markers.any Column.quotes
  generation := leaf.generations.head?

/-- The markers of the property agree: at most one asks for a generated value, which then is one
of an identifier, and sequences advance. -/
structure Consistent (leaf : Leaf) : Prop where
  single : leaf.generations.length ≤ 1
  increments : ∀ spec, Marker.sequence spec ∈ leaf.markers → 1 ≤ spec.increment
  identifies : leaf.generations ≠ [] → Marker.id ∈ leaf.markers

@[simp] theorem toColumn_under (property : String) (leaf : Leaf) :
    (leaf.under property).toColumn = leaf.toColumn.under property := rfl

theorem consistent_under_iff {property : String} {leaf : Leaf} :
    (leaf.under property).Consistent ↔ leaf.Consistent :=
  ⟨fun h => ⟨h.single, h.increments, h.identifies⟩,
    fun h => ⟨h.single, h.increments, h.identifies⟩⟩

@[simp] theorem plays_under (property : String) (leaf : Leaf) :
    (leaf.under property).plays = leaf.plays := rfl

end Leaf

namespace Column

theorem generation?_eq_ok_iff {entity property : String} {marker : Marker}
    {generation : Option Generation} :
    generation? entity property marker = .ok generation ↔
      (∀ spec, marker = .sequence spec → 1 ≤ spec.increment) ∧
        generation = marker.generation? := by
  cases marker with
  | sequence spec =>
    simp only [generation?]
    split
    next hlow =>
      have hsmall : ¬1 ≤ spec.increment := Int64.not_le.mpr hlow
      simp [hsmall]
    next hlow =>
      have hlarge : 1 ≤ spec.increment := Int64.not_lt.mp hlow
      simp [hlarge, Marker.generation?, eq_comm]
  | _ => simp [generation?, Marker.generation?, eq_comm]

theorem generations_eq_ok_iff {entity property : String} {found generation : Option Generation}
    {markers : List Marker} :
    generations entity property found markers = .ok generation ↔
      (∀ spec, Marker.sequence spec ∈ markers → 1 ≤ spec.increment) ∧
        (found.toList ++ markers.filterMap Marker.generation?).length ≤ 1 ∧
        generation = (found.toList ++ markers.filterMap Marker.generation?).head? := by
  induction markers generalizing found with
  | nil => cases found <;> simp [generations, eq_comm]
  | cons marker rest ih =>
    have hmarkers : (∀ spec, Marker.sequence spec ∈ marker :: rest → 1 ≤ spec.increment) ↔
        (∀ spec, marker = .sequence spec → 1 ≤ spec.increment) ∧
          ∀ spec, Marker.sequence spec ∈ rest → 1 ≤ spec.increment := by
      simp only [List.mem_cons, or_imp, forall_and, eq_comm]
    rw [generations, Except.bind_eq_ok_iff, hmarkers]
    simp only [generation?_eq_ok_iff]
    cases hhere : marker.generation? with
    | none => simp [hhere, ih, and_assoc]
    | some here =>
      cases found with
      | none => simp [hhere, ih, and_assoc]
      | some found => simp [hhere]

theorem ofProperty_eq_ok_iff {entity name : String} {markers : List Marker}
    {out : Column × (Role → Bool)} :
    ofProperty entity name markers = .ok out ↔
      name ≠ "" ∧ Leaf.Consistent ⟨name, name, markers⟩ ∧
        out = (Leaf.toColumn ⟨name, name, markers⟩, Leaf.plays ⟨name, name, markers⟩) := by
  let leaf : Leaf := ⟨name, name, markers⟩
  have hidentifies : ¬(leaf.generations.head?.isSome && !markers.contains .id) = true ↔
      (leaf.generations ≠ [] → Marker.id ∈ markers) := by
    cases leaf.generations <;> simp
  unfold ofProperty
  rw [Except.guard_eq_ok_iff, Except.bind_eq_ok_iff]
  simp only [generations_eq_ok_iff, Except.guard_eq_ok_iff]
  constructor
  · rintro ⟨hname, _, ⟨hincrements, hsingle, rfl⟩, hguard, hout⟩
    have hconsistent : leaf.Consistent := ⟨hsingle, hincrements, hidentifies.mp hguard⟩
    exact ⟨by simpa using hname, hconsistent, (Except.ok.inj hout).symm⟩
  · rintro ⟨hname, hconsistent, rfl⟩
    have hguard := hidentifies.mpr hconsistent.identifies
    exact ⟨by simpa using hname, _, ⟨hconsistent.increments, hconsistent.single, rfl⟩, hguard, rfl⟩

structure Compatible (c other : Column) : Prop where
  path : c.path ≠ other.path
  key : c.key ≠ other.key

end Column

namespace Leaf

/-- Two leaves of one entity have columns of their own and do not share an exclusive role. -/
structure Compatible (leaf other : Leaf) : Prop where
  columns : leaf.toColumn.Compatible other.toColumn
  roles : ∀ role ∈ Role.exclusive, leaf.plays role = true → other.plays role = false

theorem compatible_under_iff {property : String} {leaf other : Leaf} :
    (leaf.under property).Compatible (other.under property) ↔ leaf.Compatible other := by
  have hpath : (leaf.under property).path = (other.under property).path ↔
      leaf.path = other.path :=
    String.append_right_inj (property ++ ".")
  constructor
  · rintro ⟨hcolumns, hroles⟩
    exact ⟨⟨fun heq => hcolumns.path (hpath.mpr heq), hcolumns.key⟩, hroles⟩
  · rintro ⟨hcolumns, hroles⟩
    exact ⟨⟨fun heq => hcolumns.path (hpath.mp heq), hcolumns.key⟩, hroles⟩

theorem pairwise_under_iff {property : String} {leaves : List Leaf} :
    (leaves.map (·.under property)).Pairwise Compatible ↔ leaves.Pairwise Compatible := by
  rw [List.pairwise_map]
  simp only [compatible_under_iff]

theorem pairwise_columns {leaves : List Leaf} (h : leaves.Pairwise Compatible) :
    (leaves.map toColumn).Pairwise Column.Compatible :=
  List.pairwise_map.mpr (h.imp fun hcompatible => hcompatible.columns)

end Leaf

theorem pairwise_not_and_iff {α : Type} (p : α → Bool) (l : List α) :
    (l.Pairwise fun x y => p x = true → p y = false) ↔ (l.filter p).length ≤ 1 := by
  induction l with
  | nil => simp
  | cons x rest ih =>
    rw [List.pairwise_cons, ih]
    cases hx : p x with
    | false => simp [hx]
    | true =>
      have hnone : (∀ y ∈ rest, p y = false) ↔ (rest.filter p).length = 0 := by
        rw [List.length_eq_zero_iff, List.filter_eq_nil_iff]
        simp only [Bool.not_eq_true]
      rw [List.filter_cons_of_pos hx, List.length_cons]
      simp only [true_implies, hnone]
      omega

namespace Slots

/-- The positions of the leaves that play a role. -/
def ofLeaves (leaves : List Leaf) : Slots where
  ids := leaves.findIdxs (·.plays .id)
  version := (leaves.findIdxs (·.plays .version)).head?
  createdAt := (leaves.findIdxs (·.plays .createdAt)).head?
  updatedAt := (leaves.findIdxs (·.plays .updatedAt)).head?

private theorem eq_of_positions_eq {slots other : Slots}
    (h : ∀ role, slots.positions role = other.positions role) : slots = other := by
  have hslot : ∀ {i j : Option Nat}, i.toList = j.toList → i = j := by
    intro i j hij
    simpa using congrArg List.head? hij
  obtain ⟨ids, version, createdAt, updatedAt⟩ := slots
  obtain ⟨ids', version', createdAt', updatedAt'⟩ := other
  obtain rfl : ids = ids' := h .id
  obtain rfl := hslot (h .version)
  obtain rfl := hslot (h .createdAt)
  obtain rfl := hslot (h .updatedAt)
  rfl

private theorem toList_head? {α : Type} {l : List α} (h : l.length ≤ 1) : l.head?.toList = l := by
  match l, h with
  | [], _ => rfl
  | [_], _ => rfl

theorem positions_ofLeaves {leaves : List Leaf} (h : leaves.Pairwise Leaf.Compatible)
    (role : Role) : (ofLeaves leaves).positions role = leaves.findIdxs (·.plays role) := by
  have hsingle : ∀ role ∈ Role.exclusive,
      (leaves.findIdxs (·.plays role)).head?.toList = leaves.findIdxs (·.plays role) := by
    intro role hrole
    have hroles := (pairwise_not_and_iff _ _).mp (h.imp fun h => h.roles role hrole)
    apply toList_head?
    rwa [List.length_findIdxs, List.countP_eq_length_filter]
  cases role with
  | id => rfl
  | version => exact hsingle .version (by decide)
  | createdAt => exact hsingle .createdAt (by decide)
  | updatedAt => exact hsingle .updatedAt (by decide)

theorem holds_ofLeaves {leaves : List Leaf} (h : leaves.Pairwise Leaf.Compatible) {i : Nat}
    {leaf : Leaf} (hleaf : leaves[i]? = some leaf) : (ofLeaves leaves).holds i = leaf.plays := by
  funext role
  obtain ⟨hi, rfl⟩ := List.getElem?_eq_some_iff.mp hleaf
  rw [holds, positions_ofLeaves h, Bool.eq_iff_iff, List.contains_iff_mem,
    List.mem_findIdxs_iff_pos_getElem hi]

private theorem positions_put {slots : Slots} {i : Nat} {role : Role}
    (h : role ∈ Role.exclusive → slots.positions role = []) (other : Role) :
    (slots.put i role).positions other =
      slots.positions other ++ if other = role then [i] else [] := by
  by_cases hother : other = role
  · subst hother
    rw [if_pos rfl]
    cases other with
    | id => rfl
    | version => rw [h (by decide)]; rfl
    | createdAt => rw [h (by decide)]; rfl
    | updatedAt => rw [h (by decide)]; rfl
  · rw [if_neg hother, List.append_nil]
    cases role <;> cases other <;> first | rfl | contradiction

end Slots

namespace Flattened

def ofLeaves (leaves : List Leaf) (embedded : List (String × Metamodel)) : Flattened :=
  ⟨leaves.map Leaf.toColumn, .ofLeaves leaves, embedded⟩

theorem claim_eq_ok_iff {entity : String} {found : Flattened} {c : Column} {slots out : Slots}
    {role : Role} :
    found.claim entity c slots role = .ok out ↔
      (role ∈ Role.exclusive → slots.positions role = []) ∧
        out = slots.put found.columns.length role := by
  have hid : Role.id ∉ Role.exclusive := by decide
  have hother : role ≠ .id → role ∈ Role.exclusive := by
    intro h
    cases role <;> first | contradiction | decide
  unfold claim
  split
  next => simp only [hid, false_implies, true_and, Except.ok.injEq, eq_comm]
  next hfree => simp only [hfree, implies_true, true_and, Except.ok.injEq, eq_comm]
  next hrole hbusy => simp [hbusy, hother hrole]

theorem claims_eq_ok_iff {entity : String} {found : Flattened} {c : Column} {slots out : Slots}
    {roles : List Role} (hroles : roles.Nodup) :
    roles.foldlM (found.claim entity c) slots = .ok out ↔
      (∀ role ∈ roles, role ∈ Role.exclusive → slots.positions role = []) ∧
        ∀ role, out.positions role =
          slots.positions role ++ if role ∈ roles then [found.columns.length] else [] := by
  induction roles generalizing slots with
  | nil =>
    rw [List.foldlM_nil, Except.pure_eq_ok_iff]
    constructor
    · rintro rfl
      simp
    · rintro ⟨-, hout⟩
      exact Slots.eq_of_positions_eq fun role => by simp [hout role]
  | cons first rest ih =>
    obtain ⟨hfirst, hrest⟩ := List.nodup_cons.mp hroles
    have hother : ∀ role ∈ rest, role ≠ first := fun role hrole => ne_of_mem_of_not_mem hrole hfirst
    have hmem : ∀ role, ((if role = first then [found.columns.length] else []) ++
        if role ∈ rest then [found.columns.length] else []) =
          if role ∈ first :: rest then [found.columns.length] else [] := by
      intro role
      by_cases hrole : role = first
      · simp [hrole, hfirst]
      · simp [hrole]
    rw [List.foldlM_cons, Except.bind_eq_ok_iff]
    simp only [claim_eq_ok_iff, ih hrest]
    constructor
    · rintro ⟨_, ⟨hfree, rfl⟩, hrestFree, hout⟩
      have hput := Slots.positions_put (i := found.columns.length) hfree
      refine ⟨List.forall_mem_cons.mpr ⟨hfree, fun role hrole => ?_⟩, fun role => ?_⟩
      · simpa [hput, hother role hrole] using hrestFree role hrole
      · rw [hout, hput, List.append_assoc, hmem]
    · rintro ⟨hall, hout⟩
      obtain ⟨hfree, hrestFree⟩ := List.forall_mem_cons.mp hall
      have hput := Slots.positions_put (i := found.columns.length) hfree
      refine ⟨_, ⟨hfree, rfl⟩, fun role hrole => ?_, fun role => ?_⟩
      · simpa [hput, hother role hrole] using hrestFree role hrole
      · rw [hout, hput, List.append_assoc, hmem]

private theorem push_eq_ok_iff_positions {entity : String} {found out : Flattened} {c : Column}
    {roles : Role → Bool} :
    found.push entity c roles = .ok out ↔
      ((∀ other ∈ found.columns, other.Compatible c) ∧
        ∀ role ∈ Role.exclusive, roles role = true → found.slots.positions role = []) ∧
      ∃ slots, (∀ role, slots.positions role = found.slots.positions role ++
          if roles role then [found.columns.length] else []) ∧
        out = { found with columns := found.columns ++ [c], slots } := by
  have hcompatible : (∀ other ∈ found.columns, other.Compatible c) ↔
      ¬(found.columns.any (·.path == c.path)) = true ∧
        found.columns.find? (·.key == c.key) = none := by
    rw [List.any_eq_true, List.find?_eq_none, not_exists]
    simp only [beq_iff_eq, not_and]
    constructor
    · intro h
      exact ⟨fun other hother => (h other hother).path, fun other hother => (h other hother).key⟩
    · rintro ⟨hpath, hkey⟩ other hother
      exact ⟨hpath other hother, hkey other hother⟩
  have hnodup : (Role.all.filter roles).Nodup := List.Nodup.filter _ (by decide)
  have hclaimed : ∀ role, role ∈ Role.all.filter roles ↔ roles role = true := by
    intro role
    rw [List.mem_filter]
    exact and_iff_right (by cases role <;> decide)
  unfold push
  split
  next hpath => simp [hcompatible, hpath]
  next hpath =>
    split
    next hkey => simp [hcompatible, hkey]
    next hkey =>
      rw [and_iff_right (hcompatible.mpr ⟨hpath, hkey⟩), Except.bind_eq_ok_iff]
      simp only [claims_eq_ok_iff hnodup, hclaimed, Except.pure_eq_ok_iff]
      constructor
      · rintro ⟨slots, ⟨hfree, hslots⟩, rfl⟩
        exact ⟨fun role hrole hplays => hfree role hplays hrole, slots, hslots, rfl⟩
      · rintro ⟨hfree, slots, hslots, rfl⟩
        exact ⟨slots, ⟨fun role hplays hrole => hfree role hrole hplays, hslots⟩, rfl⟩

variable {leaves : List Leaf} {embedded : List (String × Metamodel)}

theorem push_eq_ok_iff {entity : String} {leaf : Leaf} {out : Flattened}
    (hleaves : leaves.Pairwise Leaf.Compatible) :
    (ofLeaves leaves embedded).push entity leaf.toColumn leaf.plays = .ok out ↔
      (leaves ++ [leaf]).Pairwise Leaf.Compatible ∧ out = ofLeaves (leaves ++ [leaf]) embedded := by
  have hpositions : ∀ role, (ofLeaves leaves embedded).slots.positions role =
      leaves.findIdxs (·.plays role) :=
    Slots.positions_ofLeaves hleaves
  have hlength : (ofLeaves leaves embedded).columns.length = leaves.length := List.length_map _
  have hsnoc : (leaves ++ [leaf]).Pairwise Leaf.Compatible ↔
      (∀ other ∈ (ofLeaves leaves embedded).columns, other.Compatible leaf.toColumn) ∧
        ∀ role ∈ Role.exclusive, leaf.plays role = true →
          leaves.findIdxs (·.plays role) = [] := by
    simp only [List.pairwise_append, hleaves, List.pairwise_singleton, true_and,
      List.mem_singleton, forall_eq, ofLeaves, List.forall_mem_map, List.findIdxs_eq_nil_iff]
    constructor
    · intro h
      refine ⟨fun other hother => (h other hother).columns, ?_⟩
      intro role hrole hplays other hother
      refine Bool.eq_false_iff.mpr fun hbusy => ?_
      exact Bool.eq_false_iff.mp ((h other hother).roles role hrole hbusy) hplays
    · rintro ⟨hcolumns, hroles⟩ other hother
      refine ⟨hcolumns other hother, fun role hrole hbusy => Bool.eq_false_iff.mpr fun hplays => ?_⟩
      exact Bool.eq_false_iff.mp (hroles role hrole hplays other hother) hbusy
  have hadded : ∀ role, (leaves ++ [leaf]).findIdxs (·.plays role) =
      leaves.findIdxs (·.plays role) ++ if leaf.plays role then [leaves.length] else [] := by
    simp
  rw [push_eq_ok_iff_positions, hsnoc]
  simp only [hpositions, hlength]
  refine and_congr_right fun hcompatible => ?_
  have hall := hsnoc.mpr hcompatible
  constructor
  · rintro ⟨slots, hslots, rfl⟩
    have heq : slots = .ofLeaves (leaves ++ [leaf]) := Slots.eq_of_positions_eq fun role => by
      rw [hslots, Slots.positions_ofLeaves hall, hadded]
    simp [heq, ofLeaves]
  · rintro rfl
    refine ⟨.ofLeaves (leaves ++ [leaf]), fun role => ?_, by simp [ofLeaves]⟩
    rw [Slots.positions_ofLeaves hall, hadded]

private theorem foldlM_push_eq_ok_iff {entity : String} {new : List Leaf} {out : Flattened}
    (hleaves : leaves.Pairwise Leaf.Compatible) :
    new.foldlM (fun found leaf => found.push entity leaf.toColumn leaf.plays)
        (ofLeaves leaves embedded) = .ok out ↔
      (leaves ++ new).Pairwise Leaf.Compatible ∧ out = ofLeaves (leaves ++ new) embedded := by
  induction new generalizing leaves with
  | nil =>
    rw [List.foldlM_nil, Except.pure_eq_ok_iff, List.append_nil, and_iff_right hleaves]
    exact eq_comm
  | cons leaf rest ih =>
    rw [List.foldlM_cons, Except.bind_eq_ok_iff, List.append_cons]
    simp only [push_eq_ok_iff hleaves]
    constructor
    · rintro ⟨_, ⟨hmiddle, rfl⟩, hrest⟩
      exact (ih hmiddle).mp hrest
    · rintro ⟨hall, hout⟩
      have hmiddle := (List.pairwise_append.mp hall).1
      exact ⟨_, ⟨hmiddle, rfl⟩, (ih hmiddle).mpr ⟨hall, hout⟩⟩

/-- The roles read off the positions of an embedded metamodel are those that its leaves play. -/
private theorem foldlM_zipIdx {entity name : String} {inner : List Leaf} (found : Flattened)
    (hinner : inner.Pairwise Leaf.Compatible) :
    (inner.map Leaf.toColumn).zipIdx.foldlM (fun found (c, i) =>
        found.push entity (c.under name) ((Slots.ofLeaves inner).holds i)) found =
      (inner.map (·.under name)).foldlM
        (fun found leaf => found.push entity leaf.toColumn leaf.plays) found := by
  have hsteps : ∀ steps : List (Leaf × Nat), (∀ step ∈ steps, inner[step.2]? = some step.1) →
      ∀ found : Flattened,
        (steps.map (Prod.map Leaf.toColumn id)).foldlM (fun found (c, i) =>
            found.push entity (c.under name) ((Slots.ofLeaves inner).holds i)) found =
          ((steps.map Prod.fst).map (·.under name)).foldlM
            (fun found leaf => found.push entity leaf.toColumn leaf.plays) found := by
    intro steps hsteps
    induction steps with
    | nil => exact fun _ => rfl
    | cons step rest ih =>
      obtain ⟨hfirst, hrest⟩ := List.forall_mem_cons.mp hsteps
      intro found
      rw [List.map_cons, List.map_cons, List.map_cons, List.foldlM_cons, List.foldlM_cons]
      simp only [Prod.map, id, Slots.holds_ofLeaves hinner hfirst, Leaf.toColumn_under,
        Leaf.plays_under, ih hrest]
  rw [List.zipIdx_map, hsteps inner.zipIdx fun _ => List.mem_zipIdx_iff_getElem?.mp,
    List.zipIdx_map_fst]

theorem join_eq_ok_iff {entity name : String} {inner : Metamodel} {under : List Leaf}
    {out : Flattened} (hleaves : leaves.Pairwise Leaf.Compatible)
    (hunder : under.Pairwise Leaf.Compatible) (hcolumns : inner.columns = under.map Leaf.toColumn)
    (hslots : inner.slots = .ofLeaves under) :
    (ofLeaves leaves embedded).join entity name inner = .ok out ↔
      (leaves ++ under.map (·.under name)).Pairwise Leaf.Compatible ∧
        out = ofLeaves (leaves ++ under.map (·.under name)) (embedded ++ [(name, inner)]) := by
  unfold join
  rw [hcolumns, hslots, foldlM_zipIdx _ hunder, Except.bind_eq_ok_iff]
  simp only [foldlM_push_eq_ok_iff hleaves, Except.pure_eq_ok_iff]
  constructor
  · rintro ⟨_, ⟨hall, rfl⟩, rfl⟩
    exact ⟨hall, rfl⟩
  · rintro ⟨hall, rfl⟩
    exact ⟨_, ⟨hall, rfl⟩, rfl⟩

end Flattened

mutual

def Descriptor.leaves : Descriptor → List Leaf
  | ⟨_, _, _, members⟩ => Descriptor.leavesOf members
termination_by structural descriptor => descriptor

def Descriptor.leavesOf : List (Member Descriptor) → List Leaf
  | [] => []
  | .property name markers :: rest => ⟨name, name, markers⟩ :: leavesOf rest
  | .embedded name descriptor :: rest => descriptor.leaves.map (·.under name) ++ leavesOf rest
termination_by structural members => members

end

mutual

def Descriptor.subtree : Descriptor → List Descriptor
  | ⟨name, table, identifierLess, members⟩ =>
    ⟨name, table, identifierLess, members⟩ :: Descriptor.subtreeOf members
termination_by structural descriptor => descriptor

def Descriptor.subtreeOf : List (Member Descriptor) → List Descriptor
  | [] => []
  | .property _ _ :: rest => subtreeOf rest
  | .embedded _ descriptor :: rest => descriptor.subtree ++ subtreeOf rest
termination_by structural members => members

end

def Member.name {δ : Type} : Member δ → String
  | .property name _ => name
  | .embedded name _ => name

namespace Descriptor

/-- Names are not empty, and there is at least one property. -/
structure Sound (descriptor : Descriptor) : Prop where
  named : ∀ member ∈ descriptor.members, member.name ≠ ""
  inhabited : descriptor.leaves ≠ []

structure Flattens (descriptor : Descriptor) : Prop where
  sound : ∀ other ∈ descriptor.subtree, other.Sound
  consistent : ∀ leaf ∈ descriptor.leaves, leaf.Consistent
  compatible : descriptor.leaves.Pairwise Leaf.Compatible

/-- What members have to satisfy in order to be flattened after leaves found before them. -/
structure FlattensAfter (found : List Leaf) (members : List (Member Descriptor)) : Prop where
  named : ∀ member ∈ members, member.name ≠ ""
  sound : ∀ other ∈ subtreeOf members, other.Sound
  consistent : ∀ leaf ∈ leavesOf members, leaf.Consistent
  compatible : (found ++ leavesOf members).Pairwise Leaf.Compatible

def Identified (descriptor : Descriptor) : Prop :=
  descriptor.identifierLess = true ∨ ∃ leaf ∈ descriptor.leaves, Marker.id ∈ leaf.markers

theorem flattensAfter_nil_iff {found : List Leaf} :
    FlattensAfter found [] ↔ found.Pairwise Leaf.Compatible := by
  constructor
  · intro h
    simpa [leavesOf] using h.compatible
  · intro h
    exact ⟨by simp, by simp [subtreeOf], by simp [leavesOf], by simpa [leavesOf] using h⟩

theorem flattensAfter_property_iff {found : List Leaf} {name : String} {markers : List Marker}
    {rest : List (Member Descriptor)} :
    FlattensAfter found (.property name markers :: rest) ↔
      name ≠ "" ∧ Leaf.Consistent ⟨name, name, markers⟩ ∧
        FlattensAfter (found ++ [⟨name, name, markers⟩]) rest := by
  constructor
  · rintro ⟨hnamed, hsound, hconsistent, hcompatible⟩
    rw [List.forall_mem_cons] at hnamed
    rw [leavesOf, List.forall_mem_cons] at hconsistent
    rw [leavesOf, List.append_cons] at hcompatible
    exact ⟨hnamed.1, hconsistent.1, hnamed.2, hsound, hconsistent.2, hcompatible⟩
  · rintro ⟨hname, hleaf, hnamed, hsound, hconsistent, hcompatible⟩
    refine ⟨List.forall_mem_cons.mpr ⟨hname, hnamed⟩, hsound, ?_, ?_⟩
    · rw [leavesOf, List.forall_mem_cons]
      exact ⟨hleaf, hconsistent⟩
    · rw [leavesOf, List.append_cons]
      exact hcompatible

theorem flattensAfter_embedded_iff {found : List Leaf} {name : String}
    {descriptor : Descriptor} {rest : List (Member Descriptor)} :
    FlattensAfter found (.embedded name descriptor :: rest) ↔
      name ≠ "" ∧ (∀ other ∈ descriptor.subtree, other.Sound) ∧
        (∀ leaf ∈ descriptor.leaves, leaf.Consistent) ∧
        FlattensAfter (found ++ descriptor.leaves.map (·.under name)) rest := by
  have hleaves : leavesOf (.embedded name descriptor :: rest) =
      descriptor.leaves.map (·.under name) ++ leavesOf rest := rfl
  constructor
  · rintro ⟨hnamed, hsound, hconsistent, hcompatible⟩
    rw [List.forall_mem_cons] at hnamed
    rw [subtreeOf, List.forall_mem_append] at hsound
    rw [hleaves, List.forall_mem_append, List.forall_mem_map] at hconsistent
    rw [hleaves, ← List.append_assoc] at hcompatible
    have hinner : ∀ leaf ∈ descriptor.leaves, leaf.Consistent := fun leaf hleaf =>
      Leaf.consistent_under_iff.mp (hconsistent.1 leaf hleaf)
    exact ⟨hnamed.1, hsound.1, hinner, hnamed.2, hsound.2, hconsistent.2, hcompatible⟩
  · rintro ⟨hname, hinner, hleaves', hnamed, hsound, hconsistent, hcompatible⟩
    refine ⟨List.forall_mem_cons.mpr ⟨hname, hnamed⟩, ?_, ?_, ?_⟩
    · rw [subtreeOf, List.forall_mem_append]
      exact ⟨hinner, hsound⟩
    · rw [hleaves, List.forall_mem_append, List.forall_mem_map]
      exact ⟨fun leaf hleaf => Leaf.consistent_under_iff.mpr (hleaves' leaf hleaf), hconsistent⟩
    · rw [hleaves, ← List.append_assoc]
      exact hcompatible

theorem FlattensAfter.found {found : List Leaf} {members : List (Member Descriptor)}
    (h : FlattensAfter found members) : found.Pairwise Leaf.Compatible :=
  (List.pairwise_append.mp h.compatible).1

theorem flattens_iff {descriptor : Descriptor} :
    descriptor.Flattens ↔ descriptor.leaves ≠ [] ∧ FlattensAfter [] descriptor.members := by
  obtain ⟨name, table, identifierLess, members⟩ := descriptor
  constructor
  · rintro ⟨hsound, hconsistent, hcompatible⟩
    rw [subtree, List.forall_mem_cons] at hsound
    exact ⟨hsound.1.inhabited, hsound.1.named, hsound.2, hconsistent, hcompatible⟩
  · rintro ⟨hinhabited, hnamed, hsound, hconsistent, hcompatible⟩
    refine ⟨?_, hconsistent, hcompatible⟩
    rw [subtree, List.forall_mem_cons]
    exact ⟨⟨hnamed, hinhabited⟩, hsound⟩

theorem identified_iff {descriptor : Descriptor} :
    descriptor.Identified ↔
      descriptor.identifierLess = true ∨ (Slots.ofLeaves descriptor.leaves).ids ≠ [] := by
  apply or_congr_right
  simp only [Slots.ofLeaves, ne_eq, List.findIdxs_eq_nil_iff, Leaf.plays, Role.marker, not_forall,
    Bool.not_eq_false, List.contains_iff_mem, exists_prop]

theorem build_eq_ok_iff {topLevel : Bool} {descriptor : Descriptor} {m : Metamodel} :
    descriptor.build topLevel = .ok m ↔
      ∃ flattened, flatten descriptor.name (.ofLeaves [] []) descriptor.members = .ok flattened ∧
        flattened.columns ≠ [] ∧
        (topLevel = true → descriptor.identifierLess = true ∨ flattened.slots.ids ≠ []) ∧
        m = {
          entity := descriptor.name
          table := descriptor.table.getD { name := descriptor.name }
          columns := flattened.columns
          slots := flattened.slots
          identifierLess := descriptor.identifierLess || !topLevel
          embedded := flattened.embedded } := by
  obtain ⟨name, table, identifierLess, members⟩ := descriptor
  have hidentified : ∀ ids : List Nat,
      ¬(ids.isEmpty && !(identifierLess || !topLevel)) = true ↔
        (topLevel = true → identifierLess = true ∨ ids ≠ []) := by
    intro ids
    cases ids <;> cases identifierLess <;> cases topLevel <;> simp
  rw [build, Except.bind_eq_ok_iff]
  simp only [Except.guard_eq_ok_iff, hidentified, List.isEmpty_iff]
  constructor
  · rintro ⟨flattened, hflatten, hinhabited, hid, hm⟩
    exact ⟨flattened, hflatten, hinhabited, hid, (Except.ok.inj hm).symm⟩
  · rintro ⟨flattened, hflatten, hinhabited, hid, rfl⟩
    exact ⟨flattened, hflatten, hinhabited, hid, rfl⟩

variable {leaves : List Leaf} {embedded : List (String × Metamodel)}

theorem flatten_property_eq_ok_iff {entity name : String} {markers : List Marker}
    {out : Flattened} {rest : List (Member Descriptor)}
    (hleaves : leaves.Pairwise Leaf.Compatible) :
    flatten entity (.ofLeaves leaves embedded) (.property name markers :: rest) = .ok out ↔
      name ≠ "" ∧ Leaf.Consistent ⟨name, name, markers⟩ ∧
        (leaves ++ [Leaf.mk name name markers]).Pairwise Leaf.Compatible ∧
        flatten entity (.ofLeaves (leaves ++ [⟨name, name, markers⟩]) embedded) rest =
          .ok out := by
  rw [flatten, Except.bind_eq_ok_iff]
  constructor
  · rintro ⟨c, hc, h⟩
    obtain ⟨hname, hleaf, rfl⟩ := Column.ofProperty_eq_ok_iff.mp hc
    obtain ⟨found, hpush, h⟩ := Except.bind_eq_ok_iff.mp h
    obtain ⟨hcompatible, rfl⟩ := (Flattened.push_eq_ok_iff hleaves).mp hpush
    exact ⟨hname, hleaf, hcompatible, h⟩
  · rintro ⟨hname, hleaf, hcompatible, h⟩
    refine ⟨_, Column.ofProperty_eq_ok_iff.mpr ⟨hname, hleaf, rfl⟩, ?_⟩
    exact Except.bind_eq_ok_iff.mpr
      ⟨_, (Flattened.push_eq_ok_iff hleaves).mpr ⟨hcompatible, rfl⟩, h⟩

theorem flatten_embedded_eq_ok_iff {entity name : String} {descriptor : Descriptor}
    {out : Flattened} {rest : List (Member Descriptor)} :
    flatten entity (.ofLeaves leaves embedded) (.embedded name descriptor :: rest) = .ok out ↔
      name ≠ "" ∧ ∃ inner, descriptor.build false = .ok inner ∧ ∃ found,
        (Flattened.ofLeaves leaves embedded).join entity name inner = .ok found ∧
        flatten entity found rest = .ok out := by
  rw [flatten, Except.guard_eq_ok_iff, Except.bind_eq_ok_iff, String.isEmpty_iff]
  simp only [Except.bind_eq_ok_iff]

mutual

/-- A descriptor that is built flattens, and its columns and positions are those of its leaves. -/
theorem flattens_of_build {topLevel : Bool} (descriptor : Descriptor) {m : Metamodel}
    (h : descriptor.build topLevel = .ok m) :
    descriptor.Flattens ∧ (topLevel = true → descriptor.Identified) ∧
      m.columns = descriptor.leaves.map Leaf.toColumn ∧
      m.slots = .ofLeaves descriptor.leaves := by
  match descriptor with
  | ⟨name, table, identifierLess, members⟩ =>
    obtain ⟨flattened, hflatten, hinhabited, hidentified, rfl⟩ := build_eq_ok_iff.mp h
    obtain ⟨hmembers, inner, rfl⟩ := flattensAfter_of_flatten members .nil hflatten
    have hleaves : leavesOf members ≠ [] := by simpa [Flattened.ofLeaves] using hinhabited
    exact ⟨flattens_iff.mpr ⟨hleaves, hmembers⟩, fun htop => identified_iff.mpr (hidentified htop),
      rfl, rfl⟩

theorem flattensAfter_of_flatten {entity : String} {leaves : List Leaf}
    {embedded : List (String × Metamodel)} {out : Flattened} (members : List (Member Descriptor))
    (hleaves : leaves.Pairwise Leaf.Compatible)
    (h : flatten entity (.ofLeaves leaves embedded) members = .ok out) :
    FlattensAfter leaves members ∧
      ∃ inner, out = .ofLeaves (leaves ++ leavesOf members) (embedded ++ inner) := by
  match members with
  | [] =>
    cases Except.ok.inj h
    exact ⟨flattensAfter_nil_iff.mpr hleaves, [], by simp [leavesOf]⟩
  | .property name markers :: rest =>
    obtain ⟨hname, hleaf, hnow, h⟩ := (flatten_property_eq_ok_iff hleaves).mp h
    obtain ⟨hrest, inner, rfl⟩ := flattensAfter_of_flatten rest hnow h
    exact ⟨flattensAfter_property_iff.mpr ⟨hname, hleaf, hrest⟩, inner, by simp [leavesOf]⟩
  | .embedded name descriptor :: rest =>
    obtain ⟨hname, inner, hinner, found, hjoin, h⟩ := flatten_embedded_eq_ok_iff.mp h
    obtain ⟨hflattens, -, hcolumns, hslots⟩ := flattens_of_build descriptor hinner
    obtain ⟨hnow, rfl⟩ :=
      (Flattened.join_eq_ok_iff hleaves hflattens.compatible hcolumns hslots).mp hjoin
    obtain ⟨hrest, others, rfl⟩ := flattensAfter_of_flatten rest hnow h
    refine ⟨flattensAfter_embedded_iff.mpr
      ⟨hname, hflattens.sound, hflattens.consistent, hrest⟩, (name, inner) :: others, ?_⟩
    simp [leavesOf]

end

mutual

theorem exists_build (topLevel : Bool) (descriptor : Descriptor) (hflattens : descriptor.Flattens)
    (hidentified : topLevel = true → descriptor.Identified) :
    ∃ m, descriptor.build topLevel = .ok m := by
  match descriptor with
  | ⟨name, table, identifierLess, members⟩ =>
    obtain ⟨hinhabited, hmembers⟩ := flattens_iff.mp hflattens
    obtain ⟨_, hflatten⟩ := exists_flatten name [] members hmembers
    obtain ⟨-, inner, rfl⟩ := flattensAfter_of_flatten members .nil hflatten
    refine ⟨_, build_eq_ok_iff.mpr ⟨_, hflatten, ?_, ?_, rfl⟩⟩
    · exact (not_congr List.map_eq_nil_iff).mpr hinhabited
    · exact fun htop => identified_iff.mp (hidentified htop)

theorem exists_flatten (entity : String) {leaves : List Leaf}
    (embedded : List (String × Metamodel)) (members : List (Member Descriptor))
    (h : FlattensAfter leaves members) :
    ∃ out, flatten entity (.ofLeaves leaves embedded) members = .ok out := by
  match members with
  | [] => exact ⟨_, rfl⟩
  | .property name markers :: rest =>
    obtain ⟨hname, hleaf, hrest⟩ := flattensAfter_property_iff.mp h
    obtain ⟨out, hout⟩ := exists_flatten entity embedded rest hrest
    exact ⟨out, (flatten_property_eq_ok_iff h.found).mpr ⟨hname, hleaf, hrest.found, hout⟩⟩
  | .embedded name descriptor :: rest =>
    obtain ⟨hname, hsound, hconsistent, hrest⟩ := flattensAfter_embedded_iff.mp h
    have hcompatible : descriptor.leaves.Pairwise Leaf.Compatible :=
      Leaf.pairwise_under_iff.mp (List.pairwise_append.mp hrest.found).2.1
    obtain ⟨inner, hbuild⟩ := exists_build false descriptor
      ⟨hsound, hconsistent, hcompatible⟩ (by simp)
    obtain ⟨-, -, hcolumns, hslots⟩ := flattens_of_build descriptor hbuild
    obtain ⟨out, hout⟩ := exists_flatten entity (embedded ++ [(name, inner)]) rest hrest
    refine ⟨out, flatten_embedded_eq_ok_iff.mpr ⟨hname, inner, hbuild, _, ?_, hout⟩⟩
    exact (Flattened.join_eq_ok_iff h.found hcompatible hcolumns hslots).mpr ⟨hrest.found, rfl⟩

end

end Descriptor

end EntitySql
