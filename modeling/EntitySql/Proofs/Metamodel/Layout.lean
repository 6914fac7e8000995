import EntitySql.Proofs.Metamodel.Validity
import Mathlib.Data.List.Nodup

/-!
The layout of metamodels. A metamodel shows the leaves of its descriptor as columns, one for each
and in order, and its positions lead to those with the markers. So do the metamodels of embedded
descriptors, each with positions of its own. Their columns stand among those of the outer one as
they are, but for the prefix of their paths.
-/

namespace EntitySql

namespace Leaf

structure Declares (leaf : Leaf) (c : Column) : Prop where
  path : c.path = leaf.path
  name : c.name = leaf.name
  /-- The last rename counts. -/
  renamed : ∀ before name quoted after,
    leaf.markers = before ++ .column (some name) quoted :: after →
      (∀ other quoted, .column (some other) quoted ∉ after) → c.column = name
  unnamed : (∀ other quoted, .column (some other) quoted ∉ leaf.markers) → c.column = leaf.name
  quoted : c.quoted = true ↔ ∃ name, .column name true ∈ leaf.markers
  generation : ∀ generation, c.generation = some generation ↔
    ∃ marker ∈ leaf.markers, marker.generation? = some generation

private theorem filterMap_rename?_eq_nil {markers : List Marker}
    (h : ∀ other quoted, Marker.column (some other) quoted ∉ markers) :
    markers.filterMap Column.rename? = [] := by
  rw [List.filterMap_eq_nil_iff]
  intro marker hmarker
  match marker with
  | .column (some other) quoted => exact absurd hmarker (h other quoted)
  | .column none _ | .id | .version | .createdAt | .updatedAt | .identity | .sequence _ => rfl

private theorem head?_eq_some_iff_mem {α : Type} {l : List α} (h : l.length ≤ 1) (a : α) :
    l.head? = some a ↔ a ∈ l := by
  cases l with
  | nil => simp
  | cons first rest =>
    obtain rfl : rest = [] := List.length_eq_zero_iff.mp (Nat.le_zero.mp (Nat.le_of_succ_le_succ h))
    simp [eq_comm]

theorem Consistent.declares {leaf : Leaf} (h : leaf.Consistent) : leaf.Declares leaf.toColumn where
  path := rfl
  name := rfl
  renamed := by
    intro before name quoted after hmarkers hlast
    have hrenames : leaf.markers.filterMap Column.rename? =
        before.filterMap Column.rename? ++ [name] := by
      simp [hmarkers, Column.rename?, filterMap_rename?_eq_nil hlast]
    simp [toColumn, columnName, hrenames]
  unnamed := by
    intro hnone
    simp [toColumn, columnName, filterMap_rename?_eq_nil hnone]
  quoted := by
    have hquotes : ∀ marker, Column.quotes marker = true ↔ ∃ name, marker = .column name true := by
      intro marker
      cases marker <;> simp [Column.quotes]
    simp only [toColumn, List.any_eq_true, hquotes]
    constructor
    · rintro ⟨_, hmarker, name, rfl⟩
      exact ⟨name, hmarker⟩
    · rintro ⟨name, hmarker⟩
      exact ⟨_, hmarker, name, rfl⟩
  generation := by
    intro generation
    rw [toColumn, head?_eq_some_iff_mem h.single, generations, List.mem_filterMap]

end Leaf

namespace Metamodel

/-- The columns of a metamodel stand for the leaves. Its positions say where those with a marker
are, and what is found there are the columns with the marker. -/
structure Shows (m : Metamodel) (leaves : List Leaf) : Prop where
  columns : m.columns = leaves.map Leaf.toColumn
  declared : ∀ leaf ∈ leaves, leaf.Declares leaf.toColumn
  slots : m.slots = .ofLeaves leaves
  ids : m.ids = (leaves.filter fun leaf => Marker.id ∈ leaf.markers).map Leaf.toColumn
  ids_nodup : m.ids.Nodup
  version : m.version.toList =
    (leaves.filter fun leaf => Marker.version ∈ leaf.markers).map Leaf.toColumn
  createdAt : m.createdAt.toList =
    (leaves.filter fun leaf => Marker.createdAt ∈ leaf.markers).map Leaf.toColumn
  updatedAt : m.updatedAt.toList =
    (leaves.filter fun leaf => Marker.updatedAt ∈ leaf.markers).map Leaf.toColumn
  isId_iff : ∀ leaf ∈ leaves, m.isId leaf.toColumn = true ↔ Marker.id ∈ leaf.markers
  generated : ∀ c ∈ m.columns, c.isGenerated = true → c ∈ m.ids

variable {m : Metamodel} {leaves : List Leaf}

private theorem filterMap_findIdxs {α : Type} (p : α → Bool) (l : List α) :
    (l.findIdxs p).filterMap (l[·]?) = l.filter p := by
  induction l with
  | nil => rfl
  | cons a rest ih =>
    have hrest : (rest.findIdxs p 1).filterMap ((a :: rest)[·]?) = rest.filter p := by
      rw [List.findIdxs_start, List.filterMap_map, ← ih]
      rfl
    rw [List.findIdxs_cons, Nat.zero_add]
    split
    next ha =>
      rw [List.filter_cons_of_pos ha, ← hrest]
      rfl
    next ha => rw [hrest, List.filter_cons_of_neg ha]

private theorem toList_bind {α β : Type} (o : Option α) (f : α → Option β) :
    (o.bind f).toList = o.toList.filterMap f := by
  cases o with
  | none => rfl
  | some a => cases hf : f a <;> simp [hf]

theorem filterMap_positions (hcolumns : m.columns = leaves.map Leaf.toColumn)
    (hslots : m.slots = .ofLeaves leaves) (hleaves : leaves.Pairwise Leaf.Compatible)
    (role : Role) :
    (m.slots.positions role).filterMap (m.columns[·]?) =
      (leaves.filter fun leaf => role.marker ∈ leaf.markers).map Leaf.toColumn := by
  have hplays : ∀ leaf : Leaf, decide (role.marker ∈ leaf.markers) = leaf.plays role :=
    fun leaf => (List.elem_eq_mem ..).symm
  simp only [hplays]
  rw [hslots, Slots.positions_ofLeaves hleaves, hcolumns, ← filterMap_findIdxs,
    List.map_filterMap]
  simp only [List.getElem?_map]

theorem nodup_paths (h : m.columns.Pairwise Column.Compatible) :
    (m.columns.map (·.path)).Nodup :=
  List.pairwise_map.mpr (h.imp fun hcompatible => hcompatible.path)

theorem nodup_columns (h : m.columns.Pairwise Column.Compatible) : m.columns.Nodup :=
  (nodup_paths h).of_map _

theorem eq_of_path_eq (h : m.columns.Pairwise Column.Compatible) {c other : Column}
    (hc : c ∈ m.columns) (hother : other ∈ m.columns) (hpath : c.path = other.path) :
    c = other :=
  List.inj_on_of_nodup_map (nodup_paths h) hc hother hpath

theorem compatible_of_ofDescriptor {descriptor : Descriptor}
    (h : Metamodel.ofDescriptor descriptor = .ok m) : m.columns.Pairwise Column.Compatible := by
  obtain ⟨hflattens, -, hcolumns, -⟩ := descriptor.flattens_of_build h
  exact hcolumns ▸ Leaf.pairwise_columns hflattens.compatible

theorem any_path_iff_mem (h : m.columns.Pairwise Column.Compatible) {c : Column}
    (hc : c ∈ m.columns) {columns : List Column} (hcolumns : columns ⊆ m.columns) :
    columns.any (·.path == c.path) = true ↔ c ∈ columns := by
  simp only [List.any_eq_true, beq_iff_eq]
  constructor
  · rintro ⟨other, hother, hpath⟩
    rwa [← eq_of_path_eq h (hcolumns hother) hc hpath]
  · intro hmem
    exact ⟨c, hmem, rfl⟩

theorem isId_iff_mem_ids (h : m.columns.Pairwise Column.Compatible) {c : Column}
    (hc : c ∈ m.columns) : m.isId c = true ↔ c ∈ m.ids :=
  any_path_iff_mem h hc m.ids_subset

theorem shows_of_compatible (hcolumns : m.columns = leaves.map Leaf.toColumn)
    (hslots : m.slots = .ofLeaves leaves) (hconsistent : ∀ leaf ∈ leaves, leaf.Consistent)
    (hleaves : leaves.Pairwise Leaf.Compatible) : m.Shows leaves := by
  have hcompatible : m.columns.Pairwise Column.Compatible :=
    hcolumns ▸ Leaf.pairwise_columns hleaves
  have hfound := filterMap_positions hcolumns hslots hleaves
  have hids : m.ids = (leaves.filter fun leaf => Marker.id ∈ leaf.markers).map Leaf.toColumn :=
    hfound .id
  have hpaths : (leaves.map (·.path)).Nodup := ((Descriptor.pairwise_compatible_iff _).mp hleaves).1
  have hmem_ids : ∀ leaf ∈ leaves, leaf.toColumn ∈ m.ids ↔ Marker.id ∈ leaf.markers := by
    intro leaf hleaf
    rw [hids, List.mem_map]
    constructor
    · rintro ⟨other, hother, heq⟩
      obtain ⟨hmem, hmarked⟩ := List.mem_filter.mp hother
      obtain rfl := List.inj_on_of_nodup_map hpaths hmem hleaf (congrArg Column.path heq)
      exact of_decide_eq_true hmarked
    · intro hmarked
      exact ⟨leaf, List.mem_filter.mpr ⟨hleaf, decide_eq_true hmarked⟩, rfl⟩
  refine ⟨hcolumns, fun leaf hleaf => (hconsistent leaf hleaf).declares, hslots, hids, ?_,
    (toList_bind ..).trans (hfound .version), (toList_bind ..).trans (hfound .createdAt),
    (toList_bind ..).trans (hfound .updatedAt), ?_, ?_⟩
  · rw [hids]
    exact (nodup_columns hcompatible).sublist (hcolumns ▸ List.filter_sublist.map _)
  · intro leaf hleaf
    have hmem : leaf.toColumn ∈ m.columns := hcolumns ▸ List.mem_map_of_mem hleaf
    rw [isId_iff_mem_ids hcompatible hmem, hmem_ids leaf hleaf]
  · intro c hc hgenerated
    rw [hcolumns] at hc
    obtain ⟨leaf, hleaf, rfl⟩ := List.mem_map.mp hc
    refine (hmem_ids leaf hleaf).mpr ((hconsistent leaf hleaf).identifies ?_)
    intro hnone
    simp [Column.isGenerated, Leaf.toColumn, hnone] at hgenerated

end Metamodel

namespace Descriptor

mutual

/-- The metamodel is the flattening of the descriptor. An embedded descriptor is taken to do
without identifier. -/
inductive FlattensTo : Bool → Descriptor → Metamodel → Prop
  | intro {topLevel identifierLess : Bool} {name : String} {table : Option Table}
      {members : List (Member Descriptor)} {m : Metamodel} :
      m.entity = name → m.table = table.getD { name } →
      m.identifierLess = (identifierLess || !topLevel) → m.Shows (leavesOf members) →
      Embeds members m.columns m.embedded →
      FlattensTo topLevel ⟨name, table, identifierLess, members⟩ m

/-- Members in order, with the columns and the embedded metamodels that they contribute. -/
inductive Embeds : List (Member Descriptor) → List Column → List (String × Metamodel) → Prop
  | nil : Embeds [] [] []
  | property {name : String} {markers : List Marker} {rest : List (Member Descriptor)}
      {columns : List Column} {embedded : List (String × Metamodel)} :
      Embeds rest columns embedded →
      Embeds (.property name markers :: rest) (Leaf.toColumn ⟨name, name, markers⟩ :: columns)
        embedded
  | embedded {name : String} {descriptor : Descriptor} {inner : Metamodel}
      {rest : List (Member Descriptor)} {columns : List Column}
      {embedded : List (String × Metamodel)} :
      FlattensTo false descriptor inner → Embeds rest columns embedded →
      Embeds (.embedded name descriptor :: rest) (inner.columns.map (·.under name) ++ columns)
        ((name, inner) :: embedded)

end

mutual

theorem flattensTo_of_build {topLevel : Bool} (descriptor : Descriptor) {m : Metamodel}
    (h : descriptor.build topLevel = .ok m) : descriptor.FlattensTo topLevel m := by
  match descriptor with
  | ⟨name, table, identifierLess, members⟩ =>
    obtain ⟨hflattens, -, hcolumns, hslots⟩ := flattens_of_build _ h
    obtain ⟨flattened, hflatten, -, -, rfl⟩ := build_eq_ok_iff.mp h
    obtain ⟨inner, hinner, hembeds⟩ := embeds_of_flatten members .nil hflatten
    refine .intro rfl rfl rfl ?_ ?_
    · exact Metamodel.shows_of_compatible hcolumns hslots hflattens.consistent hflattens.compatible
    · rw [hcolumns, hinner]
      exact hembeds

theorem embeds_of_flatten {entity : String} {leaves : List Leaf}
    {embedded : List (String × Metamodel)} {out : Flattened} (members : List (Member Descriptor))
    (hleaves : leaves.Pairwise Leaf.Compatible)
    (h : flatten entity (.ofLeaves leaves embedded) members = .ok out) :
    ∃ inner, out.embedded = embedded ++ inner ∧
      Embeds members ((leavesOf members).map Leaf.toColumn) inner := by
  match members with
  | [] =>
    cases Except.ok.inj h
    exact ⟨[], (List.append_nil _).symm, .nil⟩
  | .property name markers :: rest =>
    obtain ⟨-, -, hnow, h⟩ := (flatten_property_eq_ok_iff hleaves).mp h
    obtain ⟨inner, hembedded, hrest⟩ := embeds_of_flatten rest hnow h
    exact ⟨inner, hembedded, .property hrest⟩
  | .embedded name descriptor :: rest =>
    obtain ⟨-, inner, hinner, found, hjoin, h⟩ := flatten_embedded_eq_ok_iff.mp h
    obtain ⟨hflattens, -, hcolumns, hslots⟩ := flattens_of_build descriptor hinner
    obtain ⟨hnow, rfl⟩ :=
      (Flattened.join_eq_ok_iff hleaves hflattens.compatible hcolumns hslots).mp hjoin
    obtain ⟨others, hembedded, hrest⟩ := embeds_of_flatten rest hnow h
    refine ⟨(name, inner) :: others, by simp [hembedded], ?_⟩
    have hunder : (leavesOf (.embedded name descriptor :: rest)).map Leaf.toColumn =
        inner.columns.map (·.under name) ++ (leavesOf rest).map Leaf.toColumn := by
      simp [leavesOf, hcolumns]
    rw [hunder]
    exact .embedded (flattensTo_of_build descriptor hinner) hrest

end

mutual

theorem FlattensTo.unique {topLevel : Bool} {descriptor : Descriptor} {m n : Metamodel}
    (hm : descriptor.FlattensTo topLevel m) (hn : descriptor.FlattensTo topLevel n) : m = n := by
  obtain ⟨hentity, htable, hidentifierLess, hshows, hembeds⟩ := hm
  obtain ⟨hentity', htable', hidentifierLess', hshows', hembeds'⟩ := hn
  obtain ⟨hcolumns, hembedded⟩ := hembeds.unique hembeds'
  have hslots := hshows.slots.trans hshows'.slots.symm
  cases m
  cases n
  simp_all

theorem Embeds.unique {members : List (Member Descriptor)} {columns columns' : List Column}
    {embedded embedded' : List (String × Metamodel)} (h : Embeds members columns embedded)
    (h' : Embeds members columns' embedded') : columns = columns' ∧ embedded = embedded' := by
  match h, h' with
  | .nil, .nil => exact ⟨rfl, rfl⟩
  | .property hrest, .property hrest' =>
    obtain ⟨rfl, rfl⟩ := hrest.unique hrest'
    exact ⟨rfl, rfl⟩
  | .embedded hinner hrest, .embedded hinner' hrest' =>
    obtain rfl := hinner.unique hinner'
    obtain ⟨rfl, rfl⟩ := hrest.unique hrest'
    exact ⟨rfl, rfl⟩

end

end Descriptor

namespace Metamodel

variable {m : Metamodel} {descriptor : Descriptor}

theorem shows_of_ofDescriptor (h : Metamodel.ofDescriptor descriptor = .ok m) :
    m.Shows descriptor.leaves := by
  cases Descriptor.flattensTo_of_build descriptor h with
  | intro _ _ _ hshows _ => exact hshows

theorem nodup_paths_ids (h : Metamodel.ofDescriptor descriptor = .ok m) :
    (m.ids.map (·.path)).Nodup :=
  (shows_of_ofDescriptor h).ids_nodup.map_on fun _ hc _ hother hpath =>
    eq_of_path_eq (compatible_of_ofDescriptor h) (m.ids_subset hc) (m.ids_subset hother) hpath

end Metamodel

/-- An accepted descriptor has exactly one flattening, which is its metamodel. -/
theorem accepted_is_flattening {descriptor : Descriptor} {m : Metamodel}
    (h : Metamodel.ofDescriptor descriptor = .ok m) :
    descriptor.FlattensTo true m ∧ ∀ other, descriptor.FlattensTo true other → other = m := by
  have hm := Descriptor.flattensTo_of_build descriptor h
  exact ⟨hm, fun other hother => hother.unique hm⟩

/-- A composite identifier inside an embedded descriptor that does not come first, and a renamed
column two levels deep in another. -/
def shipment : Descriptor where
  name := "Shipment"
  members := [
    .property "version" [.version],
    .embedded "key" {
      name := "Key"
      members := [
        .property "order" [.id, .sequence { name := "orders", increment := 10 }],
        .property "line" [.column (some "LINE_NO") false, .id, .column none true]] },
    .embedded "address" {
      name := "Address"
      members := [
        .property "street" [],
        .embedded "place" {
          name := "Place"
          members := [
            .property "city" [.column (some "town") false, .column (some "CITY") false]] }] }]

theorem shipment_is_flattening :
    ∃ m, Metamodel.ofDescriptor shipment = .ok m ∧
      m.columns.map (·.path) =
        ["version", "key.order", "key.line", "address.street", "address.place.city"] ∧
      m.columns.map (·.column) = ["version", "order", "LINE_NO", "street", "CITY"] ∧
      m.slots = { ids := [1, 2], version := some 0 } ∧
      m.embedded.map (fun entry => entry.2.slots) = [{ ids := [0, 1] }, {}] ∧
      m.ids.map (·.path) = ["key.order", "key.line"] ∧
      m.version.map (·.path) = some "version" ∧ m.createdAt = none ∧
      shipment.FlattensTo true m ∧ ∀ other, shipment.FlattensTo true other → other = m :=
  ⟨_, rfl, rfl, rfl, rfl, rfl, rfl, rfl, rfl, accepted_is_flattening rfl⟩

end EntitySql
