import EntitySql.Metamodel.Registry
import Mathlib.Data.List.Dedup
import Mathlib.Data.List.Nodup

/-!
Runs of lookups. As long as types do not change what they declare, a registry stands for the types
that have been looked up: it has one entry for each of them that can be built, and none for others.
So a lookup answers as if it built the metamodel anew, and builds it only the first time.
-/

namespace EntitySql

namespace EntityType

def acceptedKey? (type : EntityType) : Option Nat :=
  (Metamodel.ofDescriptor type.descriptor).toOption.map fun _ => type.key

/-- Types that are the same whenever their keys are. -/
def Steady (types : List EntityType) : Prop :=
  ∀ a ∈ types, ∀ b ∈ types, a.key = b.key → a = b

theorem Steady.mono {types more : List EntityType} (hsubset : types ⊆ more) (h : Steady more) :
    Steady types :=
  fun a ha b hb => h a (hsubset ha) b (hsubset hb)

theorem Steady.of_append_left {past more : List EntityType} (h : Steady (past ++ more)) :
    Steady past :=
  h.mono (List.subset_append_left ..)

theorem steady_of_nodup {types : List EntityType} (h : (types.map (·.key)).Nodup) : Steady types :=
  fun _ ha _ hb hkey => List.inj_on_of_nodup_map h ha hb hkey

private theorem mem_acceptedKeys {types : List EntityType} {key : Nat} :
    key ∈ types.filterMap acceptedKey? ↔
      ∃ type ∈ types, type.key = key ∧ ∃ m, Metamodel.ofDescriptor type.descriptor = .ok m := by
  rw [List.mem_filterMap]
  refine exists_congr fun type => and_congr_right fun _ => ?_
  unfold acceptedKey?
  cases Metamodel.ofDescriptor type.descriptor with
  | error e => simp [Except.toOption]
  | ok m => simp [Except.toOption]

end EntityType

namespace Registry

open EntityType

def consult (r : Registry) (type : EntityType) : Registry :=
  match r.lookup type with
  | .ok found => found.registry
  | .error _ => r

variable {r : Registry} {types : List EntityType} {type : EntityType} {m : Metamodel}

theorem lookup_of_find?_eq_some (h : r.find? type.key = some m) :
    r.lookup type = .ok ⟨m, r, false⟩ := by
  rw [lookup, h]

theorem lookup_of_find?_eq_none (h : r.find? type.key = none) :
    r.lookup type = (Metamodel.ofDescriptor type.descriptor).map fun m =>
      ⟨m, ⟨r.entries ++ [(type.key, m)]⟩, true⟩ := by
  rw [lookup, h]

theorem lookup_cases (r : Registry) (type : EntityType) :
    (∃ m, r.find? type.key = some m ∧ r.lookup type = .ok ⟨m, r, false⟩) ∨
      (∃ m, r.find? type.key = none ∧ Metamodel.ofDescriptor type.descriptor = .ok m ∧
        r.lookup type = .ok ⟨m, ⟨r.entries ++ [(type.key, m)]⟩, true⟩) ∨
      ∃ e, r.find? type.key = none ∧ Metamodel.ofDescriptor type.descriptor = .error e ∧
        r.lookup type = .error e := by
  cases hfind : r.find? type.key with
  | some m => exact .inl ⟨m, rfl, lookup_of_find?_eq_some hfind⟩
  | none =>
    rw [lookup_of_find?_eq_none hfind]
    cases Metamodel.ofDescriptor type.descriptor with
    | ok m => exact .inr (.inl ⟨m, rfl, rfl, rfl⟩)
    | error e => exact .inr (.inr ⟨e, rfl, rfl, rfl⟩)

private theorem consult_cases (r : Registry) (type : EntityType) :
    r.consult type = r ∧ (∀ m, Metamodel.ofDescriptor type.descriptor = .ok m →
        ∃ earlier, r.find? type.key = some earlier) ∨
      ∃ m, Metamodel.ofDescriptor type.descriptor = .ok m ∧ r.find? type.key = none ∧
        r.consult type = ⟨r.entries ++ [(type.key, m)]⟩ := by
  unfold consult
  rcases r.lookup_cases type with ⟨m, hfind, hlookup⟩ | ⟨m, hfind, hbuilt, hlookup⟩ |
    ⟨e, -, hbuilt, hlookup⟩ <;> rw [hlookup]
  · exact .inl ⟨rfl, fun _ _ => ⟨m, hfind⟩⟩
  · exact .inr ⟨m, hbuilt, hfind, rfl⟩
  · exact .inl ⟨rfl, fun m hm => by simp [hbuilt] at hm⟩

theorem entries_prefix_consult (r : Registry) (type : EntityType) :
    r.entries <+: (r.consult type).entries := by
  rcases r.consult_cases type with ⟨hkept, -⟩ | ⟨m, -, -, hadded⟩
  · exact hkept.symm ▸ List.prefix_rfl
  · rw [hadded]
    exact List.prefix_append ..

theorem entries_prefix_foldl_consult (r : Registry) (types : List EntityType) :
    r.entries <+: (types.foldl consult r).entries := by
  induction types generalizing r with
  | nil => exact List.prefix_rfl
  | cons type types ih => exact (r.entries_prefix_consult type).trans (ih (r.consult type))

/-- A registry as the lookups of some types leave it. -/
structure Reflects (r : Registry) (types : List EntityType) : Prop where
  distinct : (r.entries.map Prod.fst).Nodup
  mem_iff : ∀ key m, (key, m) ∈ r.entries ↔
    ∃ type ∈ types, type.key = key ∧ Metamodel.ofDescriptor type.descriptor = .ok m

theorem reflects_empty : Reflects {} [] :=
  ⟨List.nodup_nil, by simp⟩

theorem find?_eq_some_iff (h : (r.entries.map Prod.fst).Nodup) {key : Nat} :
    r.find? key = some m ↔ (key, m) ∈ r.entries := by
  unfold find?
  constructor
  · intro hfound
    obtain ⟨before, after, hentries, -⟩ := List.lookup_eq_some_iff.mp hfound
    simp [hentries]
  · intro hmem
    obtain ⟨before, after, hentries⟩ := List.append_of_mem hmem
    rw [hentries, List.map_append, List.map_cons] at h
    have hbefore : key ∉ before.map Prod.fst := fun hkey =>
      (List.nodup_append.mp h).2.2 key hkey key (List.mem_cons_self ..) rfl
    refine List.lookup_eq_some_iff.mpr ⟨before, after, hentries, fun entry hentry => ?_⟩
    rw [bne_iff_ne]
    rintro rfl
    exact hbefore (List.mem_map_of_mem hentry)

theorem find?_eq_none_iff {key : Nat} : r.find? key = none ↔ key ∉ r.entries.map Prod.fst := by
  unfold find?
  rw [List.lookup_eq_none_iff, List.mem_map]
  constructor
  · rintro h ⟨entry, hentry, rfl⟩
    simpa using h entry hentry
  · intro h entry hentry
    rw [bne_iff_ne]
    rintro rfl
    exact h ⟨entry, hentry, rfl⟩

namespace Reflects

theorem mem_keys_iff (h : r.Reflects types) {key : Nat} :
    key ∈ r.entries.map Prod.fst ↔ key ∈ types.filterMap acceptedKey? := by
  rw [mem_acceptedKeys, List.mem_map]
  constructor
  · rintro ⟨⟨key, m⟩, hentry, rfl⟩
    obtain ⟨type, htype, hkey, hm⟩ := (h.mem_iff key m).mp hentry
    exact ⟨type, htype, hkey, m, hm⟩
  · rintro ⟨type, htype, hkey, m, hm⟩
    exact ⟨(key, m), (h.mem_iff key m).mpr ⟨type, htype, hkey, hm⟩, rfl⟩

theorem size_eq (h : r.Reflects types) :
    r.size = (types.filterMap acceptedKey?).dedup.length := by
  have hperm : (r.entries.map Prod.fst).Perm (types.filterMap acceptedKey?).dedup :=
    (List.perm_ext_iff_of_nodup h.distinct (List.nodup_dedup _)).mpr fun key => by
      rw [h.mem_keys_iff, List.mem_dedup]
  rw [← hperm.length_eq, List.length_map, size]

theorem built_of_mem (h : r.Reflects types) (hsteady : Steady (types ++ [type]))
    (hentry : (type.key, m) ∈ r.entries) : Metamodel.ofDescriptor type.descriptor = .ok m := by
  obtain ⟨earlier, hearlier, hkey, hm⟩ := (h.mem_iff type.key m).mp hentry
  obtain rfl := hsteady earlier (by simp [hearlier]) type (by simp) hkey
  exact hm

theorem find?_eq_none (h : r.Reflects types) {key : Nat}
    (hkey : key ∉ types.filterMap acceptedKey?) : r.find? key = none :=
  find?_eq_none_iff.mpr fun hentry => hkey (h.mem_keys_iff.mp hentry)

theorem exists_find?_eq_some (h : r.Reflects types) {key : Nat}
    (hkey : key ∈ types.filterMap acceptedKey?) : ∃ m, r.find? key = some m := by
  obtain ⟨⟨key, m⟩, hentry, rfl⟩ := List.mem_map.mp (h.mem_keys_iff.mpr hkey)
  exact ⟨m, (find?_eq_some_iff h.distinct).mpr hentry⟩

/-- A lookup answers as if there was no registry. -/
theorem metamodel_lookup (h : r.Reflects types) (hsteady : Steady (types ++ [type])) :
    (r.lookup type).map (·.metamodel) = Metamodel.ofDescriptor type.descriptor := by
  cases hfind : r.find? type.key with
  | some m =>
    rw [lookup_of_find?_eq_some hfind,
      h.built_of_mem hsteady ((find?_eq_some_iff h.distinct).mp hfind)]
    rfl
  | none =>
    rw [lookup_of_find?_eq_none hfind]
    cases Metamodel.ofDescriptor type.descriptor <;> rfl

private theorem exists_concat_iff (h : r.Reflects types) (key : Nat) (m : Metamodel) :
    (∃ t ∈ types ++ [type], t.key = key ∧ Metamodel.ofDescriptor t.descriptor = .ok m) ↔
      (key, m) ∈ r.entries ∨
        type.key = key ∧ Metamodel.ofDescriptor type.descriptor = .ok m := by
  simp only [h.mem_iff, List.mem_append, List.mem_singleton, or_and_right, exists_or,
    exists_eq_left]

theorem consult (h : r.Reflects types) (hsteady : Steady (types ++ [type])) :
    (r.consult type).Reflects (types ++ [type]) := by
  rcases r.consult_cases type with ⟨hkept, hfound⟩ | ⟨built, hbuilt, hnone, hadded⟩
  · rw [hkept]
    refine ⟨h.distinct, fun key m => ?_⟩
    rw [h.exists_concat_iff, iff_self_or]
    rintro ⟨rfl, hm⟩
    obtain ⟨earlier, hearlier⟩ := hfound m hm
    have hentry : (type.key, earlier) ∈ r.entries := (find?_eq_some_iff h.distinct).mp hearlier
    rwa [← Except.ok.inj ((h.built_of_mem hsteady hentry).symm.trans hm)]
  · rw [hadded]
    refine ⟨?_, fun key m => ?_⟩
    · rw [List.map_append]
      exact h.distinct.append (List.nodup_singleton _)
        (List.disjoint_singleton.mpr (find?_eq_none_iff.mp hnone))
    · rw [h.exists_concat_iff, List.mem_append, List.mem_singleton, hbuilt, Prod.mk.injEq,
        Except.ok.injEq, @eq_comm _ key, @eq_comm _ m]

theorem foldl_consult {more : List EntityType} (h : r.Reflects types)
    (hsteady : Steady (types ++ more)) :
    (more.foldl Registry.consult r).Reflects (types ++ more) := by
  induction more generalizing r types with
  | nil => rwa [List.append_nil]
  | cons type more ih =>
    rw [List.append_cons] at hsteady ⊢
    exact ih (h.consult hsteady.of_append_left) hsteady

end Reflects
end Registry
end EntitySql
