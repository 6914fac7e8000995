import EntitySql.Proofs.Metamodel.Layout
import EntitySql.Proofs.Session.Chain
import EntitySql.Proofs.Session.InsertedRow

/-!
The audit of entities. Before an insert the audit listener writes the time into the columns for it
and the first version, before an update only the time. This comes to a chain of single writes, so
the first write that is refused is the last one, and the operation ends there with nothing executed.
-/

namespace EntitySql

namespace Metamodel

variable (m : Metamodel)

def stamped : Mutation → List Column
  | .insert => m.createdAt.toList ++ m.updatedAt.toList
  | .update => m.updatedAt.toList
  | .delete => []

def initialized : Mutation → Option Column
  | .insert => m.version
  | .update | .delete => none

def audited (operation : Mutation) : List Column :=
  m.stamped operation ++ (m.initialized operation).toList

variable {m} {operation : Mutation}

private theorem audited_sublist : (m.audited operation).Sublist (m.audited .insert) := by
  cases operation with
  | insert => exact List.Sublist.refl _
  | update =>
    have hupdated : m.updatedAt.toList.Sublist (m.createdAt.toList ++ m.updatedAt.toList) :=
      List.sublist_append_right ..
    exact hupdated.append (List.nil_sublist _)
  | delete => exact List.nil_sublist _

theorem audited_subset_columns : m.audited operation ⊆ m.columns := by
  intro c hc
  have hroles := audited_sublist.subset hc
  simp only [audited, stamped, initialized, List.mem_append, or_assoc] at hroles
  rcases hroles with hc | hc | hc
  all_goals exact mem_columns_of_slot (Option.mem_toList.mp hc)

theorem nodup_paths_audited (hcompatible : m.columns.Pairwise Column.Compatible)
    (hapart : (m.audited .insert).Nodup) : ((m.audited operation).map (·.path)).Nodup := by
  refine List.Nodup.map_on ?_ (hapart.sublist audited_sublist)
  intro c hc other hother hpath
  exact eq_of_path_eq hcompatible (audited_subset_columns hc) (audited_subset_columns hother) hpath

private theorem path_not_mem_stamped (hpaths : ((m.audited operation).map (·.path)).Nodup)
    {c : Column} (hc : c ∈ m.initialized operation) :
    c.path ∉ (m.stamped operation).map (·.path) := by
  rw [audited, List.map_append, List.nodup_append] at hpaths
  intro hstamped
  exact hpaths.2.2 _ hstamped _ (List.mem_map_of_mem (Option.mem_toList.mpr hc)) rfl

end Metamodel

namespace Listener

variable {σ ε : Type}

def writing (access : EntityAccess σ ε) (entry : String × Value) : Listener σ ε :=
  ⟨fun _ _ entity => write access entry.1 entry.2 entity⟩

/-- The first version of an entity that has none, bound as the null it replaces. -/
def firstVersion? : Option Value → Option Value
  | none => some (.bigInt 0)
  | some current => if current.isNull then some ⟨.int 0, current.type⟩ else none

def timeEntries (now : Timestamp) (columns : List Column) : List (String × Value) :=
  columns.map fun c => (c.path, .timestamp now)

def versionEntries (read : String → Option Value) (column : Option Column) :
    List (String × Value) :=
  column.toList.filterMap fun c => (firstVersion? (read c.path)).map (c.path, ·)

def auditEntries (m : Metamodel) (now : Timestamp) (read : String → Option Value)
    (operation : Mutation) : List (String × Value) :=
  timeEntries now (m.stamped operation) ++ versionEntries read (m.initialized operation)

/-- The surroundings in which an audit begins to write. The clock is read before every insert, but
before an update only if there is a column for the time. -/
def afterReading (clock : StateM σ Timestamp) (m : Metamodel) (x : σ) : Mutation → σ
  | .insert => (clock x).2
  | .update => if m.updatedAt.isSome then (clock x).2 else x
  | .delete => x

variable {access : EntityAccess σ ε} {hook : Hook} {m : Metamodel} {read : String → Option Value}
  {now : Timestamp} {operation : Mutation} {c : Column} {entity : ε}

section
variable {path : String} {value : Value} {state after : σ}

theorem assign_of_write {given : ε}
    (h : write access path value entity state = (.ok given, after)) :
    access.assign path value entity state = (.ok given, after) := by
  obtain ⟨hanswer, hafter⟩ := Prod.ext_iff.mp h
  exact Prod.ext (Except.mapError_eq_ok_iff.mp hanswer) hafter

/-- The text of a refusal is all that a hook tells of it. -/
theorem exists_refusal_of_write {text : String}
    (h : write access path value entity state = (.error text, after)) :
    ∃ error, access.assign path value entity state = (.error error, after) ∧
      text = error.message := by
  have hwrite : write access path value entity state =
      ((access.assign path value entity state).1.mapError AssignError.message,
        (access.assign path value entity state).2) := rfl
  rw [hwrite] at h
  match hassign : access.assign path value entity state with
  | (.ok given, later) =>
    rw [hassign] at h
    cases h
  | (.error error, later) =>
    rw [hassign] at h
    cases h
    exact ⟨error, rfl, rfl⟩

end

private theorem time_mem_auditEntries (hc : c ∈ m.stamped operation) :
    (c.path, .timestamp now) ∈ auditEntries m now read operation :=
  List.mem_append_left _ (List.mem_map_of_mem hc)

private theorem version_mem_auditEntries (hc : c ∈ m.initialized operation) {value : Value}
    (hvalue : firstVersion? (read c.path) = some value) :
    (c.path, value) ∈ auditEntries m now read operation := by
  refine List.mem_append_right _ (List.mem_filterMap.mpr ⟨c, Option.mem_toList.mpr hc, ?_⟩)
  rw [hvalue, Option.map_some]

private theorem paths_versionEntries_sublist (read : String → Option Value)
    (column : Option Column) :
    ((versionEntries read column).map Prod.fst).Sublist (column.toList.map (·.path)) := by
  cases column with
  | none => exact List.Sublist.refl _
  | some c =>
    cases hversion : firstVersion? (read c.path) with
    | none => simp [versionEntries, hversion]
    | some value => simp [versionEntries, hversion]

private theorem versionEntries_congr {read other : String → Option Value} {column : Option Column}
    (h : ∀ c ∈ column.toList, read c.path = other c.path) :
    versionEntries read column = versionEntries other column :=
  List.filterMap_congr fun c hc => by rw [h c hc]

private theorem timeEntries_append (now : Timestamp) (left right : List Column) :
    timeEntries now (left ++ right) = timeEntries now left ++ timeEntries now right :=
  List.map_append

private theorem paths_timeEntries (now : Timestamp) (columns : List Column) :
    (timeEntries now columns).map Prod.fst = columns.map (·.path) := by
  rw [timeEntries, List.map_map]
  rfl

private theorem paths_auditEntries_sublist :
    ((auditEntries m now read operation).map Prod.fst).Sublist
      ((m.audited operation).map (·.path)) := by
  rw [auditEntries, Metamodel.audited, List.map_append, List.map_append, paths_timeEntries]
  exact (List.Sublist.refl _).append (paths_versionEntries_sublist read _)

/-! Parts of the audit as chains of writes. -/

theorem stamp_eq_chain (hook : Hook) (m : Metamodel) (column : Option Column) (entity : ε) :
    stamp access now column entity =
      (chain ((timeEntries now column.toList).map (writing access))).run hook m entity := by
  cases column with
  | none => rfl
  | some c => simp [stamp, timeEntries, writing]

theorem initVersion_eq_chain (hook : Hook) (m : Metamodel) (column : Option Column) (entity : ε) :
    initVersion access column entity =
      (chain ((versionEntries (access.read entity) column).map (writing access))).run hook m
        entity := by
  cases column with
  | none => rfl
  | some c =>
    cases hread : access.read entity c.path with
    | none => simp [initVersion, versionEntries, firstVersion?, writing, hread]
    | some current =>
      by_cases hnull : current.isNull
      · simp [initVersion, versionEntries, firstVersion?, writing, hread, hnull]
      · simp [initVersion, versionEntries, firstVersion?, hread, hnull]

end Listener

/-! Writes in turn. -/

namespace Registered

open Listener (writing)

variable {σ ε : Type} {access : EntityAccess σ ε} {hook : Hook} {m : Metamodel} {entity : ε}
  {state after : σ} {entries : List (String × Value)} {calls : List (HookCall (String × Value) ε)}

/-- Where all writes are accepted, all values are there to read, and nothing else changes. -/
theorem InTurn.written {given : ε} (hfaithful : access.FaithfulFor entries)
    (h : InTurn (writing access) hook m entries entity state calls (.ok given) after)
    (hpaths : (entries.map Prod.fst).Nodup) :
    (∀ entry ∈ entries, access.read given entry.1 = some entry.2) ∧
      ∀ path ∉ entries.map Prod.fst, access.read given path = access.read entity path := by
  generalize hanswer : Except.ok given = answer at h
  induction h with
  | none =>
    cases hanswer
    simp
  | fail => cases hanswer
  | @next entry rest entity between _ _ _ _ _ hrun _ ih =>
    rw [List.map_cons, List.nodup_cons] at hpaths
    obtain ⟨hread, hkept⟩ := ih (hfaithful.mono (List.subset_cons_self ..)) hpaths.2 hanswer
    have hwrite : access.Faithful entry.1 entry.2 entity between :=
      hfaithful _ List.mem_cons_self _ _ _ _ (Listener.assign_of_write hrun)
    refine ⟨List.forall_mem_cons.mpr ⟨?_, hread⟩, ?_⟩
    · rw [hkept _ hpaths.1, hwrite.read_self]
    · intro path hpath
      rw [List.map_cons, List.mem_cons, not_or] at hpath
      rw [hkept path hpath.2, hwrite.read_of_ne path hpath.1]

end Registered

namespace Listener

variable {σ ε : Type} {access : EntityAccess σ ε} {clock : StateM σ Timestamp} {m : Metamodel}

theorem run_audit_insert (entity : ε) (x : σ) :
    (audit access clock).run (.before .insert) m entity x =
      ((chain ((timeEntries (clock x).1 (m.stamped .insert)).map (writing access))).run
        (.before .insert) m entity >>= initVersion access m.version) (clock x).2 := by
  have hupdated : (chain ((timeEntries (clock x).1 m.updatedAt.toList).map (writing access))).run
      (.before .insert) m = stamp access (clock x).1 m.updatedAt :=
    funext fun created => (stamp_eq_chain _ m _ created).symm
  rw [Metamodel.stamped, timeEntries_append, List.map_append, run_chain_append, hupdated,
    ← stamp_eq_chain, bind_assoc]
  rfl

theorem run_audit_update (entity : ε) (x : σ) :
    (audit access clock).run (.before .update) m entity x =
      stamp access (clock x).1 m.updatedAt entity (afterReading clock m x .update) := by
  cases hcolumn : m.updatedAt with
  | none => simp [audit, stamp, afterReading, hcolumn]
  | some c =>
    simp only [audit, stamp, afterReading, hcolumn, Option.isSome_some, if_true]
    rfl

/-- An audit is a chain of single writes, and all of them are known once the clock is read. -/
theorem run_audit (hcompatible : m.columns.Pairwise Column.Compatible)
    (hapart : (m.audited .insert).Nodup) (operation : Mutation) (entity : ε) (x : σ)
    (hfaithful :
      access.FaithfulFor (auditEntries m (clock x).1 (access.read entity) operation)) :
    (audit access clock).run (.before operation) m entity x =
      (chain ((auditEntries m (clock x).1 (access.read entity) operation).map
        (writing access))).run (.before operation) m entity (afterReading clock m x operation) := by
  cases operation with
  | insert =>
    have hpaths : ((m.audited .insert).map (·.path)).Nodup :=
      Metamodel.nodup_paths_audited hcompatible hapart
    have htimes : ((timeEntries (clock x).1 (m.stamped .insert)).map Prod.fst).Nodup := by
      rw [paths_timeEntries]
      exact hpaths.sublist ((List.sublist_append_left ..).map _)
    obtain ⟨calls, answer, after, hturn⟩ := Registered.exists_inTurn (writing access)
      (.before .insert) m (timeEntries (clock x).1 (m.stamped .insert)) entity (clock x).2
    rw [run_audit_insert, auditEntries, List.map_append, run_chain_append, afterReading,
      Attempt.bind_apply, Attempt.bind_apply, hturn.run]
    cases answer with
    | error text => rfl
    | ok stamped =>
      have hversion : versionEntries (access.read stamped) m.version =
          versionEntries (access.read entity) m.version := by
        have htimely := hfaithful.mono (List.subset_append_left ..)
        refine versionEntries_congr fun c hc => (hturn.written htimely htimes).2 c.path ?_
        rw [paths_timeEntries]
        exact Metamodel.path_not_mem_stamped hpaths (Option.mem_toList.mp hc)
      change initVersion access m.version stamped after = _
      rw [initVersion_eq_chain (.before .insert) m, hversion]
      rfl
  | update =>
    have hentries : auditEntries m (clock x).1 (access.read entity) .update =
        timeEntries (clock x).1 m.updatedAt.toList := List.append_nil _
    rw [run_audit_update, hentries, ← stamp_eq_chain]
  | delete => rfl

/-- What an audit leaves of an entity: the time in the columns for it, a version that is not null,
and all else as it was. -/
structure Audited (read : ε → String → Option Value) (times : List Column) (version : Option Column)
    (now : Timestamp) (before after : ε) : Prop where
  time : ∀ c ∈ times, read after c.path = some (.timestamp now)
  missing : ∀ c ∈ version, read before c.path = none → read after c.path = some (.bigInt 0)
  null : ∀ c ∈ version, ∀ current, read before c.path = some current → current.isNull = true →
    read after c.path = some ⟨.int 0, current.type⟩
  present : ∀ c ∈ version, ∀ current, read before c.path = some current → current.isNull = false →
    read after c.path = some current
  kept : ∀ path, path ∉ times.map (·.path) → path ∉ version.toList.map (·.path) →
    read after path = read before path

theorem audited_of_written {operation : Mutation} {now : Timestamp} {entity prepared : ε}
    (hpaths : ((m.audited operation).map (·.path)).Nodup)
    (hread : ∀ entry ∈ auditEntries m now (access.read entity) operation,
      access.read prepared entry.1 = some entry.2)
    (hkept : ∀ path ∉ (auditEntries m now (access.read entity) operation).map Prod.fst,
      access.read prepared path = access.read entity path) :
    Audited access.read (m.stamped operation) (m.initialized operation) now entity prepared where
  time c hc := hread _ (time_mem_auditEntries hc)
  missing c hc hmissing := hread _ (version_mem_auditEntries hc (by rw [hmissing]; rfl))
  null c hc current hcurrent hnull :=
    hread _ (version_mem_auditEntries hc (by rw [hcurrent, firstVersion?, if_pos hnull]))
  present c hc current hcurrent hnull := by
    have hversion : versionEntries (access.read entity) (m.initialized operation) = [] := by
      rw [Option.mem_def.mp hc]
      simp [versionEntries, hcurrent, firstVersion?, hnull]
    rw [hkept c.path ?_, hcurrent]
    rw [auditEntries, hversion, List.append_nil, paths_timeEntries]
    exact Metamodel.path_not_mem_stamped hpaths hc
  kept path htimes hversion := by
    refine hkept path fun hpath => ?_
    have haudited := paths_auditEntries_sublist.subset hpath
    rw [Metamodel.audited, List.map_append] at haudited
    exact (List.mem_append.mp haudited).elim htimes hversion

end Listener

namespace Parties

open Listener Registered

variable {σ ε : Type}

theorem mutate_of_hook_error (p : Parties σ ε) {operation : Mutation} {entity : ε}
    {state : SessionState σ} {found : Registry.Lookup} {text : String} {after : σ}
    (hfound : state.registry.lookup p.type = .ok found)
    (hhook : p.listener.run (.before operation) found.metamodel entity
      (p.session.notified found state.surroundings) = (.error text, after)) :
    p.mutate operation entity state = (.error (.hook text),
        { state with registry := found.registry, surroundings := after }) ∧
      p.trace (p.course operation entity) state = [⟨.lookup, .ok found.metamodel⟩,
        ⟨.hook (.before operation) found.metamodel entity, .error (.hook text)⟩] := by
  have hlookup : p.perform .lookup state = _ := p.session.metamodel_of_lookup hfound
  have hperform : p.perform (.hook (.before operation) found.metamodel entity) { state with
      registry := found.registry
      surroundings := p.session.notified found state.surroundings } = (.error (.hook text),
        { state with registry := found.registry, surroundings := after }) := by
    simp only [perform, Operation.attempt, hhook]
    rfl
  constructor
  · rw [mutate_eq_run, course, Course.ofMutation, run_step, Attempt.bind_of_ok hlookup,
      Course.prepare, run_step, Attempt.bind_apply, hperform]
  · rw [course, Course.ofMutation, trace, hlookup]
    simp only [Course.prepare, trace, hperform]

/-- Before an operation an audit writes one value after the other, from one reading of the clock. If
all are accepted, the times and a first version are in place and the entity is otherwise unchanged.
If one is refused, none is tried after it, its text is the failure of the hook, and the operation
fails with nothing executed. -/
theorem audit_before_operation (p : Parties σ ε) {clock : StateM σ Timestamp}
    (hlistener : p.listener = .audit p.access clock) {descriptor : Descriptor} {m : Metamodel}
    (haccepted : Metamodel.ofDescriptor descriptor = .ok m)
    (hapart : (m.createdAt.toList ++ m.updatedAt.toList ++ m.version.toList).Nodup)
    (operation : Mutation) (entity : ε) (x : σ)
    (hfaithful :
      p.access.FaithfulFor (auditEntries m (clock x).1 (p.access.read entity) operation)) :
    let hook := Hook.before operation
    let now := (clock x).1
    let entries := auditEntries m now (p.access.read entity) operation
    let start := afterReading clock m x operation
    ∃ calls answer after,
      InTurn (writing p.access) hook m entries entity start calls answer after ∧
      p.listener.run hook m entity x = (answer, after) ∧
      (∀ prepared, answer = .ok prepared →
        Audited p.access.read (m.stamped operation) (m.initialized operation) now entity prepared) ∧
      ∀ text, answer = .error text →
        (∃ accepted path value rest earlier given between error,
          entries = accepted ++ (path, value) :: rest ∧
          InTurn (writing p.access) hook m accepted entity start earlier (.ok given) between ∧
          p.access.assign path value given between = (.error error, after) ∧
          text = error.message ∧
          calls = earlier ++ [⟨(path, value), hook, given, .error text⟩]) ∧
        ∀ state found, state.registry.lookup p.type = .ok found → found.metamodel = m →
          p.session.notified found state.surroundings = x →
          p.mutate operation entity state = (.error (.hook text),
            { state with registry := found.registry, surroundings := after }) ∧
          ∀ step ∈ p.trace (p.course operation entity) state, step.ask.kind ≠ .execute := by
  intro hook now entries start
  have hcompatible := Metamodel.compatible_of_ofDescriptor haccepted
  have hpaths : ((m.audited operation).map (·.path)).Nodup :=
    Metamodel.nodup_paths_audited hcompatible hapart
  obtain ⟨calls, answer, after, hturn⟩ :=
    exists_inTurn (writing p.access) hook m entries entity start
  have hrun : p.listener.run hook m entity x = (answer, after) := by
    rw [hlistener, run_audit hcompatible hapart operation entity x hfaithful]
    exact hturn.run
  refine ⟨calls, answer, after, hturn, hrun, ?_, ?_⟩
  · rintro prepared rfl
    obtain ⟨hread, hkept⟩ := hturn.written hfaithful (hpaths.sublist paths_auditEntries_sublist)
    exact audited_of_written hpaths hread hkept
  · rintro text rfl
    constructor
    · obtain ⟨accepted, ⟨path, value⟩, rest, earlier, given, between, hentries, haccepted, hlast,
        hcalls⟩ := hturn.exists_last
      obtain ⟨error, hassign, htext⟩ := exists_refusal_of_write hlast
      exact ⟨accepted, path, value, rest, earlier, given, between, error, hentries, haccepted,
        hassign, htext, hcalls⟩
    · rintro state found hfound rfl rfl
      obtain ⟨hmutate, htrace⟩ := p.mutate_of_hook_error hfound hrun
      refine ⟨hmutate, ?_⟩
      rw [htrace]
      simp [Ask.kind]

end Parties

def letter : EntityType where
  key := 0
  descriptor := {
    name := "Letter"
    members := [
      .property "no" [.id], .property "text" [],
      .embedded "trail" {
        name := "Trail"
        members := [.property "made" [.createdAt], .property "changed" [.updatedAt]] },
      .property "edition" [.version]] }

def trailColumn (name : String) : Column := ⟨name, name, name, false, none⟩

def letters : Metamodel where
  entity := "Letter"
  table := { name := "Letter" }
  columns := [
    ⟨"no", "no", "no", false, none⟩, ⟨"text", "text", "text", false, none⟩,
    (trailColumn "made").under "trail", (trailColumn "changed").under "trail",
    ⟨"edition", "edition", "edition", false, none⟩]
  slots := { ids := [0], version := some 4, createdAt := some 2, updatedAt := some 3 }
  identifierLess := false
  embedded := [("trail", {
    entity := "Trail"
    table := { name := "Trail" }
    columns := [trailColumn "made", trailColumn "changed"]
    slots := { createdAt := some 0, updatedAt := some 1 }
    identifierLess := true
    embedded := [] })]

def letterParties : Parties Stage Record where
  session := register
  type := letter
  access := Record.access
  listener := .audit Record.access (Stage.readClock 0)
  executor := Stage.executor

def noon : Timestamp := ⟨Timestamp.epoch.date, (TimeOfDay.ofParts? 12 0 0 0).get rfl⟩

/-- A second reading of the clock would show. -/
def atDesk : SessionState Stage := { surroundings := { clocks := [[noon, .epoch]] } }

def newLetter : Record where
  values := [("no", .bigInt 1), ("text", .text "Dear reader"), ("edition", .null .integer)]

def stampedLetter : Record where
  values := [
    ("no", .bigInt 1), ("text", .text "Dear reader"), ("edition", ⟨.int 0, .integer⟩),
    ("trail.made", .timestamp noon), ("trail.changed", .timestamp noon)]

/-- Only the time of its creation may be written. -/
def sealedLetter : Record := { newLetter with writable := some [("trail.made", none)] }

theorem letters_audited :
    Metamodel.ofDescriptor letter.descriptor = .ok letters ∧
    (letters.createdAt.toList ++ letters.updatedAt.toList ++ letters.version.toList).Nodup ∧
    (∀ entries, letterParties.access.FaithfulFor entries) ∧
    (∃ prepared after,
      letterParties.listener.run (.before .insert) letters newLetter atDesk.surroundings =
        (.ok prepared, after) ∧
      prepared.read "trail.made" = some (.timestamp noon) ∧
      prepared.read "trail.changed" = some (.timestamp noon) ∧
      prepared.read "edition" = some ⟨.int 0, .integer⟩ ∧
      prepared.read "text" = some (.text "Dear reader")) ∧
    (letterParties.mutate .insert sealedLetter atDesk).1 =
      .error (.hook "property `trail.changed` cannot be assigned") ∧
    ∀ step ∈ letterParties.trace (letterParties.course .insert sealedLetter) atDesk,
      step.ask.kind ≠ .execute := by
  have haccepted : Metamodel.ofDescriptor letter.descriptor = .ok letters := rfl
  have hapart : (letters.createdAt.toList ++ letters.updatedAt.toList ++
      letters.version.toList).Nodup := by decide
  have hfaithful : ∀ entries, letterParties.access.FaithfulFor entries := Record.faithfulFor
  refine ⟨haccepted, hapart, hfaithful, ?_, ?_⟩
  · obtain ⟨calls, answer, after, -, hrun, haudited, -⟩ := letterParties.audit_before_operation rfl
      haccepted hapart .insert newLetter atDesk.surroundings (hfaithful _)
    have hanswer : answer = .ok stampedLetter := (congrArg Prod.fst hrun).symm
    have hstamped := haudited stampedLetter hanswer
    have hnull : (Value.null .integer).isNull = true := rfl
    exact ⟨stampedLetter, after, hanswer ▸ hrun, hstamped.time _ (.head _),
      hstamped.time _ (.tail _ (.head _)), hstamped.null _ rfl _ rfl hnull,
      hstamped.kept "text" (by decide) (by decide)⟩
  · obtain ⟨calls, answer, after, -, hrun, -, hrefused⟩ := letterParties.audit_before_operation rfl
      haccepted hapart .insert sealedLetter atDesk.surroundings (hfaithful _)
    have hanswer : answer = .error "property `trail.changed` cannot be assigned" :=
      (congrArg Prod.fst hrun).symm
    obtain ⟨hmutate, hexecutes⟩ := (hrefused _ hanswer).2 atDesk
      ⟨letters, ⟨[(0, letters)]⟩, true⟩ rfl rfl rfl
    exact ⟨congrArg Prod.fst hmutate, hexecutes⟩

end EntitySql
