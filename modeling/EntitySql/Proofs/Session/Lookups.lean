import EntitySql.Proofs.Metamodel.Registry
import EntitySql.Proofs.Session.Aside
import EntitySql.Proofs.Session.Logging

/-!
Sessions that share a registry. Whatever a session is asked for, it looks up one metamodel at most,
and has no other use for the registry. So in whatever order sessions take their turns, the registry
stands for the types that were looked up in them, and each of these was built once.
-/

namespace EntitySql

namespace Rendering

open Operation

variable {σ : Type} {s : Session σ} {heard : σ → List Diagnostic} {r : Rendering}

/-- The type whose metamodel is looked up, which is none if the criteria are refused before. -/
def inquired? : Rendering → Option EntityType
  | compile _ => none
  | select type declared | count type declared | updateWhere type _ declared
  | deleteWhere type declared => (Criteria.build declared).toOption.map fun _ => type

theorem perform_cases (s : Session σ) (r : Rendering) :
    (∃ q, r = compile q) ∨ ∃ type declared, ∃ query : Criteria → Metamodel → Query,
      r.inquired? = (Criteria.build declared).toOption.map (fun _ => type) ∧
        r.perform s = ofExcept .criteria (Criteria.build declared) >>= fun criteria =>
          s.metamodel type >>= fun m => s.compile (query criteria m) := by
  cases r with
  | compile q => exact .inl ⟨q, rfl⟩
  | select type declared =>
    exact .inr ⟨type, declared, fun criteria target => .select { target, criteria }, rfl, rfl⟩
  | count type declared =>
    exact .inr ⟨type, declared,
      fun criteria target => .select { target, criteria, projection := .count }, rfl, rfl⟩
  | updateWhere type assignments declared =>
    exact .inr ⟨type, declared, fun criteria target => .update
      { target, assignments, criteria, allowMissingWhere := s.config.allowMissingWhere }, rfl, rfl⟩
  | deleteWhere type declared =>
    exact .inr ⟨type, declared, fun criteria target => .delete
      { target, criteria, allowMissingWhere := s.config.allowMissingWhere }, rfl, rfl⟩

theorem aside_perform (h : s.Reticent heard) (hr : r.inquired? = none) :
    Aside heard (r.perform s) := by
  rcases r.perform_cases s with ⟨q, rfl⟩ | ⟨type, declared, query, htype, hperform⟩
  · exact h.aside_compile q
  · rw [hperform]
    rw [htype] at hr
    cases hbuild : Criteria.build declared with
    | error e => exact aside_ofExcept .criteria (.error e)
    | ok criteria =>
      rw [hbuild] at hr
      cases hr

private theorem exists_query {type : EntityType} (s : Session σ) (hr : r.inquired? = some type) :
    ∃ query : Metamodel → Query,
      r.perform s = s.metamodel type >>= fun m => s.compile (query m) := by
  rcases r.perform_cases s with ⟨q, rfl⟩ | ⟨type, declared, query, htype, hperform⟩
  · cases hr
  · rw [htype] at hr
    rw [hperform]
    cases hbuild : Criteria.build declared with
    | error e =>
      rw [hbuild] at hr
      cases hr
    | ok criteria =>
      rw [hbuild] at hr
      cases hr
      exact ⟨query criteria, rfl⟩

end Rendering

namespace Session

open Operation

variable {σ : Type} {s : Session σ} {heard : σ → List Diagnostic} {type : EntityType}

theorem metamodel_bind_apply {α : Type} (s : Session σ) (type : EntityType)
    (f : Metamodel → Operation σ α) (state : SessionState σ) :
    (s.metamodel type >>= f) state =
      match state.registry.lookup type with
      | .ok found => f found.metamodel { state with
          registry := found.registry
          surroundings := s.notified found state.surroundings }
      | .error e => (.error (.metamodel e), state) := by
  match hlookup : state.registry.lookup type with
  | .ok found => exact Attempt.bind_of_ok (s.metamodel_of_lookup hlookup)
  | .error e => rw [Attempt.bind_apply, s.metamodel_of_lookup_error hlookup]

theorem metamodel_result (s : Session σ) (type : EntityType) (state : SessionState σ) :
    (s.metamodel type state).1 =
      ((state.registry.lookup type).map (·.metamodel)).mapError .metamodel := by
  cases hlookup : state.registry.lookup type with
  | ok found =>
    rw [s.metamodel_of_lookup hlookup]
    rfl
  | error e =>
    rw [s.metamodel_of_lookup_error hlookup]
    rfl

def Request.inquired? : Request σ → Option EntityType
  | lookup type => some type
  | render r => r.inquired?
  | change c => some c.type

def Request.refusal (e : QueryError) : Request σ → Reply
  | lookup _ => .metamodel (.error e)
  | render _ => .statement (.error e)
  | change c => .entity (.error e : Except QueryError c.Entity)

/-- The request comes to a lookup of the type. If there is a metamodel the request goes on with it,
and if there is none that is all. -/
def Request.LooksUp (s : Session σ) (r : Request σ) (type : EntityType)
    (GoesOn : (SessionState σ → Reply × SessionState σ) → Prop) : Prop :=
  ∃ resume : Metamodel → SessionState σ → Reply × SessionState σ, (∀ m, GoesOn (resume m)) ∧
    ∀ state, r.perform s state =
      match state.registry.lookup type with
      | .ok found => resume found.metamodel { state with
          registry := found.registry
          surroundings := s.notified found state.surroundings }
      | .error e => (r.refusal (.metamodel e), state)

namespace Request

variable {r : Request σ}

theorem aside_perform (h : s.Reticent heard) (hr : r.inquired? = none) :
    Aside heard (r.perform s) := by
  cases r with
  | lookup type => cases hr
  | render r => exact (r.aside_perform h hr).map Reply.statement
  | change c => cases hr

theorem looksUp_of_bind {α : Type} {f : Metamodel → Operation σ α}
    (reply : Except QueryError α → Reply) (hf : ∀ m, Aside heard (f m))
    (hperform : ∀ state, r.perform s state =
      (reply ((s.metamodel type >>= f) state).1, ((s.metamodel type >>= f) state).2))
    (hrefusal : ∀ e, r.refusal e = reply (.error e)) : r.LooksUp s type (Aside heard) := by
  refine ⟨_, fun m => (hf m).map reply, fun state => ?_⟩
  rw [hperform, metamodel_bind_apply]
  cases state.registry.lookup type with
  | ok found => rfl
  | error e => exact Prod.ext (hrefusal _).symm rfl

theorem looksUp (hs : s.Reticent heard)
    (hc : ∀ c, r = .change c → (c.parties s).Reticent heard) (hr : r.inquired? = some type) :
    r.LooksUp s type (Aside heard) := by
  cases r with
  | lookup type =>
    cases hr
    refine looksUp_of_bind .metamodel aside_pure (fun state => ?_) fun _ => rfl
    rw [bind_pure]
    rfl
  | render r =>
    obtain ⟨query, hquery⟩ := r.exists_query s hr
    refine looksUp_of_bind .statement (fun m => hs.aside_compile (query m)) (fun state => ?_)
      fun _ => rfl
    rw [← hquery]
    rfl
  | change c =>
    cases hr
    have hprepare := (hc c rfl).aside_prepare s.config.logStatements c.access.read c.operation
      c.entity
    refine looksUp_of_bind .entity hprepare (fun state => ?_) fun _ => rfl
    rw [perform, Parties.mutate_eq_run]
    rfl

/-! Where it does not matter whether anything is heard. -/

theorem blind_perform (hr : r.inquired? = none) : Blind (r.perform s) :=
  (aside_perform (s.reticent_const []) hr).blind

private theorem looksUp_const (silence : List Diagnostic) (hr : r.inquired? = some type) :
    r.LooksUp s type (Aside fun _ => silence) :=
  looksUp (s.reticent_const silence) (fun c _ => (c.parties s).reticent_const silence) hr

end Request

/-- The session reports each metamodel that is built for it, and nothing else is heard of it. -/
structure Reports (s : Session σ) (heard : σ → List Diagnostic) : Prop extends
    s.Reticent heard where
  built : ∀ m x, heard (s.subscriber.debug (.built m) x).2 = heard x ++ [.built m]

end Session

/-- What sessions have in common, and the allocator that each has for itself. -/
structure SharedState (ι σ : Type) where
  registry : Registry := {}
  allocators : ι → Allocator := fun _ => {}
  surroundings : σ

structure Turn (ι σ : Type) where
  session : ι
  request : Session.Request σ

section

variable {ι σ : Type} {heard : σ → List Diagnostic} {w w' w'' : SharedState ι σ}

/-- The entries that have been added are what has been heard of. -/
def SharedState.Grows (heard : σ → List Diagnostic) (w w' : SharedState ι σ) : Prop :=
  ∃ new : List (Nat × Metamodel), w'.registry.entries = w.registry.entries ++ new ∧
    heard w'.surroundings = heard w.surroundings ++ new.map fun entry => .built entry.2

theorem SharedState.grows_of_eq (hregistry : w'.registry = w.registry)
    (hheard : heard w'.surroundings = heard w.surroundings) : w.Grows heard w' :=
  ⟨[], by rw [hregistry, List.append_nil], by rw [hheard, List.map_nil, List.append_nil]⟩

theorem SharedState.Grows.trans (h : w.Grows heard w') (h' : w'.Grows heard w'') :
    w.Grows heard w'' := by
  obtain ⟨new, hentries, hheard⟩ := h
  obtain ⟨new', hentries', hheard'⟩ := h'
  refine ⟨new ++ new', ?_, ?_⟩
  · rw [hentries', hentries, List.append_assoc]
  · rw [hheard', hheard, List.map_append, List.append_assoc]

end

variable {ι σ : Type} [DecidableEq ι]

namespace Turn

def inquired? (t : Turn ι σ) : Option EntityType := t.request.inquired?

def take (sessions : ι → Session σ) (t : Turn ι σ) (w : SharedState ι σ) :
    Session.Reply × SharedState ι σ :=
  let (reply, after) := t.request.perform (sessions t.session)
    ⟨w.registry, w.allocators t.session, w.surroundings⟩
  (reply, ⟨after.registry, Function.update w.allocators t.session after.allocator,
    after.surroundings⟩)

end Turn

def SharedState.after (sessions : ι → Session σ) (w : SharedState ι σ) (turns : List (Turn ι σ)) :
    SharedState ι σ :=
  turns.foldl (fun between t => (t.take sessions between).2) w

variable {sessions : ι → Session σ} {w w' w'' : SharedState ι σ} {t : Turn ι σ}
  {turns : List (Turn ι σ)} {heard : σ → List Diagnostic} {type : EntityType}

namespace Turn

private theorem take_of_error {GoesOn : (SessionState σ → Session.Reply × SessionState σ) → Prop}
    (h : t.request.LooksUp (sessions t.session) type GoesOn) {e : MetamodelError}
    (hlookup : w.registry.lookup type = .error e) :
    t.take sessions w = (t.request.refusal (.metamodel e), w) := by
  obtain ⟨resume, -, hperform⟩ := h
  unfold take
  rw [hperform, hlookup]
  dsimp only
  rw [Function.update_eq_self]

/-- The surroundings after a turn are those that a lookup leaves, as far as anything is heard. -/
private theorem take_of_ok (h : t.request.LooksUp (sessions t.session) type (Aside heard))
    {found : Registry.Lookup} (hlookup : w.registry.lookup type = .ok found) :
    (t.take sessions w).2.registry = found.registry ∧
      heard (t.take sessions w).2.surroundings =
        heard ((sessions t.session).notified found w.surroundings) := by
  obtain ⟨resume, haside, hperform⟩ := h
  unfold take
  rw [hperform, hlookup]
  exact ⟨(haside found.metamodel).blind.registry_eq _, (haside found.metamodel).quiet _⟩

theorem registry_take (sessions : ι → Session σ) (t : Turn ι σ) (w : SharedState ι σ) :
    (t.take sessions w).2.registry = t.inquired?.elim w.registry w.registry.consult := by
  cases hinquired : t.inquired? with
  | none => exact (Session.Request.blind_perform hinquired).registry_eq _
  | some type =>
    have hlooksUp : t.request.LooksUp (sessions t.session) type (Aside fun _ => []) :=
      Session.Request.looksUp_const [] hinquired
    rw [Option.elim_some, Registry.consult]
    cases hlookup : w.registry.lookup type with
    | error e => rw [take_of_error hlooksUp hlookup]
    | ok found => exact (take_of_ok hlooksUp hlookup).1

end Turn

namespace SharedState

theorem registry_after (sessions : ι → Session σ) (w : SharedState ι σ) (turns : List (Turn ι σ)) :
    (w.after sessions turns).registry =
      (turns.filterMap Turn.inquired?).foldl Registry.consult w.registry := by
  induction turns generalizing w with
  | nil => rfl
  | cons t rest ih =>
    have hrest := ih (t.take sessions w).2
    rw [t.registry_take] at hrest
    cases hinquired : t.inquired? with
    | none =>
      rw [List.filterMap_cons_none hinquired]
      rwa [hinquired] at hrest
    | some type =>
      rw [List.filterMap_cons_some hinquired]
      rwa [hinquired] at hrest

theorem entries_prefix_after (sessions : ι → Session σ) (w : SharedState ι σ)
    (turns : List (Turn ι σ)) :
    w.registry.entries <+: (w.after sessions turns).registry.entries := by
  rw [registry_after sessions w turns]
  exact w.registry.entries_prefix_foldl_consult _

theorem after_append (sessions : ι → Session σ) (w : SharedState ι σ)
    (past later : List (Turn ι σ)) :
    w.after sessions (past ++ later) = (w.after sessions past).after sessions later :=
  List.foldl_append

theorem grows_take (hs : (sessions t.session).Reports heard)
    (hc : ∀ c, t.request = .change c → (c.parties (sessions t.session)).Reticent heard)
    (w : SharedState ι σ) : w.Grows heard (t.take sessions w).2 := by
  cases hinquired : t.inquired? with
  | none =>
    have haside := Session.Request.aside_perform hs.toReticent hinquired
    exact grows_of_eq (haside.blind.registry_eq _) (haside.quiet _)
  | some type =>
    have hlooksUp := Session.Request.looksUp hs.toReticent hc hinquired
    rcases w.registry.lookup_cases type with ⟨m, -, hlookup⟩ | ⟨m, -, -, hlookup⟩ |
      ⟨e, -, -, hlookup⟩
    · obtain ⟨hregistry, hheard⟩ := Turn.take_of_ok hlooksUp hlookup
      exact grows_of_eq hregistry hheard
    · obtain ⟨hregistry, hheard⟩ := Turn.take_of_ok hlooksUp hlookup
      exact ⟨[(type.key, m)], by rw [hregistry], hheard.trans (hs.built m w.surroundings)⟩
    · rw [Turn.take_of_error hlooksUp hlookup]
      exact grows_of_eq rfl rfl

theorem grows_after (hs : ∀ t ∈ turns, (sessions t.session).Reports heard)
    (hc : ∀ t ∈ turns, ∀ c, t.request = .change c →
      (c.parties (sessions t.session)).Reticent heard) (w : SharedState ι σ) :
    w.Grows heard (w.after sessions turns) := by
  induction turns generalizing w with
  | nil => exact grows_of_eq rfl rfl
  | cons t rest ih =>
    rw [List.forall_mem_cons] at hs hc
    exact (grows_take hs.1 hc.1 w).trans (ih hs.2 hc.2 _)

end SharedState

open EntityType

/-- What a turn in which a type is looked up comes to, after others have been. -/
structure Turn.Consults (sessions : ι → Session σ) (seen : List EntityType) (now : SharedState ι σ)
    (t : Turn ι σ) (type : EntityType) : Prop where
  looksUp : t.request.LooksUp (sessions t.session) type Blind
  answer : (now.registry.lookup type).map (·.metamodel) = Metamodel.ofDescriptor type.descriptor
  known : type.key ∈ seen.filterMap acceptedKey? → ∃ m, now.registry.find? type.key = some m ∧
    now.registry.lookup type = .ok ⟨m, now.registry, false⟩
  added : type.key ∉ seen.filterMap acceptedKey? →
    ∀ m, Metamodel.ofDescriptor type.descriptor = .ok m →
      now.registry.lookup type = .ok ⟨m, ⟨now.registry.entries ++ [(type.key, m)]⟩, true⟩
  registry : (t.take sessions now).2.registry = now.registry.consult type
  reply : t.request = .lookup type → (t.take sessions now).1 =
    .metamodel ((Metamodel.ofDescriptor type.descriptor).mapError .metamodel)
  failed : ∀ e, Metamodel.ofDescriptor type.descriptor = .error e →
    t.take sessions now = (t.request.refusal (.metamodel e), now)

theorem Turn.consults {seen : List EntityType} {now : SharedState ι σ}
    (hreflects : now.registry.Reflects seen) (hsteady : Steady (seen ++ [type]))
    (htype : t.inquired? = some type) : t.Consults sessions seen now type := by
  have hlooksUp : t.request.LooksUp (sessions t.session) type (Aside fun _ => []) :=
    Session.Request.looksUp_const [] htype
  have hanswer := hreflects.metamodel_lookup hsteady
  exact {
    looksUp := by
      obtain ⟨resume, haside, hperform⟩ := hlooksUp
      exact ⟨resume, fun m => (haside m).blind, hperform⟩
    answer := hanswer
    known := fun hkey => by
      obtain ⟨m, hfind⟩ := hreflects.exists_find?_eq_some hkey
      exact ⟨m, hfind, Registry.lookup_of_find?_eq_some hfind⟩
    added := fun hkey m hm => by
      rw [Registry.lookup_of_find?_eq_none (hreflects.find?_eq_none hkey), hm]
      rfl
    registry := by
      rw [t.registry_take, htype, Option.elim_some]
    reply := fun hrequest => by
      rw [← hanswer, take, hrequest]
      exact congrArg Session.Reply.metamodel (Session.metamodel_result ..)
    failed := fun e he =>
      take_of_error hlooksUp (Except.map_eq_error_iff.mp (hanswer.trans he)) }

/-- Several sessions share a registry that is empty at first, and are asked for anything, in any
order, of types that do not change what they declare. After any turns the registry has one entry
for each type that was looked up and can be built, as it is built from its descriptor. In each turn
nothing has to do with the registry but one lookup, if there is any. It gives what the descriptor of
the type comes to, whether it is built now or was there; it adds an entry only if the type has not
been looked up with success before; and this entry is there to the end. If there is no metamodel the
turn fails with the error of the descriptor, and nothing has changed. Wherever all that is built is
reported, one report is heard for each entry. -/
theorem lookups_as_built (sessions : ι → Session σ) {start : SharedState ι σ}
    (hempty : start.registry = {}) (hsteady : Steady (turns.filterMap Turn.inquired?)) :
    let asked := turns.filterMap Turn.inquired?
    let last := start.after sessions turns
    last.registry.Reflects asked ∧
      last.registry.size = (asked.filterMap acceptedKey?).dedup.length ∧
      (∀ past t later, turns = past ++ t :: later →
        let now := start.after sessions past
        now.registry.entries <+: last.registry.entries ∧
        (t.inquired? = none → Blind (t.request.perform (sessions t.session)) ∧
          (t.take sessions now).2.registry = now.registry) ∧
        ∀ type, t.inquired? = some type →
          t.Consults sessions (past.filterMap Turn.inquired?) now type) ∧
      ∀ heard, (∀ t ∈ turns, (sessions t.session).Reports heard) →
        (∀ t ∈ turns, ∀ c, t.request = .change c →
          (c.parties (sessions t.session)).Reticent heard) →
        heard last.surroundings = heard start.surroundings ++
          last.registry.entries.map fun entry => .built entry.2 := by
  intro asked last
  have hreflects : ∀ past later, turns = past ++ later →
      (start.after sessions past).registry.Reflects (past.filterMap Turn.inquired?) := by
    rintro past later rfl
    rw [SharedState.registry_after, hempty]
    rw [List.filterMap_append] at hsteady
    exact Registry.reflects_empty.foldl_consult hsteady.of_append_left
  have hlast : last.registry.Reflects asked := hreflects turns [] (List.append_nil _).symm
  refine ⟨hlast, hlast.size_eq, ?_, ?_⟩
  · rintro past t later rfl
    intro now
    refine ⟨?_, fun hnone => ?_, fun type htype => ?_⟩
    · change now.registry.entries <+: (start.after sessions (past ++ t :: later)).registry.entries
      rw [SharedState.after_append]
      exact now.entries_prefix_after ..
    · refine ⟨?_, by rw [t.registry_take, hnone, Option.elim_none]⟩
      exact Session.Request.blind_perform hnone
    · refine Turn.consults (hreflects past (t :: later) rfl) ?_ htype
      rw [List.filterMap_append, List.filterMap_cons_some htype, List.append_cons] at hsteady
      exact hsteady.of_append_left
  · intro heard hs hc
    obtain ⟨new, hentries, hheard⟩ := SharedState.grows_after hs hc start
    rw [hempty, List.nil_append] at hentries
    rwa [← hentries] at hheard

def Event.build? : Event → Option Diagnostic
  | .diagnostic d => if d.target = "sqlscope_orm::metamodel::registry" then some d else none
  | .chain _ | .hook _ _ _ | .assign _ _ | .fetch _ | .execute _ | .log _ | .message _ => none

def Stage.builds (stage : Stage) : List Diagnostic := stage.events.filterMap Event.build?

private theorem builds_record (e : Event) (stage : Stage) :
    (Stage.record e stage).2.builds = stage.builds ++ e.build?.toList := by
  change (stage.events ++ [e]).filterMap Event.build? = _
  rw [List.filterMap_append]
  cases h : e.build? with
  | none => rw [List.filterMap_cons_none h]; rfl
  | some d => rw [List.filterMap_cons_some h]; rfl

private theorem builds_record_of_none {e : Event} (he : e.build? = none) (stage : Stage) :
    (Stage.record e stage).2.builds = stage.builds := by
  rw [builds_record, he, Option.toList_none, List.append_nil]

private theorem builds_answerFetch (stage : Stage) :
    (Stage.answerFetch stage).2.builds = stage.builds := by
  unfold Stage.answerFetch
  rw [Attempt.bind_apply]
  dsimp only [Attempt.get_apply]
  cases stage.sequence <;> rfl

private theorem builds_execute (st : Statement) (stage : Stage) :
    (Stage.executor.execute st stage).2.builds = stage.builds := by
  have hafter : (Stage.executor.execute st stage).2 = (Stage.record (.execute st) stage).2 := by
    obtain ⟨events, sequence, rows, failure, clocks, supplied⟩ := stage
    cases failure <;> rfl
  rw [hafter]
  exact builds_record_of_none rfl stage

/-- Two sessions, of which one logs. Both tell what is going on. -/
def counters (logs : Bool) : Session Stage :=
  { register.logging logs with subscriber := Stage.subscriber (some .debug) }

theorem reports_counters (logs : Bool) : (counters logs).Reports Stage.builds where
  logged _ x := builds_record_of_none rfl x
  mutated _ _ _ x := builds_record_of_none rfl x
  built m x := builds_record (.diagnostic (.built m)) x

theorem reticent_rehearsed (operation : Mutation) (type : EntityType) (entity : Record)
    (logs : Bool) :
    ((rehearsed operation type entity).parties (counters logs)).Reticent Stage.builds where
  session := (reports_counters logs).toReticent
  hooked _ _ _ _ := rfl
  assigned _ _ _ x := builds_record_of_none rfl x
  fetched _ x := (builds_answerFetch _).trans (builds_record_of_none rfl x)
  executed st x := builds_execute st x

def sketch : EntityType := ⟨2, { name := "Sketch", members := [.property "text" []] }⟩

def sharedDay : List (Turn Bool Stage) :=
  [⟨true, .lookup memo⟩, ⟨false, .render (.count memo [])⟩, ⟨false, .lookup sketch⟩,
    ⟨true, .change (rehearsed .insert coupon.type { values := [("id", .null .bigInt)] })⟩,
    ⟨true, .render (.select sketch [])⟩, ⟨false, .render (.select coupon.type [.limit (-1)])⟩,
    ⟨false, .change (rehearsed .update memo (memoWith (.bigInt 4)))⟩]

def sharedOpening : SharedState Bool Stage := { surroundings := opening.surroundings }

theorem sharedDay_as_built :
    sharedOpening.registry = {} ∧ Steady (sharedDay.filterMap Turn.inquired?) ∧
      (∀ t ∈ sharedDay, (counters t.session).Reports Stage.builds) ∧
      (∀ t ∈ sharedDay, ∀ c, t.request = .change c →
        (c.parties (counters t.session)).Reticent Stage.builds) ∧
      (∀ past t later, sharedDay = past ++ t :: later → t.inquired? = some sketch →
        t.take counters (sharedOpening.after counters past) =
          (t.request.refusal (.metamodel (.missingId "Sketch")),
            sharedOpening.after counters past)) ∧
      ∃ last, sharedOpening.after counters sharedDay = last ∧
        last.registry.entries = [(0, memos), (1, numberedBy "Coupon" couponNumbers)] ∧
        last.registry.size = 2 ∧
        last.surroundings.builds =
          [.built memos, .built (numberedBy "Coupon" couponNumbers)] := by
  have hasked : sharedDay.filterMap Turn.inquired? =
      [memo, memo, sketch, coupon.type, sketch, memo] := rfl
  have hsteady : Steady (sharedDay.filterMap Turn.inquired?) := by
    have hkinds : Steady [memo, sketch, coupon.type] := steady_of_nodup (by decide)
    refine hkinds.mono ?_
    rw [hasked]
    simp only [List.cons_subset, List.mem_cons, List.nil_subset, true_or, or_true, and_self]
  have hreports : ∀ t ∈ sharedDay, (counters t.session).Reports Stage.builds :=
    fun t _ => reports_counters t.session
  have hreticent : ∀ t ∈ sharedDay, ∀ c, t.request = .change c →
      (c.parties (counters t.session)).Reticent Stage.builds := by
    intro t ht c hc
    simp only [sharedDay, List.mem_cons, List.not_mem_nil, or_false] at ht
    rcases ht with rfl | rfl | rfl | rfl | rfl | rfl | rfl <;> cases hc
    all_goals exact reticent_rehearsed ..
  have hempty : sharedOpening.registry = {} := rfl
  obtain ⟨-, hsize, hturns, hheard⟩ := lookups_as_built counters hempty hsteady
  have hentries : (sharedOpening.after counters sharedDay).registry.entries =
      [(0, memos), (1, numberedBy "Coupon" couponNumbers)] := rfl
  refine ⟨hempty, hsteady, hreports, hreticent, fun past t later hday htype => ?_, _, rfl, hentries,
    hsize, ?_⟩
  · obtain ⟨-, -, hconsults⟩ := hturns past t later hday
    exact (hconsults sketch htype).failed (.missingId "Sketch") rfl
  · rw [hheard Stage.builds hreports hreticent, hentries]
    rfl

end EntitySql
