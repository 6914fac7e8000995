import EntitySql.Proofs.Session.Course

/-!
The order of session operations. The steps of a run follow the course of the operation up to the
first that fails, whose error is the result. So nothing is executed but what was compiled, only
once, and only if all before it went well, and the hook after it runs exactly if the row was
there.
-/

namespace EntitySql

inductive Ask.Kind
  | lookup
  | hook (hook : Hook)
  | reserve
  | render
  | log
  | fetch
  | assign (path : String)
  | compile
  | execute
  | lock
  deriving DecidableEq, Repr

def Ask.Kind.late : Kind → Bool
  | execute | lock | hook (.after _) => true
  | _ => false

namespace Ask

variable {ε : Type}

def kind : Ask ε → Kind
  | lookup => .lookup
  | hook h _ _ => .hook h
  | reserve _ => .reserve
  | render _ => .render
  | log _ => .log
  | fetch _ _ => .fetch
  | assign path _ _ => .assign path
  | compile _ _ _ => .compile
  | execute _ _ _ => .execute
  | lock _ _ => .lock

def Raises : Ask ε → QueryError → Prop
  | lookup, e => ∃ error, e = .metamodel error
  | hook _ _ _, e => ∃ text, e = .hook text
  | reserve _, _ => False
  | render _, e => ∃ error, e = .compile error
  | log _, _ => False
  | fetch _ _, e => ∃ text, e = .execution text
  | assign _ _ _, e => ∃ error, e = .assign error
  | compile _ _ _, e => ∃ error, e = .compile error
  | execute _ _ _, e => ∃ text, e = .execution text
  | lock m rows, e => m.version.isSome = true ∧ rows = 0 ∧ e = .optimisticLock m.entity

end Ask

namespace Course

variable {ε : Type}

/-- Steps that follow the course up to its end or to the first that fails. -/
inductive Follows : Course ε → List (Step ε) → Except QueryError ε → Prop
  | done (entity : ε) : Follows (.done entity) [] (.ok entity)
  | step {ask : Ask ε} {next : ask.Answer → Course ε} {answer : ask.Answer}
      {steps : List (Step ε)} {result : Except QueryError ε} :
      Follows (next answer) steps result →
      Follows (.step ask next) (⟨ask, .ok answer⟩ :: steps) result
  | fail {ask : Ask ε} {next : ask.Answer → Course ε} (e : QueryError) :
      Follows (.step ask next) [⟨ask, .error e⟩] (.error e)

variable {ask : Ask ε} {next : ask.Answer → Course ε} {course : Course ε} {steps : List (Step ε)}
  {result : Except QueryError ε}

private theorem follows_done_iff {entity : ε} :
    (done entity).Follows steps result ↔ steps = [] ∧ result = .ok entity := by
  constructor
  · intro h
    cases h
    exact ⟨rfl, rfl⟩
  · rintro ⟨rfl, rfl⟩
    exact .done entity

theorem follows_step_iff :
    (step ask next).Follows steps result ↔
      (∃ e, steps = [⟨ask, .error e⟩] ∧ result = .error e) ∨
        ∃ answer rest, steps = ⟨ask, .ok answer⟩ :: rest ∧ (next answer).Follows rest result := by
  constructor
  · intro h
    cases h with
    | step h => exact .inr ⟨_, _, rfl, h⟩
    | fail e => exact .inl ⟨e, rfl, rfl⟩
  · rintro (⟨e, rfl, rfl⟩ | ⟨answer, rest, rfl, h⟩)
    · exact .fail e
    · exact .step h

theorem Follows.ok_of_before (h : course.Follows steps result) {before after : List (Step ε)}
    {last : Step ε} (hsteps : steps = before ++ last :: after) :
    ∀ earlier ∈ before, ∃ answer, earlier.answer = .ok answer := by
  induction h generalizing before with
  | done entity => simp at hsteps
  | fail e => cases before <;> simp_all
  | step h ih =>
    cases before with
    | nil => simp
    | cons first before =>
      obtain ⟨rfl, hrest⟩ := List.cons.inj hsteps
      rw [List.forall_mem_cons]
      exact ⟨⟨_, rfl⟩, ih hrest⟩

theorem Follows.error_iff (h : course.Follows steps result) (e : QueryError) :
    result = .error e ↔ ∃ step ∈ steps, step.answer = .error e := by
  induction h with
  | done entity => simp
  | fail e' => simp
  | step h ih => simp [ih]

/-! The kinds of the steps, in their fixed order. -/

def kinds (steps : List (Step ε)) : List Ask.Kind := steps.map (·.ask.kind)

/-- What is asked for in order to get a value of a sequence. `fetches` tells whether there was none
in reserve. -/
def drawOrder (logs fetches : Bool) : List Ask.Kind :=
  .reserve :: if fetches then .render :: ((if logs then [.log] else []) ++ [.fetch]) else []

/-- Values for columns, in order; each is written as soon as it is there. -/
def identifyOrder (logs : Bool) (draws : List (String × Bool)) : List Ask.Kind :=
  draws.flatMap fun (path, fetches) => drawOrder logs fetches ++ [.assign path]

def submitOrder (logs : Bool) (version : Option Column) : List Ask.Kind :=
  .compile :: (if logs then [.log] else []) ++ version.toList.map fun c => .assign c.path

def concludeOrder (operation : Mutation) : List Ask.Kind :=
  .execute :: (if operation = .insert then [] else [.lock]) ++ [.hook (.after operation)]

def readyOrder (logs : Bool) (operation : Mutation) (m : Metamodel)
    (draws : List (String × Bool)) : List Ask.Kind :=
  [.lookup, .hook (.before operation)] ++ identifyOrder logs draws ++
    submitOrder logs (versioned m operation)

/-- The fixed order of an operation, given which sequences are fetched from. -/
def order (logs : Bool) (operation : Mutation) (m : Metamodel) (draws : List (String × Bool)) :
    List Ask.Kind :=
  readyOrder logs operation m draws ++ concludeOrder operation

def drawn (columns : List Column) : List String :=
  (columns.filter (·.sequence?.isSome)).map (·.path)

/-- Steps that come by one of the targets in the order told, or fail on the way. -/
def Passes (order : List Ask.Kind) (target : Course ε → Prop) (steps : List (Step ε))
    (result : Except QueryError ε) : Prop :=
  (kinds steps <+: order ∧ ∃ e, result = .error e) ∨ ∃ front back course,
    steps = front ++ back ∧ kinds front = order ∧ target course ∧ course.Follows back result

private theorem passes_step (h : (step ask next).Follows steps result) :
    Passes [ask.kind] (fun course => ∃ answer, course = next answer) steps result := by
  rcases follows_step_iff.mp h with ⟨e, rfl, he⟩ | ⟨answer, rest, rfl, hrest⟩
  · exact .inl ⟨List.prefix_rfl, e, he⟩
  · exact .inr ⟨[_], rest, next answer, rfl, rfl, ⟨answer, rfl⟩, hrest⟩

theorem Passes.mono {order : List Ask.Kind} {target goal : Course ε → Prop}
    (h : Passes order target steps result) (hgoal : ∀ course, target course → goal course) :
    Passes order goal steps result :=
  h.imp id fun ⟨front, back, course, hsteps, hfront, htarget, hback⟩ =>
    ⟨front, back, course, hsteps, hfront, hgoal course htarget, hback⟩

theorem Passes.cons {order : List Ask.Kind} {target : Course ε → Prop} {answer : ask.Answer}
    (h : Passes order target steps result) :
    Passes (ask.kind :: order) target (⟨ask, .ok answer⟩ :: steps) result := by
  rcases h with ⟨hkinds, hresult⟩ | ⟨front, back, course, rfl, rfl, htarget, hback⟩
  · exact .inl ⟨List.cons_prefix_cons.mpr ⟨rfl, hkinds⟩, hresult⟩
  · exact .inr ⟨_ :: front, back, course, rfl, rfl, htarget, hback⟩

/-- What comes after a target may itself vary in its order. -/
theorem Passes.exists_trans {α : Type} [Nonempty α] {first : List Ask.Kind}
    {second : α → List Ask.Kind} {target goal : Course ε → Prop}
    (h : Passes first target steps result)
    (hnext : ∀ course rest, target course → course.Follows rest result →
      ∃ a, Passes (second a) goal rest result) :
    ∃ a, Passes (first ++ second a) goal steps result := by
  rcases h with ⟨hfirst, hresult⟩ | ⟨front, back, course, rfl, hfront, htarget, hback⟩
  · exact ⟨Classical.ofNonempty, .inl ⟨hfirst.trans (List.prefix_append ..), hresult⟩⟩
  · obtain ⟨a, ⟨hsecond, hresult⟩ | ⟨front', back', course', rfl, hfront', hgoal, hback'⟩⟩ :=
      hnext course back htarget hback
    · refine ⟨a, .inl ⟨?_, hresult⟩⟩
      rw [kinds, List.map_append, ← kinds, hfront]
      exact (List.prefix_append_right_inj first).mpr hsecond
    · refine ⟨a, .inr ⟨front ++ front', back', course', ?_, ?_, hgoal, hback'⟩⟩
      · rw [List.append_assoc]
      · rw [kinds, List.map_append, ← kinds, ← kinds, hfront, hfront']

theorem Passes.trans {first second : List Ask.Kind} {target goal : Course ε → Prop}
    (h : Passes first target steps result)
    (hnext : ∀ course rest, target course → course.Follows rest result →
      Passes second goal rest result) :
    Passes (first ++ second) goal steps result := by
  have htrans : ∃ _ : Unit, Passes (first ++ second) goal steps result :=
    h.exists_trans fun course rest htarget hrest => ⟨(), hnext course rest htarget hrest⟩
  exact htrans.choose_spec

theorem passes_logged {logs : Bool} {st : Statement} {after : Course ε}
    (h : (logged logs st after).Follows steps result) :
    Passes (if logs then [.log] else []) (· = after) steps result := by
  cases logs with
  | false => exact .inr ⟨[], steps, after, rfl, rfl, rfl, h⟩
  | true => exact (passes_step h).mono fun _ ⟨_, hcourse⟩ => hcourse

theorem passes_advance {read : ε → String → Option Value} {version : Option Column}
    {entity : ε} {after : ε → Course ε}
    (h : (advance read version entity after).Follows steps result) :
    Passes (version.toList.map fun c => .assign c.path) (fun course => ∃ e, course = after e)
      steps result := by
  cases version with
  | none => exact .inr ⟨[], steps, after entity, rfl, rfl, ⟨entity, rfl⟩, h⟩
  | some c => exact passes_step h

theorem exists_passes_draw {logs : Bool} {spec : SequenceSpec} {after : Int64 → Course ε}
    (h : (draw logs spec after).Follows steps result) :
    ∃ fetches, Passes (drawOrder logs fetches) (fun course => ∃ id, course = after id)
      steps result := by
  rcases follows_step_iff.mp h with ⟨e, rfl, he⟩ | ⟨reserved, rest, rfl, hrest⟩
  · exact ⟨false, .inl ⟨List.prefix_rfl, e, he⟩⟩
  · match reserved with
    | some id => exact ⟨false, .inr ⟨[_], rest, after id, rfl, rfl, ⟨id, rfl⟩, hrest⟩⟩
    | none =>
      have hfetch : Passes (.render :: ((if logs then [.log] else []) ++ [.fetch]))
          (fun course => ∃ id, course = after id) rest result := by
        refine (passes_step hrest).trans fun _ rest hrendered hrest => ?_
        obtain ⟨st, rfl⟩ := hrendered
        refine (passes_logged hrest).trans fun _ rest hlogged hrest => ?_
        rw [hlogged] at hrest
        exact passes_step hrest
      exact ⟨true, hfetch.cons⟩

theorem exists_passes_identify {logs : Bool} {read : ε → String → Option Value}
    {after : ε → Course ε} (columns : List Column) (entity : ε)
    (h : (identify logs read after columns entity).Follows steps result) :
    ∃ draws : { draws : List (String × Bool) // draws.map Prod.fst = drawn columns },
      Passes (identifyOrder logs draws) (fun course => ∃ complete, course = after complete)
        steps result := by
  induction columns generalizing entity steps with
  | nil => exact ⟨⟨[], rfl⟩, .inr ⟨[], steps, after entity, rfl, rfl, ⟨entity, rfl⟩, h⟩⟩
  | cons c rest ih =>
    unfold identify at h
    cases hsequence : c.sequence? with
    | none =>
      rw [hsequence] at h
      simpa [drawn, hsequence] using ih entity h
    | some spec =>
      rw [hsequence] at h
      have hdraws : Nonempty { draws : List (String × Bool) // draws.map Prod.fst = drawn rest } :=
        ⟨(drawn rest).map fun path => (path, false), by simp [Function.comp_def]⟩
      obtain ⟨fetches, hdraw⟩ := exists_passes_draw h
      have hassign : ∀ course rest', (∃ id, course = step (.assign c.path
            ⟨.int id, ((read entity c.path).map (·.type)).getD .bigInt⟩ entity)
            (identify logs read after rest)) → course.Follows rest' result →
          ∃ draws : { draws : List (String × Bool) // draws.map Prod.fst = drawn rest },
            Passes ([.assign c.path] ++ identifyOrder logs draws)
              (fun course => ∃ complete, course = after complete) rest' result := by
        rintro _ rest' ⟨id, rfl⟩ hrest
        refine (passes_step hrest).exists_trans fun _ rest'' hassigned hrest => ?_
        obtain ⟨assigned, rfl⟩ := hassigned
        exact ih assigned hrest
      obtain ⟨⟨draws, hdraws⟩, hpasses⟩ := hdraw.exists_trans hassign
      refine ⟨⟨(c.path, fetches) :: draws, ?_⟩, ?_⟩
      · rw [List.map_cons, hdraws]
        simp [drawn, hsequence]
      · simpa [identifyOrder] using hpasses

theorem not_late_of_mem_submit {logs : Bool} {version : Option Column} :
    ∀ kind ∈ submitOrder logs version, kind.late = false := by
  cases logs <;> cases version <;> simp [submitOrder, Ask.Kind.late]

private theorem not_late_of_mem_ready {logs : Bool} {operation : Mutation} {m : Metamodel}
    {draws : List (String × Bool)} :
    ∀ kind ∈ readyOrder logs operation m draws, kind.late = false := by
  have hdraw : ∀ fetches, ∀ kind ∈ drawOrder logs fetches, kind.late = false := by
    cases logs <;> decide
  have hidentify : ∀ kind ∈ identifyOrder logs draws, kind.late = false := by
    intro kind hkind
    obtain ⟨⟨path, fetches⟩, -, hkind⟩ := List.mem_flatMap.mp hkind
    rcases List.mem_append.mp hkind with hkind | hkind
    · exact hdraw fetches kind hkind
    · rw [List.mem_singleton.mp hkind]
      rfl
  simp only [readyOrder, List.forall_mem_append]
  exact ⟨⟨by simp [Ask.Kind.late], hidentify⟩, not_late_of_mem_submit⟩

theorem exists_passes_prepare {logs : Bool} {read : ε → String → Option Value}
    {operation : Mutation} {entity : ε} {m : Metamodel}
    (h : (prepare logs read operation entity m).Follows steps result) :
    ∃ draws : { draws : List (String × Bool) //
        draws.map Prod.fst = drawn (identified m operation) },
      Passes (.hook (.before operation) :: identifyOrder logs draws)
        (fun course => ∃ complete, course = submit logs read operation m complete)
        steps result := by
  have hdraws : Nonempty { draws : List (String × Bool) //
      draws.map Prod.fst = drawn (identified m operation) } :=
    ⟨(drawn (identified m operation)).map fun path => (path, false), by simp [Function.comp_def]⟩
  refine (passes_step h).exists_trans fun _ rest hhook hrest => ?_
  obtain ⟨prepared, rfl⟩ := hhook
  exact exists_passes_identify (identified m operation) prepared hrest

theorem submit_cases {logs : Bool} {read : ε → String → Option Value} {operation : Mutation}
    {m : Metamodel} {complete : ε}
    (h : (submit logs read operation m complete).Follows steps result) :
    (kinds steps <+: submitOrder logs (versioned m operation) ∧ ∃ e, result = .error e) ∨
      ∃ st front back advanced, steps = ⟨.compile operation m complete, .ok st⟩ :: front ++ back ∧
        kinds (⟨.compile operation m complete, .ok st⟩ :: front) =
          submitOrder logs (versioned m operation) ∧
        (conclude operation m st advanced).Follows back result := by
  rcases follows_step_iff.mp h with ⟨e, rfl, he⟩ | ⟨st, rest, rfl, hrest⟩
  · exact .inl ⟨by simp [kinds, submitOrder, Ask.kind], e, he⟩
  · have hpasses := (passes_logged hrest).trans fun _ rest hlogged hrest => by
      rw [hlogged] at hrest
      exact passes_advance hrest
    rcases hpasses with ⟨hkinds, hresult⟩ | ⟨front, back, _, rfl, hfront, ⟨advanced, rfl⟩, hback⟩
    · exact .inl ⟨List.cons_prefix_cons.mpr ⟨rfl, hkinds⟩, hresult⟩
    · refine .inr ⟨st, front, back, advanced, rfl, ?_, hback⟩
      rw [kinds, List.map_cons, ← kinds, hfront]
      rfl

/-- An operation that finds its metamodel fails before the execution or gets to it. -/
theorem exists_conclude {logs : Bool} {read : ε → String → Option Value} {operation : Mutation}
    {entity : ε} (h : (ofMutation logs read operation entity).Follows steps result) :
    (∃ e, steps = [⟨.lookup, .error e⟩]) ∨
    ∃ m rest draws, steps = ⟨.lookup, .ok m⟩ :: rest ∧
      draws.map Prod.fst = drawn (identified m operation) ∧
      ((kinds steps <+: readyOrder logs operation m draws ∧ ∃ e, result = .error e) ∨
        ∃ complete st advanced front back, steps = front ++ back ∧
          kinds front = readyOrder logs operation m draws ∧
          ⟨.compile operation m complete, .ok st⟩ ∈ front ∧
          (conclude operation m st advanced).Follows back result) := by
  rcases follows_step_iff.mp h with ⟨e, rfl, -⟩ | ⟨m, rest, rfl, hrest⟩
  · exact .inl ⟨e, rfl⟩
  · obtain ⟨⟨draws, hdraws⟩, hprepare⟩ := exists_passes_prepare hrest
    refine .inr ⟨m, rest, draws, rfl, hdraws, ?_⟩
    rcases hprepare with ⟨hkinds, hresult⟩ | ⟨front, back, _, rfl, hfront, ⟨complete, rfl⟩, hback⟩
    · refine .inl ⟨List.cons_prefix_cons.mpr ⟨rfl, ?_⟩, hresult⟩
      exact hkinds.trans (List.prefix_append ..)
    · rcases submit_cases hback with ⟨hkinds, hresult⟩ |
        ⟨st, front', back', advanced, rfl, hfront', hconclude⟩
      · refine .inl ⟨?_, hresult⟩
        rw [kinds, List.map_cons, List.map_append, ← kinds, ← kinds, hfront]
        exact List.cons_prefix_cons.mpr ⟨rfl, (List.prefix_append_right_inj _).mpr hkinds⟩
      · refine .inr ⟨complete, st, advanced, ⟨.lookup, .ok m⟩ :: front ++
          ⟨.compile operation m complete, .ok st⟩ :: front', back', by simp, ?_, by simp,
          hconclude⟩
        rw [kinds, List.map_append, List.map_cons, ← kinds, ← kinds, hfront, hfront']
        rfl

/-- The row that was to be changed or deleted had another version. -/
def Missed (operation : Mutation) (m : Metamodel) (rows : Nat) : Prop :=
  operation ≠ .insert ∧ m.version.isSome ∧ rows = 0

def Checked (steps : List (Step ε)) : Prop :=
  ∀ m rows answer, ⟨.lock m rows, answer⟩ ∈ steps →
    answer = if m.version.isSome ∧ rows = 0 then .error (.optimisticLock m.entity) else .ok ()

theorem after_cases {operation : Mutation} {m : Metamodel} {entity : ε}
    (h : (step (.hook (.after operation) m entity) done).Follows steps result) :
    ∃ answer, steps = [⟨.hook (.after operation) m entity, answer⟩] ∧ result = answer := by
  rcases follows_step_iff.mp h with ⟨e, rfl, he⟩ | ⟨final, rest, rfl, hrest⟩
  · exact ⟨.error e, rfl, he⟩
  · obtain ⟨rfl, hresult⟩ := follows_done_iff.mp hrest
    exact ⟨.ok final, rfl, hresult⟩

theorem lock_cases {operation : Mutation} {m : Metamodel} {rows : Nat} {entity : ε}
    (hoperation : operation ≠ .insert)
    (h : (step (.lock m rows) fun _ =>
      step (.hook (.after operation) m entity) done).Follows steps result)
    (hchecked : Checked steps) :
    (Missed operation m rows ∧ steps = [⟨.lock m rows, .error (.optimisticLock m.entity)⟩] ∧
        result = .error (.optimisticLock m.entity)) ∨
      ∃ answer, ¬Missed operation m rows ∧
        steps = [⟨.lock m rows, .ok ()⟩, ⟨.hook (.after operation) m entity, answer⟩] ∧
        result = answer := by
  rcases follows_step_iff.mp h with ⟨e, rfl, he⟩ | ⟨_, rest, rfl, hrest⟩
  · have hanswer := hchecked m rows _ (List.mem_singleton_self _)
    split at hanswer
    next hmissed =>
      cases hanswer
      exact .inl ⟨⟨hoperation, hmissed⟩, rfl, he⟩
    next => cases hanswer
  · have hanswer := hchecked m rows _ List.mem_cons_self
    split at hanswer
    next => cases hanswer
    next hfound =>
      obtain ⟨answer, rfl, hresult⟩ := after_cases hrest
      exact .inr ⟨answer, fun hmissed => hfound hmissed.2, rfl, hresult⟩

theorem Checked.of_append_right {front back : List (Step ε)} (h : Checked (front ++ back)) :
    Checked back :=
  fun m rows answer hmem => h m rows answer (List.mem_append_right front hmem)

theorem conclude_cases {operation : Mutation} {m : Metamodel} {st : Statement} {entity : ε}
    (h : (conclude operation m st entity).Follows steps result) (hchecked : Checked steps) :
    (∃ e, steps = [⟨.execute operation m st, .error e⟩] ∧ result = .error e) ∨
    (∃ rows, Missed operation m rows ∧
      steps = [⟨.execute operation m st, .ok rows⟩,
        ⟨.lock m rows, .error (.optimisticLock m.entity)⟩] ∧
      result = .error (.optimisticLock m.entity)) ∨
    ∃ rows locks answer, ¬Missed operation m rows ∧
      locks = (if operation = .insert then [] else [⟨.lock m rows, .ok ()⟩]) ∧
      steps = ⟨.execute operation m st, .ok rows⟩ :: locks ++
        [⟨.hook (.after operation) m entity, answer⟩] ∧
      result = answer := by
  rcases follows_step_iff.mp h with ⟨e, rfl, he⟩ | ⟨rows, rest, rfl, hrest⟩
  · exact .inl ⟨e, rfl, he⟩
  · have hrestChecked : Checked rest := fun m rows answer hmem =>
      hchecked m rows answer (List.mem_cons_of_mem _ hmem)
    cases operation with
    | insert =>
      obtain ⟨answer, rfl, hresult⟩ := after_cases hrest
      exact .inr (.inr ⟨rows, [], answer, fun hmissed => hmissed.1 rfl, rfl, rfl, hresult⟩)
    | update | delete =>
      rcases lock_cases (by decide) hrest hrestChecked with
        ⟨hmissed, rfl, he⟩ | ⟨answer, hfound, rfl, hresult⟩
      · exact .inr (.inl ⟨rows, hmissed, rfl, he⟩)
      · exact .inr (.inr ⟨rows, [_], answer, hfound, rfl, rfl, hresult⟩)

/-- What the steps of an operation keep to, and the result that they lead to. -/
structure InOrder (logs : Bool) (operation : Mutation) (steps : List (Step ε))
    (result : Except QueryError ε) : Prop where
  /-- The steps are a beginning of the fixed order, and all of it unless one of them fails. -/
  ordered : (∃ e, steps = [⟨.lookup, .error e⟩]) ∨ ∃ m rest draws,
    steps = ⟨.lookup, .ok m⟩ :: rest ∧ draws.map Prod.fst = drawn (identified m operation) ∧
      kinds steps <+: order logs operation m draws ∧
      ∀ final, result = .ok final → kinds steps = order logs operation m draws
  /-- Nothing comes after a step that fails. -/
  stops : ∀ before step after, steps = before ++ step :: after →
    ∀ earlier ∈ before, ∃ answer, earlier.answer = .ok answer
  error_iff : ∀ e, result = .error e ↔ ∃ step ∈ steps, step.answer = .error e
  raises : ∀ step ∈ steps, ∀ e, step.answer = .error e → step.ask.Raises e
  once : (kinds steps).count .execute ≤ 1
  /-- What is executed has just been compiled. -/
  compiled : ∀ before step after, steps = before ++ step :: after → step.ask.kind = .execute →
    ∃ m st complete, step.ask = .execute operation m st ∧
      ⟨.compile operation m complete, .ok st⟩ ∈ before
  missed : ∀ m st rows, ⟨.execute operation m st, .ok rows⟩ ∈ steps → Missed operation m rows →
    result = .error (.optimisticLock m.entity)
  after_iff : (∃ step ∈ steps, step.ask.kind = .hook (.after operation)) ↔
    ∃ m st rows, ⟨.execute operation m st, .ok rows⟩ ∈ steps ∧ ¬Missed operation m rows

private theorem count_execute_order {logs : Bool} {operation : Mutation} {m : Metamodel}
    {draws : List (String × Bool)} :
    (order logs operation m draws).count .execute = 1 := by
  have hready : (readyOrder logs operation m draws).count .execute = 0 :=
    List.count_eq_zero.mpr fun hmem => by simpa [Ask.Kind.late] using not_late_of_mem_ready _ hmem
  have hconclude : (concludeOrder operation).count .execute = 1 := by
    cases operation <;> decide
  rw [order, List.count_append, hready, hconclude]

theorem conclude_ordered {operation : Mutation} {m : Metamodel} {st : Statement} {entity : ε}
    (h : (conclude operation m st entity).Follows steps result) (hchecked : Checked steps) :
    kinds steps <+: concludeOrder operation ∧
      ∀ final, result = .ok final → kinds steps = concludeOrder operation := by
  rcases conclude_cases h hchecked with ⟨e, rfl, rfl⟩ | ⟨rows, hmissed, rfl, rfl⟩ |
    ⟨rows, locks, answer, -, rfl, rfl, -⟩
  · refine ⟨?_, by simp⟩
    simp [kinds, concludeOrder, Ask.kind]
  · refine ⟨?_, by simp⟩
    simp [kinds, concludeOrder, Ask.kind, hmissed.1]
  · cases operation <;> exact ⟨List.prefix_rfl, fun _ _ => rfl⟩

theorem exists_execute {operation : Mutation} {m : Metamodel} {st : Statement} {entity : ε}
    (h : (conclude operation m st entity).Follows steps result) (hchecked : Checked steps) :
    ∃ answer rest, steps = ⟨.execute operation m st, answer⟩ :: rest ∧
      (∀ step ∈ rest, step.ask.kind ≠ .execute) ∧
      ((∃ step ∈ rest, step.ask.kind = .hook (.after operation)) ↔
        ∃ rows, answer = .ok rows ∧ ¬Missed operation m rows) ∧
      ∀ rows, answer = .ok rows → Missed operation m rows →
        result = .error (.optimisticLock m.entity) := by
  rcases conclude_cases h hchecked with ⟨e, rfl, -⟩ | ⟨rows, hmissed, rfl, he⟩ |
    ⟨rows, locks, answer, hfound, rfl, rfl, -⟩
  · exact ⟨_, _, rfl, by simp, by simp, by simp⟩
  · exact ⟨_, _, rfl, by simp [Ask.kind], by simp [Ask.kind, hmissed], fun _ _ _ => he⟩
  · refine ⟨_, _, rfl, ?_, ?_, ?_⟩
    · cases operation <;> simp [Ask.kind]
    · simp [Ask.kind, hfound]
    · rintro rows' ⟨⟩ hmissed
      exact absurd hmissed hfound

/-- Where the execution stands among the steps: nowhere, or right after those that get ready for
it, the compilation among them. -/
theorem Follows.early_or_executes {logs : Bool} {read : ε → String → Option Value}
    {operation : Mutation} {entity : ε}
    (h : (ofMutation logs read operation entity).Follows steps result) (hchecked : Checked steps) :
    (∀ step ∈ steps, step.ask.kind.late = false) ∨
      ∃ m complete st front answer rest,
        steps = front ++ ⟨.execute operation m st, answer⟩ :: rest ∧
        (∀ step ∈ front, step.ask.kind.late = false) ∧
        (∀ step ∈ rest, step.ask.kind ≠ .execute) ∧
        ⟨.compile operation m complete, .ok st⟩ ∈ front ∧
        ((∃ step ∈ rest, step.ask.kind = .hook (.after operation)) ↔
          ∃ rows, answer = .ok rows ∧ ¬Missed operation m rows) ∧
        ∀ rows, answer = .ok rows → Missed operation m rows →
          result = .error (.optimisticLock m.entity) := by
  have hearly : ∀ (m : Metamodel) (draws : List (String × Bool)) (some : List (Step ε)),
      kinds some <+: readyOrder logs operation m draws →
      ∀ step ∈ some, step.ask.kind.late = false := fun _ _ _ hkinds step hstep =>
    not_late_of_mem_ready _ (hkinds.subset (List.mem_map_of_mem hstep))
  rcases exists_conclude h with ⟨e, rfl⟩ | ⟨m, rest, draws, -, -, ⟨hkinds, -⟩ |
    ⟨complete, st, advanced, front, back, rfl, hkinds, hst, hback⟩⟩
  · exact .inl (by simp [Ask.kind, Ask.Kind.late])
  · exact .inl (hearly m draws steps hkinds)
  · obtain ⟨answer, rest, rfl, honce, hafter, hmissed⟩ :=
      exists_execute hback hchecked.of_append_right
    exact .inr ⟨m, complete, st, front, answer, rest, rfl, hearly m draws front
      (hkinds ▸ List.prefix_rfl), honce, hst, hafter, hmissed⟩

theorem Follows.ordered {logs : Bool} {read : ε → String → Option Value} {operation : Mutation}
    {entity : ε} (h : (ofMutation logs read operation entity).Follows steps result)
    (hchecked : Checked steps) :
    (∃ e, steps = [⟨.lookup, .error e⟩]) ∨ ∃ m rest draws,
      steps = ⟨.lookup, .ok m⟩ :: rest ∧ draws.map Prod.fst = drawn (identified m operation) ∧
        kinds steps <+: order logs operation m draws ∧
        ∀ final, result = .ok final → kinds steps = order logs operation m draws := by
  rcases exists_conclude h with hlookup | ⟨m, rest, draws, hsteps, hdraws, hready⟩
  · exact .inl hlookup
  · refine .inr ⟨m, rest, draws, hsteps, hdraws, ?_⟩
    rcases hready with ⟨hkinds, e, rfl⟩ |
      ⟨complete, st, advanced, front, back, happend, hkinds, -, hback⟩
    · exact ⟨hkinds.trans (List.prefix_append ..), by simp⟩
    · rw [happend] at hchecked ⊢
      obtain ⟨hearlier, hwhole⟩ := conclude_ordered hback hchecked.of_append_right
      rw [kinds, List.map_append, ← kinds, ← kinds, hkinds, order]
      refine ⟨(List.prefix_append_right_inj _).mpr hearlier, fun final hfinal => ?_⟩
      rw [hwhole final hfinal]

theorem eq_of_executes {front rest : List (Step ε)} {executed step : Step ε}
    (hearly : ∀ step ∈ front, step.ask.kind.late = false)
    (honce : ∀ step ∈ rest, step.ask.kind ≠ .execute) (hstep : step ∈ front ++ executed :: rest)
    (hkind : step.ask.kind = .execute) : step = executed := by
  rcases List.mem_append.mp hstep with hfront | hstep
  · have hlate := hearly step hfront
    simp [hkind, Ask.Kind.late] at hlate
  · rcases List.mem_cons.mp hstep with heq | hrest
    · exact heq
    · exact absurd hkind (honce step hrest)

/-- Steps that keep to the course and to what those in charge may answer are in order. -/
theorem Follows.inOrder {logs : Bool} {read : ε → String → Option Value} {operation : Mutation}
    {entity : ε} (h : (ofMutation logs read operation entity).Follows steps result)
    (hraises : ∀ step ∈ steps, ∀ e, step.answer = .error e → step.ask.Raises e)
    (hchecked : Checked steps) : InOrder logs operation steps result where
  ordered := h.ordered hchecked
  stops before step after hsteps := h.ok_of_before hsteps
  error_iff := h.error_iff
  raises := hraises
  once := by
    rcases h.ordered hchecked with ⟨e, rfl⟩ | ⟨m, rest, draws, -, -, hearlier, -⟩
    · simp [kinds, Ask.kind]
    · exact count_execute_order ▸ hearlier.sublist.count_le .execute
  compiled := by
    intro before step after hsteps hkind
    rcases h.early_or_executes hchecked with hearly |
      ⟨m, complete, st, front, answer, rest, happend, hearly, honce, hst, -, -⟩
    · have hlate := hearly step (by simp [hsteps])
      simp [hkind, Ask.Kind.late] at hlate
    · have hstep : step ∈ front ++ ⟨.execute operation m st, answer⟩ :: rest := by
        rw [← happend, hsteps]
        exact List.mem_append_right before List.mem_cons_self
      obtain rfl := eq_of_executes hearly honce hstep hkind
      refine ⟨m, st, complete, rfl, ?_⟩
      rcases List.append_eq_append_iff.mp (happend.symm.trans hsteps) with
        ⟨between, rfl, -⟩ | ⟨between, rfl, htail⟩
      · exact List.mem_append_left between hst
      · cases between with
        | nil => simpa using hst
        | cons first between =>
          obtain ⟨rfl, -⟩ := List.cons.inj htail
          simpa [Ask.kind, Ask.Kind.late] using
            hearly _ (List.mem_append_right _ List.mem_cons_self)
  missed := by
    intro m st rows hexecute hmissed
    rcases h.early_or_executes hchecked with hearly |
      ⟨m', complete, st', front, answer, rest, rfl, hearly, honce, hst, -, hlocked⟩
    · simpa [Ask.kind, Ask.Kind.late] using hearly _ hexecute
    · cases eq_of_executes hearly honce hexecute rfl
      exact hlocked rows rfl hmissed
  after_iff := by
    rcases h.early_or_executes hchecked with hearly |
      ⟨m, complete, st, front, answer, rest, rfl, hearly, honce, hst, hafter, -⟩
    · constructor
      · rintro ⟨step, hstep, hkind⟩
        simpa [hkind, Ask.Kind.late] using hearly step hstep
      · rintro ⟨m, st, rows, hexecute, -⟩
        simpa [Ask.kind, Ask.Kind.late] using hearly _ hexecute
    · constructor
      · rintro ⟨step, hstep, hkind⟩
        have hrest : step ∈ rest := by
          rcases List.mem_append.mp hstep with hfront | hstep
          · simpa [hkind, Ask.Kind.late] using hearly step hfront
          · rcases List.mem_cons.mp hstep with rfl | hrest
            · simp [Ask.kind] at hkind
            · exact hrest
        obtain ⟨rows, rfl, hfound⟩ := hafter.mp ⟨step, hrest, hkind⟩
        exact ⟨m, st, rows, by simp, hfound⟩
      · rintro ⟨m', st', rows, hexecute, hfound⟩
        cases eq_of_executes hearly honce hexecute rfl
        obtain ⟨step, hstep, hkind⟩ := hafter.mpr ⟨rows, rfl, hfound⟩
        exact ⟨step, by simp [hstep], hkind⟩

end Course

namespace Parties

open Operation

variable {σ ε : Type} (p : Parties σ ε)

theorem follows_trace (course : Course ε) (state : SessionState σ) :
    course.Follows (p.trace course state) (p.run course state).1 := by
  induction course generalizing state with
  | done entity => exact .done entity
  | step ask next ih =>
    rw [trace, run_step, Attempt.bind_apply]
    match p.perform ask state with
    | (.ok answer, after) => exact .step (ih answer after)
    | (.error e, after) => exact .fail e

inductive Performed : SessionState σ → List (Step ε) → SessionState σ → Prop
  | nil (state : SessionState σ) : Performed state [] state
  | cons {before between after : SessionState σ} {step : Step ε} {steps : List (Step ε)} :
      p.perform step.ask before = (step.answer, between) → Performed between steps after →
      Performed before (step :: steps) after

theorem performed_trace (course : Course ε) (state : SessionState σ) :
    p.Performed state (p.trace course state) (p.run course state).2 := by
  induction course generalizing state with
  | done entity => exact .nil state
  | step ask next ih =>
    rw [trace, run_step, Attempt.bind_apply]
    match hperform : p.perform ask state with
    | (.ok answer, after) => exact .cons hperform (ih answer after)
    | (.error e, after) => exact .cons hperform (.nil after)

variable {p} {before after : SessionState σ} {steps : List (Step ε)}

theorem Performed.exists_state (h : p.Performed before steps after) {step : Step ε}
    (hstep : step ∈ steps) : ∃ state, (p.perform step.ask state).1 = step.answer := by
  induction h with
  | nil => simp at hstep
  | @cons before _ _ _ _ hperform _ ih =>
    rcases List.mem_cons.mp hstep with rfl | hstep
    · exact ⟨before, by rw [hperform]⟩
    · exact ih hstep

private theorem error_of_ofExcept {α δ : Type} {wrap : δ → QueryError} {x : Except δ α}
    {state : SessionState σ} {e : QueryError} (h : (ofExcept wrap x state).1 = .error e) :
    ∃ error, e = wrap error := by
  cases x with
  | ok a => cases h
  | error error => exact ⟨error, (Except.error.inj h).symm⟩

private theorem error_of_attempt {α δ : Type} {wrap : δ → QueryError} {act : Attempt σ δ α}
    {state : SessionState σ} {e : QueryError} (h : (attempt wrap act state).1 = .error e) :
    ∃ error, e = wrap error := by
  unfold attempt at h
  match hact : act state.surroundings with
  | (.ok a, after) =>
    rw [hact] at h
    cases h
  | (.error error, after) =>
    rw [hact] at h
    exact ⟨error, (Except.error.inj h).symm⟩

private theorem error_of_bind {α β : Type} {x : Operation σ α} {f : α → Operation σ β}
    {state : SessionState σ} {e : QueryError} (h : ((x >>= f) state).1 = .error e) :
    (x state).1 = .error e ∨ ∃ a after, (f a after).1 = .error e := by
  rw [Attempt.bind_apply] at h
  match hx : x state with
  | (.ok a, after) => exact .inr ⟨a, after, by rwa [hx] at h⟩
  | (.error e', after) => exact .inl (by simpa [hx] using h)

theorem error_of_metamodel {s : Session σ} {type : EntityType} {state : SessionState σ}
    {e : QueryError} (h : (s.metamodel type state).1 = .error e) :
    ∃ error, e = .metamodel error := by
  match hlookup : state.registry.lookup type with
  | .error error =>
    rw [s.metamodel_of_lookup_error hlookup] at h
    cases h
    exact ⟨error, rfl⟩
  | .ok found =>
    rw [s.metamodel_of_lookup hlookup] at h
    cases h

theorem raises_of_perform {ask : Ask ε} {state : SessionState σ} {e : QueryError}
    (h : (p.perform ask state).1 = .error e) : ask.Raises e := by
  cases ask with
  | lookup => exact error_of_metamodel h
  | hook hook m entity => exact error_of_attempt h
  | reserve spec =>
    simp only [perform] at h
    split at h <;> cases h
  | render spec => exact error_of_ofExcept h
  | log st => cases h
  | fetch spec st =>
    rcases error_of_bind h with h | ⟨first, after, h⟩
    · exact error_of_attempt h
    · cases h
  | assign path value entity => exact error_of_attempt h
  | compile operation m entity => exact error_of_ofExcept h
  | execute operation m st =>
    rcases error_of_bind h with h | ⟨rows, after, h⟩
    · exact error_of_attempt h
    · cases h
  | lock m rows =>
    rw [perform, Session.checkLock] at h
    split at h
    next hmissed =>
      cases h
      exact ⟨hmissed.1, hmissed.2, rfl⟩
    next => cases h

theorem Performed.raises (h : p.Performed before steps after) :
    ∀ step ∈ steps, ∀ e, step.answer = .error e → step.ask.Raises e := by
  intro step hstep e he
  obtain ⟨state, hperform⟩ := h.exists_state hstep
  exact raises_of_perform (hperform.trans he)

theorem Performed.checked (h : p.Performed before steps after) : Course.Checked steps := by
  intro m rows answer hmem
  obtain ⟨state, hperform⟩ := h.exists_state hmem
  refine hperform.symm.trans ?_
  simp only [perform, Session.checkLock]
  split <;> rfl

/-- An operation performs the steps of a trace, one after the other, that is in order and ends with
the result of the operation. -/
theorem mutate_in_order (p : Parties σ ε) (operation : Mutation) (entity : ε)
    (state : SessionState σ) :
    let steps := p.trace (p.course operation entity) state
    let (result, after) := p.mutate operation entity state
    p.Performed state steps after ∧
      Course.InOrder p.session.config.logStatements operation steps result := by
  have hperformed := p.performed_trace (p.course operation entity) state
  have hfollows := p.follows_trace (p.course operation entity) state
  rw [mutate_eq_run]
  exact ⟨hperformed, hfollows.inOrder hperformed.raises hperformed.checked⟩

end Parties
end EntitySql
