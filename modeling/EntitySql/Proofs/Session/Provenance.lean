import EntitySql.Proofs.Query.SequenceQuery
import EntitySql.Proofs.Sequence
import EntitySql.Proofs.Session.Order
import EntitySql.Rehearsal.Record

/-!
Where generated identifiers come from. A session keeps the rest of a fetched block under the name
of the sequence alone, while the statement that fetches tells a quoted name from a bare one. So an
identifier always comes from the block that was last fetched under the name, and from the
column's own sequence exactly if that fetch agreed with the column on the quotes.
-/

namespace EntitySql

namespace Dialect

theorem enquote_inj {d : Dialect} {name : String} {quoted other : Bool}
    (h : d.enquote name quoted = d.enquote name other) : quoted = other := by
  have hlonger : d.quoteIdentifier name ≠ name := by
    intro heq
    have hlength := congrArg (fun text => text.toList.length) heq
    have hdouble := Quoted.length_le_length_double d.identifierQuote name.toList
    simp only [quoteIdentifier, Quoted.enclose, String.toList_ofList, List.length_cons,
      List.length_append, List.length_nil] at hlength
    omega
  cases quoted with
  | false =>
    cases other with
    | false => rfl
    | true => exact absurd h.symm hlonger
  | true =>
    cases other with
    | false => exact absurd h hlonger
    | true => rfl

theorem sequenceSql?_inj {d : Dialect} {name other sql : String}
    (h : d.sequenceSql? name = some sql) (hother : d.sequenceSql? other = some sql) :
    name = other := by
  have hsame := h.trans hother.symm
  cases d with
  | generic => simpa [sequenceSql?] using hsame
  | postgres =>
    have henclosed : Quoted.enclose '\'' name.toList = Quoted.enclose '\'' other.toList := by
      simpa [sequenceSql?, String.ext_iff] using hsame
    exact String.toList_injective (Quoted.enclose_injective _ henclosed)
  | mysql => cases h

end Dialect

namespace SequenceSpec

variable {d : Dialect} {log : Bool} {spec other : SequenceSpec} {st : Statement}

theorem sequenceSql?_of_statement (h : spec.statement d log = .ok st) :
    d.sequenceSql? (d.enquote spec.name spec.quoted) = some st.text := by
  obtain ⟨sql, hsql, -, rfl⟩ := statement_ok_iff.mp h
  exact hsql

theorem statement_eq_ok_iff (hother : other.statement d log = .ok st)
    (hname : spec.name = other.name) :
    spec.statement d log = .ok st ↔ spec.quoted = other.quoted := by
  constructor
  · intro h
    have hrendered := Dialect.sequenceSql?_inj (sequenceSql?_of_statement h)
      (sequenceSql?_of_statement hother)
    rw [hname] at hrendered
    exact Dialect.enquote_inj hrendered
  · intro hquoted
    rw [← hother, statement, statement, hname, hquoted]

end SequenceSpec

structure Fetch where
  spec : SequenceSpec
  statement : Statement
  first : Int64
  deriving DecidableEq, Repr

namespace Fetch

def size (f : Fetch) : Nat := max 1 f.spec.increment.toInt.toNat

def value (f : Fetch) : Nat → Int64
  | 0 => f.first
  | k + 1 => saturatingSucc f.first + Int64.ofNat k

@[simp] theorem value_zero (f : Fetch) : f.value 0 = f.first := rfl

@[simp] theorem value_one (f : Fetch) : f.value 1 = saturatingSucc f.first := by
  simp [value]

private theorem value_succ_succ (f : Fetch) (k : Nat) : f.value (k + 2) = f.value (k + 1) + 1 := by
  simp only [value, Int64.ofNat_add]
  rw [← Int64.add_assoc]
  rfl

theorem toInt_value {f : Fetch} (h : f.first.toInt + f.size ≤ Int64.maxValue.toInt) {k : Nat}
    (hk : k < f.size) : (f.value k).toInt = f.first.toInt + k := by
  induction k with
  | zero => simp
  | succ k ih =>
    have hprevious := ih (by omega)
    cases k with
    | zero =>
      have hfirst : f.first ≠ Int64.maxValue := by
        intro heq
        rw [heq] at h
        omega
      rw [value_one, saturatingSucc, if_neg hfirst, toInt_add_one (by omega)]
      rfl
    | succ k =>
      rw [value_succ_succ, toInt_add_one (by omega), hprevious]
      push_cast
      omega

end Fetch

inductive Supply
  /-- A value of the sequence is needed. -/
  | requested (spec : SequenceSpec)
  | fetched (f : Fetch)
  | assigned (m : Metamodel) (path : String) (value : Value)

namespace Supply

def name? : Supply → Option String
  | requested spec => some spec.name
  | fetched f => some f.spec.name
  | assigned _ _ _ => none

def isRequest (name : String) : Supply → Bool
  | requested spec => spec.name == name
  | _ => false

def requests (name : String) (events : List Supply) : Nat := events.countP (isRequest name)

@[simp] theorem requests_nil (name : String) : requests name [] = 0 := rfl

private theorem requests_append (name : String) (events more : List Supply) :
    requests name (events ++ more) = requests name events + requests name more :=
  List.countP_append

@[simp] theorem requests_requested (spec : SequenceSpec) :
    requests spec.name [requested spec] = 1 := by
  simp [requests, isRequest]

private theorem requests_eq_zero {name : String} {events : List Supply}
    (h : ∀ e ∈ events, e.name? ≠ some name) : requests name events = 0 := by
  rw [requests, List.countP_eq_zero]
  intro e he hrequest
  cases e with
  | requested spec => exact h _ he (by simpa [name?, isRequest] using hrequest)
  | fetched f => simp [isRequest] at hrequest
  | assigned m path value => simp [isRequest] at hrequest

variable {past more since : List Supply} {name : String} {f : Fetch} {spec : SequenceSpec}
  {block : Block} {id : Int64} {a b : Allocator}

structure Latest (name : String) (past : List Supply) (f : Fetch) (since : List Supply) :
    Prop where
  fetched : ∃ before, past = before ++ .fetched f :: since
  named : f.spec.name = name
  last : ∀ g, .fetched g ∈ since → g.spec.name ≠ name

theorem latest_fetched (past : List Supply) (f : Fetch) :
    Latest f.spec.name (past ++ [.fetched f]) f [] :=
  ⟨⟨past, rfl⟩, rfl, by simp⟩

theorem Latest.append (h : Latest name past f since)
    (hmore : ∀ g, .fetched g ∈ more → g.spec.name ≠ name) :
    Latest name (past ++ more) f (since ++ more) := by
  obtain ⟨before, rfl⟩ := h.fetched
  refine ⟨⟨before, by simp⟩, h.named, fun g hg => ?_⟩
  rcases List.mem_append.mp hg with hg | hg
  · exact h.last g hg
  · exact hmore g hg

/-- A value that is about to be handed out is the next one of the block last fetched under the
name: one value for each request since, from the first on. -/
def Supplies (past : List Supply) (name : String) (id : Int64) : Prop :=
  ∃ f since, Latest name past f since ∧ requests name since < f.size ∧
    id = f.value (requests name since)

/-- A block in reserve is what the requests so far have left of the one last fetched. -/
def Stocked (past : List Supply) (name : String) (block : Block) : Prop :=
  ∃ f since, Latest name past f since ∧ requests name since + 1 + block.remaining = f.size ∧
    block.next = f.value (requests name since + 1)

theorem Stocked.append (h : Stocked past name block) (hmore : ∀ e ∈ more, e.name? ≠ some name) :
    Stocked (past ++ more) name block := by
  obtain ⟨f, since, hlatest, hsize, hnext⟩ := h
  have hfetched : ∀ g, .fetched g ∈ more → g.spec.name ≠ name := fun g hg hname =>
    hmore _ hg (congrArg some hname)
  refine ⟨f, since ++ more, hlatest.append hfetched, ?_⟩
  rw [requests_append, requests_eq_zero hmore]
  exact ⟨hsize, hnext⟩

theorem Stocked.request {remaining : Nat} (h : Stocked past spec.name ⟨id, remaining + 1⟩) :
    Supplies (past ++ [.requested spec]) spec.name id ∧
      Stocked (past ++ [.requested spec]) spec.name ⟨id + 1, remaining⟩ := by
  obtain ⟨f, since, hlatest, hsize, hnext⟩ := h
  have hrequested : requests spec.name (since ++ [.requested spec]) =
      requests spec.name since + 1 := by
    rw [requests_append, requests_requested]
  have hlatest' := hlatest.append fun g (hg : .fetched g ∈ [requested spec]) => by simp at hg
  dsimp only at hsize
  constructor
  · refine ⟨f, _, hlatest', ?_, ?_⟩
    · rw [hrequested]
      omega
    · rw [hrequested]
      exact hnext
  · refine ⟨f, _, hlatest', ?_, ?_⟩
    · rw [hrequested]
      dsimp only
      omega
    · rw [hrequested, Fetch.value_succ_succ, ← hnext]

theorem supplies_fetched (past : List Supply) (f : Fetch) :
    Supplies (past ++ [.fetched f]) f.spec.name f.first :=
  ⟨f, [], latest_fetched past f, Nat.lt_of_lt_of_le Nat.zero_lt_one (Nat.le_max_left ..), rfl⟩

theorem stocked_fetched (past : List Supply) (h : f.spec.increment > 1) :
    Stocked (past ++ [.fetched f]) f.spec.name
      ⟨saturatingSucc f.first, f.spec.increment.toInt.toNat - 1⟩ := by
  have hmany : 1 < f.spec.increment.toInt := Int64.lt_iff_toInt_lt.mp h
  refine ⟨f, [], latest_fetched past f, ?_, f.value_one.symm⟩
  rw [requests_nil, Fetch.size]
  dsimp only
  omega

/-- Everything in reserve is left over from the blocks last fetched. -/
def Backed (past : List Supply) (a : Allocator) : Prop :=
  ∀ name block, a.block? name = some block → 0 < block.remaining → Stocked past name block

theorem backed_empty : Backed [] {} := by
  intro name block hblock
  simp [Allocator.block?] at hblock

theorem Backed.append (h : Backed past a)
    (hmore : ∀ name block, a.block? name = some block → 0 < block.remaining →
      ∀ e ∈ more, e.name? ≠ some name) : Backed (past ++ more) a :=
  fun name block hblock hremaining =>
    (h name block hblock hremaining).append (hmore name block hblock hremaining)

theorem Backed.put (h : Backed past a) (hself : Stocked (past ++ more) name block)
    (hmore : ∀ e ∈ more, e.name? = some name) : Backed (past ++ more) (a.put name block) := by
  intro other found hfound hremaining
  by_cases hother : other = name
  · subst hother
    rw [Allocator.block?_put_self] at hfound
    cases hfound
    exact hself
  · rw [Allocator.block?_put_of_ne a _ hother] at hfound
    refine (h other found hfound hremaining).append fun e he hname => ?_
    exact hother (Option.some.inj (hname.symm.trans (hmore e he)))

theorem Backed.take (h : Backed past a) (htake : a.take? spec = some (id, b)) :
    Supplies (past ++ [.requested spec]) spec.name id ∧ Backed (past ++ [.requested spec]) b := by
  obtain ⟨remaining, rfl, hblock⟩ := Allocator.take?_eq_some htake
  obtain ⟨hsupplies, hstocked⟩ := (h spec.name _ hblock (Nat.succ_pos remaining)).request
  exact ⟨hsupplies, h.put hstocked (by simp [name?])⟩

private theorem name_ne_of_take?_eq_none (htake : a.take? spec = none)
    (hblock : a.block? name = some block) (hremaining : 0 < block.remaining) :
    spec.name ≠ name := by
  rintro rfl
  obtain ⟨next, remaining⟩ := block
  cases remaining with
  | zero => exact absurd hremaining (Nat.lt_irrefl 0)
  | succ remaining => simp [Allocator.take?, hblock] at htake

theorem Backed.request (h : Backed past a) (htake : a.take? spec = none) :
    Backed (past ++ [.requested spec]) a := by
  apply h.append
  intro name block hblock hremaining
  simpa [name?] using name_ne_of_take?_eq_none htake hblock hremaining

theorem Backed.reserve (h : Backed past a) (htake : a.take? f.spec = none) :
    Backed (past ++ [.fetched f]) (a.reserve f.spec f.first) := by
  unfold Allocator.reserve
  split
  next hmany => exact h.put (stocked_fetched past hmany) (by simp [name?])
  next =>
    apply h.append
    intro name block hblock hremaining
    simpa [name?] using name_ne_of_take?_eq_none htake hblock hremaining

/-! Histories in which every event is accounted for by those before it. -/

/-- What an event owes to the past: a fetch is made with the statement of its sequence, and a value
that is assigned is supplied under the name of a sequence of its column. -/
def Accounted (d : Dialect) (log : Bool) (past : List Supply) : Supply → Prop
  | requested _ => True
  | fetched f => f.spec.statement d log = .ok f.statement
  | assigned m path value => ∃ c ∈ m.ids, ∃ spec id, c.path = path ∧ c.sequence? = some spec ∧
      value.datum = .int id ∧ Supplies past spec.name id

def AllAccounted (d : Dialect) (log : Bool) (past : List Supply) : List Supply → Prop
  | [] => True
  | e :: rest => Accounted d log past e ∧ AllAccounted d log (past ++ [e]) rest

variable {d : Dialect} {log : Bool}

private theorem allAccounted_append {events : List Supply} :
    AllAccounted d log past (events ++ more) ↔
      AllAccounted d log past events ∧ AllAccounted d log (past ++ events) more := by
  induction events generalizing past with
  | nil => simp [AllAccounted]
  | cons e rest ih => simp [AllAccounted, ih, and_assoc]

theorem AllAccounted.of_append {e : Supply} {before after : List Supply}
    (h : AllAccounted d log past (before ++ e :: after)) : Accounted d log (past ++ before) e :=
  (allAccounted_append.mp h).2.1

def ofStep {ε : Type} (m : Metamodel) : Step ε → List Supply
  | ⟨.reserve spec, _⟩ => [.requested spec]
  | ⟨.fetch spec statement, .ok first⟩ => [.fetched ⟨spec, statement, first⟩]
  | ⟨.assign path value _, _⟩ => [.assigned m path value]
  | _ => []

end Supply

/-! Operations that leave the allocator alone. -/

namespace Operation

variable {σ α β : Type}

def SparesAllocator (x : Operation σ α) : Prop := ∀ state, (x state).2.allocator = state.allocator

theorem sparesAllocator_outside (act : StateM σ α) : SparesAllocator (outside act) := fun _ => rfl

theorem sparesAllocator_attempt {ε : Type} (wrap : ε → QueryError) (act : Attempt σ ε α) :
    SparesAllocator (attempt wrap act) := fun _ => rfl

theorem sparesAllocator_ofExcept {ε : Type} (wrap : ε → QueryError) (result : Except ε α) :
    SparesAllocator (ofExcept wrap result : Operation σ α) := fun _ => rfl

theorem SparesAllocator.bind {x : Operation σ α} {f : α → Operation σ β} (hx : SparesAllocator x)
    (hf : ∀ a, SparesAllocator (f a)) : SparesAllocator (x >>= f) := by
  intro state
  rw [Attempt.bind_apply]
  have hkept := hx state
  cases hresult : x state with
  | mk result after =>
    rw [hresult] at hkept
    cases result with
    | ok a => exact (hf a after).trans hkept
    | error e => exact hkept

theorem sparesAllocator_metamodel (s : Session σ) (type : EntityType) :
    SparesAllocator (s.metamodel type) := by
  intro state
  match hlookup : state.registry.lookup type with
  | .error e => rw [s.metamodel_of_lookup_error hlookup]
  | .ok found => rw [s.metamodel_of_lookup hlookup]

end Operation

namespace Parties

open Operation Supply

variable {σ ε : Type} (p : Parties σ ε) (m : Metamodel)

theorem sparesAllocator_perform {ask : Ask ε}
    (haside : ∀ answer, Supply.ofStep m ⟨ask, answer⟩ = []) :
    SparesAllocator (p.perform ask) := by
  cases ask with
  | lookup => exact sparesAllocator_metamodel p.session p.type
  | hook hook m entity => exact sparesAllocator_attempt _ _
  | reserve spec => cases haside (.ok none)
  | render spec => exact sparesAllocator_ofExcept _ _
  | log st => exact sparesAllocator_outside _
  | fetch spec st => cases haside (.ok 0)
  | assign path value entity => exact sparesAllocator_attempt _ _
  | compile operation m entity => exact sparesAllocator_ofExcept _ _
  | execute operation m st =>
    exact .bind (sparesAllocator_attempt _ _) fun rows =>
      .bind (sparesAllocator_outside _) fun _ _ => rfl
  | lock m rows =>
    intro state
    rw [perform, Session.checkLock]
    split <;> rfl

def supplies (course : Course ε) (state : SessionState σ) : List Supply :=
  (p.trace course state).flatMap (Supply.ofStep m)

/-- Wherever a run of the course sets out with the reserve in order, and with `start` given, it
accounts for all it does and leaves the reserve in order. -/
def Accounts (start : List Supply → Allocator → Prop) (course : Course ε) : Prop :=
  ∀ past state, Backed past state.allocator → start past state.allocator →
    AllAccounted p.session.config.dialect p.session.config.logStatements past
        (p.supplies m course state) ∧
      Backed (past ++ p.supplies m course state) (p.run course state).2.allocator

variable {p m} {start : List Supply → Allocator → Prop} {ask : Ask ε}
  {next : ask.Answer → Course ε}

theorem accounts_done (entity : ε) : p.Accounts m start (.done entity) := by
  intro past state hbacked _
  exact ⟨trivial, by simpa [supplies, trace] using hbacked⟩

theorem accounts_step
    (hstep : ∀ past state, Backed past state.allocator → start past state.allocator →
      let new := Supply.ofStep m ⟨ask, (p.perform ask state).1⟩
      AllAccounted p.session.config.dialect p.session.config.logStatements past new ∧
        Backed (past ++ new) (p.perform ask state).2.allocator ∧
        ∀ answer, (p.perform ask state).1 = .ok answer → ∃ goal,
          goal (past ++ new) (p.perform ask state).2.allocator ∧ p.Accounts m goal (next answer)) :
    p.Accounts m start (.step ask next) := by
  intro past state hbacked hstart
  obtain ⟨haccounted, hafter, hnext⟩ := hstep past state hbacked hstart
  rw [supplies, trace, run_step, Attempt.bind_apply]
  cases hperform : p.perform ask state with
  | mk result after =>
    rw [hperform] at haccounted hafter hnext
    cases result with
    | ok answer =>
      obtain ⟨goal, hgoal, haccounts⟩ := hnext answer rfl
      obtain ⟨hrest, hdone⟩ := haccounts _ after hafter hgoal
      dsimp only
      rw [List.flatMap_cons, ← List.append_assoc]
      exact ⟨allAccounted_append.mpr ⟨haccounted, hrest⟩, hdone⟩
    | error e => simpa using ⟨haccounted, hafter⟩

theorem accounts_aside (haside : ∀ answer, Supply.ofStep m ⟨ask, answer⟩ = [])
    (hnext : ∀ state answer after, p.perform ask state = (.ok answer, after) →
      p.Accounts m start (next answer)) : p.Accounts m start (.step ask next) := by
  apply accounts_step
  intro past state hbacked hstart
  have hkept := p.sparesAllocator_perform m haside state
  dsimp only
  rw [haside, List.append_nil, hkept]
  exact ⟨trivial, hbacked, fun answer hanswer =>
    ⟨start, hstart, hnext state answer _ (Prod.ext hanswer rfl)⟩⟩

theorem accounts_logged {logs : Bool} {st : Statement} {after : Course ε}
    (h : p.Accounts m start after) : p.Accounts m start (.logged logs st after) := by
  unfold Course.logged
  split
  · exact accounts_aside (fun _ => rfl) fun _ _ _ _ => h
  · exact h

theorem accounts_assign {c : Column} {spec : SequenceSpec} {id : Int64} {type : SqlType}
    {entity : ε} {next : ε → Course ε} (hc : c ∈ m.ids) (hsequence : c.sequence? = some spec)
    (hnext : ∀ assigned, p.Accounts m (fun _ _ => True) (next assigned)) :
    p.Accounts m (fun past _ => Supplies past spec.name id)
      (.step (.assign c.path ⟨.int id, type⟩ entity) next) := by
  apply accounts_step
  intro past state hbacked hsupplies
  refine ⟨⟨⟨c, hc, spec, id, rfl, hsequence, rfl, hsupplies⟩, trivial⟩, ?_, ?_⟩
  · apply hbacked.append
    simp [Supply.ofStep, Supply.name?]
  · exact fun assigned _ => ⟨_, trivial, hnext assigned⟩

theorem accounts_fetch {spec : SequenceSpec} {st : Statement} {next : Int64 → Course ε}
    (hst : spec.statement p.session.config.dialect p.session.config.logStatements = .ok st)
    (hnext : ∀ id, p.Accounts m (fun past _ => Supplies past spec.name id) (next id)) :
    p.Accounts m (fun _ a => a.take? spec = none) (.step (.fetch spec st) next) := by
  apply accounts_step
  intro past state hbacked htake
  have hspares := sparesAllocator_attempt QueryError.execution (p.executor.fetch st) state
  rw [perform, Attempt.bind_apply]
  cases hfetch : attempt .execution (p.executor.fetch st) state with
  | mk result after =>
    rw [hfetch] at hspares
    have hkept : after.allocator = state.allocator := hspares
    cases result with
    | ok first =>
      have hreserved : Backed (past ++ [.fetched ⟨spec, st, first⟩])
          (after.allocator.reserve spec first) := by
        rw [hkept]
        exact hbacked.reserve htake
      refine ⟨⟨hst, trivial⟩, hreserved, fun answer hanswer => ?_⟩
      cases hanswer
      exact ⟨_, supplies_fetched past ⟨spec, st, first⟩, hnext first⟩
    | error e =>
      refine ⟨trivial, ?_, fun answer hanswer => by cases hanswer⟩
      simpa [Supply.ofStep, hkept] using hbacked

theorem accounts_draw {logs : Bool} {spec : SequenceSpec} {next : Int64 → Course ε}
    (hnext : ∀ id, p.Accounts m (fun past _ => Supplies past spec.name id) (next id)) :
    p.Accounts m (fun _ _ => True) (.draw logs spec next) := by
  apply accounts_step
  intro past state hbacked _
  cases htake : state.allocator.take? spec with
  | some drawn =>
    obtain ⟨id, a⟩ := drawn
    have hperform : p.perform (.reserve spec) state =
        (.ok (some id), { state with allocator := a }) := by
      simp only [perform, htake]
    obtain ⟨hsupplies, hafter⟩ := hbacked.take htake
    rw [hperform]
    refine ⟨⟨trivial, trivial⟩, hafter, fun answer hanswer => ?_⟩
    cases hanswer
    exact ⟨_, hsupplies, hnext id⟩
  | none =>
    have hperform : p.perform (.reserve spec) state = (.ok none, state) := by
      simp only [perform, htake]
    rw [hperform]
    refine ⟨⟨trivial, trivial⟩, hbacked.request htake, fun answer hanswer => ?_⟩
    cases hanswer
    -- Rendering and logging keep the reserve as it is, so the fetch still finds it empty.
    refine ⟨fun _ a => a.take? spec = none, htake, ?_⟩
    refine accounts_aside (fun _ => rfl) fun state st after hrender => ?_
    have hst := Except.mapError_eq_ok_iff.mp (congrArg Prod.fst hrender)
    exact accounts_logged (accounts_fetch hst hnext)

theorem accounts_identify {logs : Bool} {read : ε → String → Option Value} {next : ε → Course ε}
    {columns : List Column} (hcolumns : columns ⊆ m.ids)
    (hnext : ∀ complete, p.Accounts m (fun _ _ => True) (next complete)) (entity : ε) :
    p.Accounts m (fun _ _ => True) (.identify logs read next columns entity) := by
  induction columns generalizing entity with
  | nil => exact hnext entity
  | cons c rest ih =>
    obtain ⟨hc, hrest⟩ := List.cons_subset.mp hcolumns
    unfold Course.identify
    cases hsequence : c.sequence? with
    | none => exact ih hrest entity
    | some spec =>
      apply accounts_draw
      exact fun id => accounts_assign hc hsequence (ih hrest)

theorem accounts_conclude {st : Statement} {entity : ε} :
    p.Accounts m start (.conclude .insert m st entity) := by
  refine accounts_aside (fun _ => rfl) fun _ rows _ _ => ?_
  exact accounts_aside (fun _ => rfl) fun _ final _ _ => accounts_done final

theorem accounts_submit {logs : Bool} {read : ε → String → Option Value} {complete : ε} :
    p.Accounts m start (.submit logs read .insert m complete) := by
  refine accounts_aside (fun _ => rfl) fun _ st _ _ => ?_
  exact accounts_logged accounts_conclude

theorem accounts_prepare {logs : Bool} {read : ε → String → Option Value} {entity : ε} :
    p.Accounts m (fun _ _ => True) (.prepare logs read .insert entity m) := by
  refine accounts_aside (fun _ => rfl) fun _ prepared _ _ => ?_
  exact accounts_identify (List.Subset.refl _) (fun _ => accounts_submit) prepared

end Parties

structure Insertion (σ : Type) where
  Entity : Type
  type : EntityType
  access : EntityAccess σ Entity
  listener : Listener σ Entity
  executor : Executor σ
  entity : Entity

namespace Insertion

open Supply

variable {σ : Type} (i : Insertion σ) (s : Session σ)

def parties : Parties σ i.Entity := ⟨s, i.type, i.access, i.listener, i.executor⟩

def after (state : SessionState σ) : SessionState σ :=
  (s.insert i.type i.access i.listener i.executor i.entity state).2

def supplies (state : SessionState σ) : List Supply :=
  match (i.parties s).trace ((i.parties s).course .insert i.entity) state with
  | ⟨.lookup, .ok m⟩ :: rest => rest.flatMap (Supply.ofStep m)
  | _ => []

theorem accounted (past : List Supply) (state : SessionState σ) (h : Backed past state.allocator) :
    AllAccounted s.config.dialect s.config.logStatements past (i.supplies s state) ∧
      Backed (past ++ i.supplies s state) (i.after s state).allocator := by
  have hafter : i.after s state =
      ((i.parties s).run ((i.parties s).course .insert i.entity) state).2 :=
    congrArg (fun x => (x state).2) ((i.parties s).mutate_eq_run .insert i.entity)
  have hspares : ((i.parties s).perform .lookup state).2.allocator = state.allocator :=
    Operation.sparesAllocator_metamodel s i.type state
  rw [hafter, supplies, Parties.course, Course.ofMutation, Parties.trace, Parties.run_step,
    Attempt.bind_apply]
  -- Events name the metamodel that the lookup answers with; without one there are none.
  cases hlookup : (i.parties s).perform .lookup state with
  | mk result found =>
    rw [hlookup] at hspares
    have hkept : found.allocator = state.allocator := hspares
    cases result with
    | ok m =>
      have haccounts : (i.parties s).Accounts m (fun _ _ => True)
          (.prepare s.config.logStatements i.access.read .insert i.entity m) :=
        Parties.accounts_prepare
      exact haccounts past found (by rwa [hkept]) trivial
    | error e => exact ⟨trivial, by simpa [hkept] using h⟩

end Insertion

namespace Session

open Supply

variable {σ : Type}

/-- What happens around sequences while a session inserts entities, and where that leaves it. In
between, the registry and the surroundings may change in any way. -/
inductive Inserts (s : Session σ) : List Supply → SessionState σ → Prop
  | start {state : SessionState σ} : state.allocator = {} → Inserts s [] state
  | insert {past : List Supply} {state : SessionState σ} (i : Insertion σ) :
      Inserts s past state → Inserts s (past ++ i.supplies s state) (i.after s state)
  | elsewhere {past : List Supply} {state other : SessionState σ} :
      Inserts s past state → other.allocator = state.allocator → Inserts s past other

variable {s : Session σ} {history : List Supply} {state : SessionState σ}

theorem Inserts.accounted (h : s.Inserts history state) :
    AllAccounted s.config.dialect s.config.logStatements [] history ∧
      Backed history state.allocator := by
  induction h with
  | start hempty =>
    rw [hempty]
    exact ⟨trivial, backed_empty⟩
  | insert i _ ih =>
    obtain ⟨haccounted, hbacked⟩ := ih
    obtain ⟨hmore, hafter⟩ := i.accounted s _ _ hbacked
    exact ⟨allAccounted_append.mpr ⟨haccounted, hmore⟩, hafter⟩
  | elsewhere _ hkept ih =>
    rw [hkept]
    exact ih

theorem Inserts.statement_of_fetched (h : s.Inserts history state) {f : Fetch}
    (hf : .fetched f ∈ history) :
    f.spec.statement s.config.dialect s.config.logStatements = .ok f.statement := by
  obtain ⟨before, after, rfl⟩ := List.append_of_mem hf
  exact h.accounted.1.of_append

/-- Every identifier that is assigned is the next one of the block that was last fetched under the
name of the column's sequence: the fetched number and, short of the largest one, one more for each
request since. The block was fetched with the statement of the column's sequence exactly if both
write the name with quotes or both without. -/
theorem ids_from_last_block (h : s.Inserts history state) {past rest : List Supply}
    {m : Metamodel} {path : String} {value : Value}
    (hassigned : history = past ++ .assigned m path value :: rest) :
    ∃ c ∈ m.ids, ∃ spec f since, c.path = path ∧ c.sequence? = some spec ∧
      Latest spec.name past f since ∧ requests spec.name since < f.size ∧
      value.datum = .int (f.value (requests spec.name since)) ∧
      (f.first.toInt + f.size ≤ Int64.maxValue.toInt →
        (f.value (requests spec.name since)).toInt = f.first.toInt + requests spec.name since) ∧
      f.spec.statement s.config.dialect s.config.logStatements = .ok f.statement ∧
      (spec.statement s.config.dialect s.config.logStatements = .ok f.statement ↔
        spec.quoted = f.spec.quoted) := by
  subst hassigned
  obtain ⟨c, hc, spec, id, hpath, hsequence, hvalue, f, since, hlatest, hsize, rfl⟩ :=
    h.accounted.1.of_append
  obtain ⟨before, rfl⟩ := hlatest.fetched
  have hstatement := h.statement_of_fetched (f := f) (by simp)
  exact ⟨c, hc, spec, f, since, hpath, hsequence, hlatest, hsize, hvalue,
    fun hbelow => Fetch.toInt_value hbelow hsize, hstatement,
    SequenceSpec.statement_eq_ok_iff hstatement hlatest.named.symm⟩

end Session

/-- Tickets and coupons are numbered by sequences of the same name, which only coupons quote. -/
def ticketNumbers : SequenceSpec := { name := "numbers", increment := 10 }

def couponNumbers : SequenceSpec := { ticketNumbers with quoted := true }

def numberedBy (entity : String) (spec : SequenceSpec) : Metamodel where
  entity := entity
  table := { name := entity }
  columns := [⟨"id", "id", "id", false, some (.sequence spec)⟩]
  slots := { ids := [0] }
  identifierLess := false
  embedded := []

def issue (key : Nat) (entity : String) (spec : SequenceSpec) : Insertion Stage where
  Entity := Record
  type := ⟨key, { name := entity, members := [.property "id" [.id, .sequence spec]] }⟩
  access := Record.access
  listener := .idle
  executor := Stage.executor
  entity := { values := [("id", .null .bigInt)] }

def ticket : Insertion Stage := issue 0 "Ticket" ticketNumbers

def coupon : Insertion Stage := issue 1 "Coupon" couponNumbers

def register : Session Stage :=
  ⟨{ logStatements := false }, Stage.logger, Stage.subscriber none⟩

def opening : SessionState Stage := { surroundings := { sequence := [.ok 100, .ok 500] } }

def nextTicket : Statement := ⟨"SELECT NEXT VALUE FOR numbers", [], none⟩

def nextCoupon : Statement := ⟨"SELECT NEXT VALUE FOR \"numbers\"", [], none⟩

def inARow (first second : Insertion Stage) : List Supply :=
  first.supplies register opening ++ second.supplies register (first.after register opening)

private theorem inserts_inARow (first second : Insertion Stage) :
    register.Inserts (inARow first second)
      (second.after register (first.after register opening)) :=
  .insert second (.insert first (.start rfl))

def ticketBlock : Fetch := ⟨ticketNumbers, nextTicket, 100⟩

/-- What happens until the second one in a row is about to get its number. -/
def issued (second : SequenceSpec) : List Supply :=
  [.requested ticketNumbers, .fetched ticketBlock,
    .assigned (numberedBy "Ticket" ticketNumbers) "id" (.bigInt 100), .requested second]

private theorem eq_ticketBlock_of_mem_issued {second : SequenceSpec} {f : Fetch}
    (h : .fetched f ∈ issued second) : f = ticketBlock := by
  simpa [issued] using h

theorem second_ticket_from_ticket_block :
    inARow ticket ticket = issued ticketNumbers ++
        [.assigned (numberedBy "Ticket" ticketNumbers) "id" (.bigInt 101)] ∧
      (∃ since, Supply.Latest "numbers" (issued ticketNumbers) ticketBlock since) ∧
      ticketNumbers.statement .generic false = .ok nextTicket := by
  have hhistory : inARow ticket ticket = issued ticketNumbers ++
      [.assigned (numberedBy "Ticket" ticketNumbers) "id" (.bigInt 101)] := rfl
  obtain ⟨c, hc, spec, f, since, -, hsequence, hlatest, -, -, -, -, hown⟩ :=
    Session.ids_from_last_block (inserts_inARow ticket ticket) hhistory
  obtain rfl := List.mem_singleton.mp hc
  cases hsequence
  obtain ⟨before, hbefore⟩ := hlatest.fetched
  have hf : .fetched f ∈ issued ticketNumbers := by
    rw [hbefore]
    simp
  obtain rfl := eq_ticketBlock_of_mem_issued hf
  exact ⟨hhistory, ⟨since, hlatest⟩, hown.mpr rfl⟩

/-- The first coupon gets a number of the block that was fetched for tickets, although nothing was
ever fetched for coupons. -/
theorem coupon_from_ticket_block :
    Metamodel.ofDescriptor ticket.type.descriptor = .ok (numberedBy "Ticket" ticketNumbers) ∧
      Metamodel.ofDescriptor coupon.type.descriptor = .ok (numberedBy "Coupon" couponNumbers) ∧
      register.Inserts (inARow ticket coupon)
        (coupon.after register (ticket.after register opening)) ∧
      inARow ticket coupon = issued couponNumbers ++
        [.assigned (numberedBy "Coupon" couponNumbers) "id" (.bigInt 101)] ∧
      couponNumbers.statement .generic false = .ok nextCoupon ∧
      ∀ f, .fetched f ∈ inARow ticket coupon → f.statement ≠ nextCoupon := by
  have hhistory : inARow ticket coupon = issued couponNumbers ++
      [.assigned (numberedBy "Coupon" couponNumbers) "id" (.bigInt 101)] := rfl
  refine ⟨rfl, rfl, inserts_inARow ticket coupon, hhistory, rfl, fun f hf => ?_⟩
  have hissued : .fetched f ∈ issued couponNumbers := by simpa [hhistory] using hf
  rw [eq_ticketBlock_of_mem_issued hissued]
  decide

end EntitySql
