import EntitySql.Proofs.Query.Binding
import EntitySql.Proofs.Session.Interleaving

/-!
No update is lost. Versions of a row only go forward, and an update that changes its row finds it at
the version that it was read with and leaves it at a later one. So of all updates that start from
one version of a row, at most one changes it, and the others are told.
-/

namespace EntitySql

def Metamodel.Distinct (m : Metamodel) (rows : List Row) : Prop :=
  ∀ (j k : Nat) (row other : Row), rows[j]? = some row → rows[k]? = some other →
    (∀ c ∈ m.ids, (row c.path).equal (other c.path) = true) → j = k

/-- Rows that keep their identifiers, and whose versions do not go back. -/
def Metamodel.Evolves (m : Metamodel) (v : Column) (rows rows' : List Row) : Prop :=
  ∃ change : Row → Row, rows' = rows.map change ∧
    ∀ row, (∀ c ∈ m.ids, change row c.path = row c.path) ∧
      (row v.path).rank ≤ (change row v.path).rank

namespace Metamodel

variable {m : Metamodel} {v : Column} {rows rows' : List Row}

theorem Evolves.of_eq (h : rows' = rows) : m.Evolves v rows rows' :=
  ⟨id, by rw [h, List.map_id], fun _ => ⟨fun _ _ => rfl, Int.le_refl _⟩⟩

private theorem Evolves.getElem? (h : m.Evolves v rows rows') {k : Nat} {row : Row}
    (hrow : rows[k]? = some row) :
    ∃ row', rows'[k]? = some row' ∧ (∀ c ∈ m.ids, row' c.path = row c.path) ∧
      (row v.path).rank ≤ (row' v.path).rank := by
  obtain ⟨change, rfl, hchange⟩ := h
  exact ⟨change row, by rw [List.getElem?_map, hrow, Option.map_some], hchange row⟩

theorem Evolves.distinct (h : m.Evolves v rows rows') (hdistinct : m.Distinct rows) :
    m.Distinct rows' := by
  obtain ⟨change, rfl, hchange⟩ := h
  intro j k row other hj hk hids
  rw [List.getElem?_map, Option.map_eq_some_iff] at hj hk
  obtain ⟨row, hj, rfl⟩ := hj
  obtain ⟨other, hk, rfl⟩ := hk
  refine hdistinct j k row other hj hk fun c hc => ?_
  rw [← (hchange row).1 c hc, ← (hchange other).1 c hc]
  exact hids c hc

end Metamodel

namespace Parties

variable {σ ε : Type} {p : Parties σ ε} {store : Store σ} {m : Metamodel} {v : Column} {seen : Row}
  {entity advanced : ε} {q : Update} {st : Statement} {before after : σ}

theorem Reflects.read_eq (h : p.Reflects m entity seen) {c : Column} (hc : c ∈ m.keys) :
    p.access.read entity c.path = some (Metamodel.current (p.access.read entity) c) ∧
      (Metamodel.current (p.access.read entity) c).datum = seen c.path := by
  obtain ⟨value, hread, hdatum⟩ := Option.map_eq_some_iff.mp (h c hc)
  rw [Metamodel.current, hread, Option.getD_some]
  exact ⟨rfl, hdatum⟩

theorem Executes.selects_iff (h : p.Executes store m v seen entity advanced q st before after)
    (row : Row) :
    q.selects store.other row = true ↔
      ∀ c ∈ m.keys, (row c.path).equal (seen c.path) = true := by
  rw [Update.selects_iff h.compiles.query]
  refine forall₂_congr fun c hc => ?_
  rw [(h.reflects.read_eq hc).2]

theorem Executes.evolves (h : p.Executes store m v seen entity advanced q st before after)
    (hv : m.version = some v) (hid : m.isId v = false) (hversion : (seen v.path).IsVersion) :
    m.Evolves v (store.rows before) (store.rows after) := by
  have hcurrent := (h.reflects.read_eq (Metamodel.version_mem_keys hv)).2 ▸ hversion
  refine ⟨q.written store.other, h.writes, fun row => ⟨fun c hc => ?_, ?_⟩⟩
  · refine Update.written_id h.compiles.query (fun w hw => ?_) store.other row hc
    rwa [← Option.some.inj (hv.symm.trans hw)]
  · exact Update.rank_le_written h.compiles.query hv hcurrent store.other row

/-- An update that changes nothing comes too late, unless its row is not even equal to itself. -/
theorem Executes.missed (h : p.Executes store m v seen entity advanced q st before after)
    (hv : m.version = some v) (hversion : (seen v.path).IsVersion) {k : Nat} {row : Row}
    (hrow : (store.rows before)[k]? = some row) (hids : ∀ c ∈ m.ids, row c.path = seen c.path)
    (hnone : q.affected store.other (store.rows before) = 0) :
    store.rows after = store.rows before ∧
      (row v.path ≠ seen v.path ∨ ∃ c ∈ m.ids, (seen c.path).equal (seen c.path) = false) := by
  have hnone := List.countP_eq_zero.mp hnone
  constructor
  · have hkept : ∀ row ∈ store.rows before, q.written store.other row = id row := fun row hmem =>
      if_neg (hnone row hmem)
    rw [h.writes, List.map_congr_left hkept, List.map_id]
  · by_contra hcontra
    push Not at hcontra
    obtain ⟨hsame, hself⟩ := hcontra
    refine hnone row (List.mem_of_getElem? hrow) ((h.selects_iff row).mpr fun c hc => ?_)
    rcases List.mem_append.mp hc with hid | hc
    · rw [hids c hid]
      exact Bool.of_not_eq_false (hself c hid)
    · have hc : c = v := by simpa [hv] using hc
      rw [hc, hsame]
      exact hversion.equal_self

/-- An update that changes anything changes the row that was seen, at the version that was seen, and
stores the version that its entity has been given. -/
theorem Executes.found (h : p.Executes store m v seen entity advanced q st before after)
    (hv : m.version = some v) (hversion : (seen v.path).IsVersion)
    (hdistinct : m.Distinct (store.rows before)) {k : Nat} {row : Row}
    (hrow : (store.rows before)[k]? = some row) (hids : ∀ c ∈ m.ids, row c.path = seen c.path)
    (hsome : q.affected store.other (store.rows before) ≠ 0) :
    row v.path = seen v.path ∧ ∃ row', (store.rows after)[k]? = some row' ∧
      (p.access.read advanced v.path).map (·.datum) = some (row' v.path) ∧
      (seen v.path).rank < (row' v.path).rank := by
  obtain ⟨found, hmem, hselects⟩ := List.countP_pos_iff.mp (Nat.pos_of_ne_zero hsome)
  obtain ⟨j, hj⟩ := List.getElem?_of_mem hmem
  have hequal := (h.selects_iff found).mp hselects
  have hkey := Metamodel.version_mem_keys hv
  obtain rfl : j = k := hdistinct j k found row hj hrow fun c hc => by
    rw [hids c hc]
    exact hequal c (List.mem_append_left _ hc)
  obtain rfl : found = row := Option.some.inj (hj.symm.trans hrow)
  obtain ⟨hread, hcurrent⟩ := h.reflects.read_eq hkey
  obtain ⟨hwritten, hrank⟩ :=
    Update.written_version h.compiles.query hv (hcurrent ▸ hversion) hselects
  refine ⟨Datum.eq_of_equal hversion (hequal v hkey), q.written store.other found, ?_, ?_, ?_⟩
  · rw [h.writes, List.getElem?_map, hj, Option.map_some]
  · rw [h.advances, hread, hwritten, Option.map_some]
  · rwa [← hcurrent]

end Parties

namespace World

variable {ι σ ε : Type}

def Quiet (store : Store σ) (run : List (Move ι σ ε)) (i : ι) : Prop :=
  ∀ move ∈ run, ∀ step, move.event = .act i step →
    store.rows move.after.surroundings = store.rows move.before.surroundings

variable {store : Store σ} {run : List (Move ι σ ε)} {w w' : World ι σ ε} {i j : ι}

private theorem quiet_snoc_iff {move : Move ι σ ε} :
    Quiet store (run ++ [move]) i ↔ Quiet store run i ∧ ∀ step, move.event = .act i step →
      store.rows move.after.surroundings = store.rows move.before.surroundings := by
  simp only [Quiet, List.forall_mem_append, List.forall_mem_singleton]

/-- The execution of a client's statement, with the entity at that moment and the number of rows
that it changed. -/
structure Executed (clients : ι → Parties σ ε) (store : Store σ) (m : Metamodel) (v : Column)
    (i : ι) (k : Nat) (seen : Row) (advanced : ε) (rows : Nat) (move : Move ι σ ε) : Prop where
  step : ∃ st, move.event = .act i ⟨.execute .update m st, .ok rows⟩ ∧
    move.before.errand i = some ⟨k, seen, .ok (.conclude .update m st advanced)⟩
  missed : rows = 0 → ∃ row, (store.rows move.before.surroundings)[k]? = some row ∧
    (row v.path ≠ seen v.path ∨ ∃ c ∈ m.ids, (seen c.path).equal (seen c.path) = false)
  found : rows ≠ 0 → ∃ row, (store.rows move.after.surroundings)[k]? = some row ∧
    ((clients i).access.read advanced v.path).map (·.datum) = some (row v.path)

inductive Stage (clients : ι → Parties σ ε) (store : Store σ) (m : Metamodel) (v : Column)
    (run : List (Move ι σ ε)) (i : ι) (e : Errand ε) : Prop
  | pending {course : Course ε} : e.rest = .ok course → (clients i).Pending m v e.seen course →
      Quiet store run i → Stage clients store m v run i e
  | settling {course : Course ε} {advanced : ε} {rows : Nat} {move : Move ι σ ε} : move ∈ run →
      Executed clients store m v i e.row e.seen advanced rows move →
      (Quiet store run i ↔ rows = 0) → e.rest = .ok course →
      (clients i).Settling m advanced rows course → Stage clients store m v run i e
  | refused {advanced : ε} {move : Move ι σ ε} : move ∈ run →
      Executed clients store m v i e.row e.seen advanced 0 move → Quiet store run i →
      e.rest = .error (.optimisticLock m.entity) → Stage clients store m v run i e

/-- A client in its place: its row is there, with the identifier that was seen, and ahead of what
was seen once the client has changed it. -/
structure InPlace (clients : ι → Parties σ ε) (store : Store σ) (m : Metamodel) (v : Column)
    (run : List (Move ι σ ε)) (w : World ι σ ε) (i : ι) (e : Errand ε) : Prop where
  stage : Stage clients store m v run i e
  version : (e.seen v.path).IsVersion
  row : ∃ row, (store.rows w.surroundings)[e.row]? = some row ∧
    (∀ c ∈ m.ids, row c.path = e.seen c.path) ∧
    (¬Quiet store run i → (e.seen v.path).rank < (row v.path).rank)

structure Guarded (clients : ι → Parties σ ε) (store : Store σ) (m : Metamodel) (v : Column)
    (run : List (Move ι σ ε)) (w : World ι σ ε) : Prop where
  distinct : m.Distinct (store.rows w.surroundings)
  idle : ∀ i, w.errand i = none → Quiet store run i
  place : ∀ i e, w.errand i = some e → InPlace clients store m v run w i e
  apart : ∀ i j e e', w.errand i = some e → w.errand j = some e' → ¬Quiet store run i →
    ¬Quiet store run j → e.row = e'.row → e.seen v.path = e'.seen v.path → i = j

variable {clients : ι → Parties σ ε} {m : Metamodel} {v : Column}

theorem Stage.snoc {e : Errand ε} {move : Move ι σ ε} (h : Stage clients store m v run j e)
    (hother : ∀ step, move.event ≠ .act j step) :
    Stage clients store m v (run ++ [move]) j e := by
  have hquiet : Quiet store (run ++ [move]) j ↔ Quiet store run j :=
    quiet_snoc_iff.trans (and_iff_left fun step hstep => absurd hstep (hother step))
  cases h with
  | pending hrest hpending hq => exact .pending hrest hpending (hquiet.mpr hq)
  | settling hmem hexecuted hq hrest hsettling =>
    exact .settling (List.mem_append_left _ hmem) hexecuted (hquiet.trans hq) hrest hsettling
  | refused hmem hexecuted hq hrest =>
    exact .refused (List.mem_append_left _ hmem) hexecuted (hquiet.mpr hq) hrest

theorem Stage.of_done {e : Errand ε} {final : ε} (h : Stage clients store m v run i e)
    (hdone : e.rest = .ok (.done final)) :
    ¬Quiet store run i ∧ ∃ move ∈ run, ∃ advanced rows, rows ≠ 0 ∧
      Executed clients store m v i e.row e.seen advanced rows move ∧
      ∀ c ∈ m.keys, (clients i).access.read final c.path =
        (clients i).access.read advanced c.path := by
  cases h with
  | pending hrest hpending =>
    obtain rfl := Except.ok.inj (hrest.symm.trans hdone)
    cases hpending
  | settling hmem hexecuted hquiet hrest hsettling =>
    obtain rfl := Except.ok.inj (hrest.symm.trans hdone)
    obtain ⟨hrows, hkeys⟩ := hsettling.of_done
    exact ⟨mt hquiet.mp hrows, _, hmem, _, _, hrows, hexecuted, hkeys⟩
  | refused _ _ _ hrest => cases hrest.symm.trans hdone

private theorem Stage.of_error {e : Errand ε} {error : QueryError}
    (h : Stage clients store m v run i e) (herror : e.rest = .error error) :
    error = .optimisticLock m.entity ∧ Quiet store run i ∧
      ∃ move ∈ run, ∃ advanced, Executed clients store m v i e.row e.seen advanced 0 move := by
  cases h with
  | pending hrest => cases hrest.symm.trans herror
  | settling _ _ _ hrest => cases hrest.symm.trans herror
  | refused hmem hexecuted hquiet hrest =>
    exact ⟨Except.error.inj (herror.symm.trans hrest), hquiet, _, hmem, _, hexecuted⟩

theorem InPlace.snoc {e : Errand ε} {event : Event ι ε} (h : InPlace clients store m v run w j e)
    (hother : ∀ step, event ≠ .act j step)
    (hevolves : m.Evolves v (store.rows w.surroundings) (store.rows w'.surroundings)) :
    InPlace clients store m v (run ++ [⟨w, event, w'⟩]) w' j e := by
  obtain ⟨row, hrow, hids, hrank⟩ := h.row
  obtain ⟨row', hrow', hids', hrank'⟩ := hevolves.getElem? hrow
  refine ⟨h.stage.snoc hother, h.version, row', hrow', fun c hc => (hids' c hc).trans (hids c hc),
    fun hquiet => ?_⟩
  have hloud : ¬Quiet store run j := fun hq =>
    hquiet (quiet_snoc_iff.mpr ⟨hq, fun step heq => absurd heq (hother step)⟩)
  exact Int.lt_of_lt_of_le (hrank hloud) hrank'

variable [DecidableEq ι]

/-- Whatever one client does, all is well if that client is in its place afterwards, and if it is
the first to change its row since it was seen. -/
theorem Guarded.snoc (h : Guarded clients store m v run w) {event : Event ι ε} {e : Errand ε}
    (hevent : ∀ j step, event = .act j step → j = i)
    (herrand : w'.errand = Function.update w.errand i (some e))
    (hevolves : m.Evolves v (store.rows w.surroundings) (store.rows w'.surroundings))
    (hplace : InPlace clients store m v (run ++ [⟨w, event, w'⟩]) w' i e)
    (hfirst : ∀ j e', j ≠ i → w.errand j = some e' → ¬Quiet store run j →
      ¬Quiet store (run ++ [⟨w, event, w'⟩]) i → e'.row = e.row →
      e'.seen v.path ≠ e.seen v.path) :
    Guarded clients store m v (run ++ [⟨w, event, w'⟩]) w' := by
  have hself : w'.errand i = some e := by rw [herrand, Function.update_self]
  have hother : ∀ {j}, j ≠ i → w'.errand j = w.errand j := fun hne => by
    rw [herrand, Function.update_of_ne hne]
  have hact : ∀ {j}, j ≠ i → ∀ step, event ≠ .act j step := fun hne step heq =>
    hne (hevent _ step heq)
  have hquiet : ∀ {j}, j ≠ i → (Quiet store (run ++ [⟨w, event, w'⟩]) j ↔ Quiet store run j) :=
    fun hne => quiet_snoc_iff.trans (and_iff_left fun step heq => absurd heq (hact hne step))
  refine ⟨hevolves.distinct h.distinct, fun j hj => ?_, fun j e' hj => ?_,
    fun j k e' f hj hk hjquiet hkquiet hrow hseen => ?_⟩
  · have hne : j ≠ i := by
      rintro rfl
      rw [hself] at hj
      contradiction
    exact (hquiet hne).mpr (h.idle j (hother hne ▸ hj))
  · by_cases hne : j = i
    · subst hne
      obtain rfl := Option.some.inj (hself.symm.trans hj)
      exact hplace
    · exact (h.place j e' (hother hne ▸ hj)).snoc (hact hne) hevolves
  · by_cases hji : j = i <;> by_cases hki : k = i
    · rw [hji, hki]
    · subst hji
      obtain rfl := Option.some.inj (hself.symm.trans hj)
      have hk : w.errand k = some f := hother hki ▸ hk
      exact absurd hseen.symm
        (hfirst k f hki hk (fun hq => hkquiet ((hquiet hki).mpr hq)) hjquiet hrow.symm)
    · subst hki
      obtain rfl := Option.some.inj (hself.symm.trans hk)
      have hj : w.errand j = some e' := hother hji ▸ hj
      exact absurd hseen (hfirst j e' hji hj (fun hq => hjquiet ((hquiet hji).mpr hq)) hkquiet hrow)
    · exact h.apart j k e' f (hother hji ▸ hj) (hother hki ▸ hk)
        (fun hq => hjquiet ((hquiet hji).mpr hq)) (fun hq => hkquiet ((hquiet hki).mpr hq))
        hrow hseen

variable {k : Nat} {seen : Row} {rest rest' : Except QueryError (Course ε)} {step : Step ε}

theorem Guarded.keep (h : Guarded clients store m v run w)
    (hbefore : w.errand i = some ⟨k, seen, rest⟩)
    (hafter : w'.errand = Function.update w.errand i (some ⟨k, seen, rest'⟩))
    (hkept : store.rows w'.surroundings = store.rows w.surroundings)
    (hstage : Stage clients store m v (run ++ [⟨w, .act i step, w'⟩]) i ⟨k, seen, rest'⟩) :
    Guarded clients store m v (run ++ [⟨w, .act i step, w'⟩]) w' := by
  have hquiet : Quiet store (run ++ [⟨w, .act i step, w'⟩]) i ↔ Quiet store run i :=
    quiet_snoc_iff.trans (and_iff_left fun _ _ => hkept)
  obtain ⟨-, hversion, hstored⟩ := h.place i _ hbefore
  refine h.snoc (fun _ _ heq => (Event.act.inj heq).1.symm) hafter (.of_eq hkept)
    ⟨hstage, hversion, ?_⟩ ?_
  · rwa [hkept, hquiet]
  · intro j e hne hj hloud hself hsame hversions
    exact hne (h.apart j i e _ hj hbefore hloud (mt hquiet.mpr hself) hsame hversions)

/-- An execution that changes the row brings it ahead of everyone who changed it before. -/
theorem Guarded.win (h : Guarded clients store m v run w)
    (hbefore : w.errand i = some ⟨k, seen, rest⟩)
    (hafter : w'.errand = Function.update w.errand i (some ⟨k, seen, rest'⟩))
    (hevolves : m.Evolves v (store.rows w.surroundings) (store.rows w'.surroundings))
    {row row' : Row} (hrow : (store.rows w.surroundings)[k]? = some row)
    (hcurrent : row v.path = seen v.path) (hrow' : (store.rows w'.surroundings)[k]? = some row')
    (hrank : (seen v.path).rank < (row' v.path).rank)
    (hstage : Stage clients store m v (run ++ [⟨w, .act i step, w'⟩]) i ⟨k, seen, rest'⟩) :
    Guarded clients store m v (run ++ [⟨w, .act i step, w'⟩]) w' := by
  obtain ⟨-, hversion, stored, hstored, hids, -⟩ := h.place i _ hbefore
  obtain rfl := Option.some.inj (hrow.symm.trans hstored)
  obtain ⟨changed, hchanged, hkept, -⟩ := hevolves.getElem? hrow
  obtain rfl := Option.some.inj (hrow'.symm.trans hchanged)
  refine h.snoc (fun _ _ heq => (Event.act.inj heq).1.symm) hafter hevolves
    ⟨hstage, hversion, row', hrow', fun c hc => (hkept c hc).trans (hids c hc), fun _ => hrank⟩ ?_
  -- The row is still at the version that was seen, but whoever changed it before would have left it
  -- at a later one.
  intro j e _ hj hloud _ hsame hversions
  obtain ⟨-, -, behind, hbehind, -, hahead⟩ := h.place j e hj
  rw [hsame, hrow] at hbehind
  obtain rfl := Option.some.inj hbehind
  have hlt := hahead hloud
  rw [hversions, hcurrent] at hlt
  exact Int.lt_irrefl _ hlt

/-- The execution of a statement either changes nothing, or is the first to change its row. -/
theorem Guarded.execute (h : Guarded clients store m v run w) (hv : m.version = some v)
    (hid : m.isId v = false) {entity advanced : ε} {q : Update} {st : Statement} {course : Course ε}
    (hbefore : w.errand i = some ⟨k, seen, .ok (.conclude .update m st advanced)⟩)
    (hafter : w'.errand = Function.update w.errand i (some ⟨k, seen, .ok course⟩))
    (hquiet : Quiet store run i)
    (hexecutes : (clients i).Executes store m v seen entity advanced q st w.surroundings
      w'.surroundings)
    (hsettling : (clients i).Settling m advanced
      (q.affected store.other (store.rows w.surroundings)) course) :
    Guarded clients store m v (run ++ [⟨w, .act i ⟨.execute .update m st,
      .ok (q.affected store.other (store.rows w.surroundings))⟩, w'⟩]) w' := by
  obtain ⟨-, hversion, row, hrow, hids, -⟩ := h.place i _ hbefore
  by_cases hrows : q.affected store.other (store.rows w.surroundings) = 0
  · obtain ⟨hkept, hmissed⟩ := hexecutes.missed hv hversion hrow hids hrows
    refine h.keep hbefore hafter hkept (.settling List.mem_concat_self
      ⟨⟨st, rfl, hbefore⟩, fun _ => ⟨row, hrow, hmissed⟩, absurd hrows⟩ ?_ rfl hsettling)
    exact iff_of_true (quiet_snoc_iff.mpr ⟨hquiet, fun _ _ => hkept⟩) hrows
  · obtain ⟨hcurrent, row', hrow', hread, hrank⟩ :=
      hexecutes.found hv hversion h.distinct hrow hids hrows
    refine h.win hbefore hafter (hexecutes.evolves hv hid hversion) hrow hcurrent hrow' hrank
      (.settling List.mem_concat_self ⟨⟨st, rfl, hbefore⟩, fun hnone => absurd hnone hrows,
        fun _ => ⟨row', hrow', hread⟩⟩ ?_ rfl hsettling)
    refine iff_of_false (fun hq => ?_) hrows
    have hkept := (quiet_snoc_iff.mp hq).2 _ rfl
    have hsame : row' = row := Option.some.inj (hrow'.symm.trans (hkept ▸ hrow))
    rw [hsame, hcurrent] at hrank
    exact Int.lt_irrefl _ hrank

theorem Guarded.move (h : Guarded clients store m v run w) {event : Event ι ε}
    (hv : m.version = some v) (hid : m.isId v = false)
    (hclients : ∀ i, (clients i).Cooperates store m v)
    (hversions : ∀ row ∈ store.rows w.surroundings, (row v.path).IsVersion)
    (hmoves : Moves clients store m w event w') :
    Guarded clients store m v (run ++ [⟨w, event, w'⟩]) w' := by
  cases hmoves with
  | @read i k seen entity hidle hseen hreflects =>
    have hquiet : ∀ after, Quiet store (run ++ [⟨w, .read i k entity, after⟩]) i := fun _ =>
      quiet_snoc_iff.mpr ⟨h.idle i hidle, by simp⟩
    refine h.snoc (by simp) rfl (.of_eq rfl) ⟨?_, ?_, ?_⟩ ?_
    · exact .pending rfl (.called hreflects) (hquiet _)
    · exact hversions seen (List.mem_of_getElem? hseen)
    · exact ⟨seen, hseen, fun _ _ => rfl, absurd (hquiet _)⟩
    · exact fun _ _ _ _ _ hloud => absurd (hquiet _) hloud
  | @act i k seen course step rest registry allocator after herrand hadvances hregistry hperform =>
    cases (h.place i _ herrand).stage with
    | pending hrest hpending hquiet =>
      obtain rfl := Except.ok.inj hrest
      rcases hpending.advance (hclients i) hv hadvances hregistry hperform with
        ⟨hkept, course', rfl, hpending'⟩ |
        ⟨entity, advanced, q, st, hexecutes, rfl, rfl, course', rfl, hsettling⟩
      · refine h.keep herrand rfl hkept (.pending rfl hpending' ?_)
        exact quiet_snoc_iff.mpr ⟨hquiet, fun _ _ => hkept⟩
      · exact h.execute hv hid herrand rfl hquiet hexecutes hsettling
    | settling hmem hexecuted hquiet hrest hsettling =>
      obtain rfl := Except.ok.inj hrest
      obtain ⟨hkept, ⟨rfl, rfl⟩ | ⟨hrows, course', rfl, hsettling'⟩⟩ :=
        hsettling.advance (hclients i) hv hadvances hperform
      · refine h.keep herrand rfl hkept
          (.refused (List.mem_append_left _ hmem) hexecuted ?_ rfl)
        exact quiet_snoc_iff.mpr ⟨hquiet.mpr rfl, fun _ _ => hkept⟩
      · refine h.keep herrand rfl hkept
          (.settling (List.mem_append_left _ hmem) hexecuted ?_ rfl hsettling')
        exact (quiet_snoc_iff.trans (and_iff_left fun _ _ => hkept)).trans hquiet
    | refused _ _ _ hrest => cases hrest

theorem guarded_of_runs {start : World ι σ ε} (hv : m.version = some v) (hid : m.isId v = false)
    (hclients : ∀ i, (clients i).Cooperates store m v) (hstart : ∀ i, start.errand i = none)
    (hdistinct : m.Distinct (store.rows start.surroundings))
    (hruns : Runs clients store m start run w)
    (hversions : ∀ move ∈ run, ∀ row ∈ store.rows move.before.surroundings,
      (row v.path).IsVersion) : Guarded clients store m v run w := by
  induction hruns with
  | nil =>
    refine ⟨hdistinct, fun _ _ => by simp [Quiet], fun i e he => ?_, fun i _ e _ he => ?_⟩
    · rw [hstart i] at he
      contradiction
    · rw [hstart i] at he
      contradiction
  | snoc _ hmoves ih =>
    rw [List.forall_mem_append, List.forall_mem_singleton] at hversions
    exact (ih hversions.1).move hv hid hclients hversions.2 hmoves

/-- However the steps of updates interleave: of those that saw one version of a row, at most one
succeeds. The others fail the lock without having touched the store. Right after the statement of
one that succeeds was executed, its row has the version of its entity. None of them waits for
another in order to return, and one whose steps are all in a row is the update of its session. -/
theorem no_lost_update {start : World ι σ ε} (hv : m.version = some v) (hid : m.isId v = false)
    (hclients : ∀ i, (clients i).Cooperates store m v) (hstart : ∀ i, start.errand i = none)
    (hdistinct : m.Distinct (store.rows start.surroundings))
    (hruns : Runs clients store m start run w)
    (hversions : ∀ move ∈ run, ∀ row ∈ store.rows move.before.surroundings,
      (row v.path).IsVersion) :
    (∀ i j e f final other, w.errand i = some e → w.errand j = some f →
      e.result? = some (.ok final) → f.result? = some (.ok other) →
      e.row = f.row → e.seen v.path = f.seen v.path → i = j) ∧
    (∀ i e error, w.errand i = some e → e.result? = some (.error error) →
      error = .optimisticLock m.entity ∧ Quiet store run i ∧
        ∃ move ∈ run, ∃ advanced, Executed clients store m v i e.row e.seen advanced 0 move) ∧
    (∀ i e final, w.errand i = some e → e.result? = some (.ok final) →
      ∃ move ∈ run, ∃ advanced rows, rows ≠ 0 ∧
        Executed clients store m v i e.row e.seen advanced rows move ∧
        ∀ c ∈ m.keys, (clients i).access.read final c.path =
          (clients i).access.read advanced c.path) ∧
    (∀ i e, w.errand i = some e →
      ∃ more w' e', Runs clients store m start (run ++ more) w' ∧
        (∀ move ∈ more, ∃ step, move.event = .act i step) ∧
        w'.errand i = some e' ∧ e'.row = e.row ∧ e'.seen = e.seen ∧ e'.result?.isSome) ∧
    ∀ i k seen entity (state : SessionState σ),
      w.errand i = some ⟨k, seen, .ok ((clients i).course .update entity)⟩ →
      state.surroundings = w.surroundings → state.registry.Agrees (clients i).type m →
      ∃ more w', Runs clients store m start (run ++ more) w' ∧
        (∀ move ∈ more, ∃ step, move.event = .act i step) ∧
        w'.errand i = some ⟨k, seen, ((clients i).mutate .update entity state).1.map .done⟩ ∧
        w'.surroundings = ((clients i).mutate .update entity state).2.surroundings := by
  have h := guarded_of_runs hv hid hclients hstart hdistinct hruns hversions
  refine ⟨fun i j e f final other hi hj hfinal hother => ?_, fun i e error he herror => ?_,
    fun i e final he hfinal => ?_, fun i _ he => exists_runs_returns (hclients i) hruns he,
    fun i k seen entity state he => exists_runs_mutate (hclients i) hruns he⟩
  · exact h.apart i j e f hi hj
      ((h.place i e hi).stage.of_done (Errand.result?_eq_ok_iff.mp hfinal)).1
      ((h.place j f hj).stage.of_done (Errand.result?_eq_ok_iff.mp hother)).1
  · exact (h.place i e he).stage.of_error (Errand.result?_eq_error_iff.mp herror)
  · exact ((h.place i e he).stage.of_done (Errand.result?_eq_ok_iff.mp hfinal)).2

end World

structure Account where
  number : Int64
  balance : Int64
  version : Option Int64
  deriving DecidableEq

namespace Account

def type : EntityType where
  key := 0
  descriptor := {
    name := "Account"
    members := [.property "number" [.id], .property "balance" [], .property "version" [.version]] }

def numberColumn : Column := ⟨"number", "number", "number", false, none⟩

def versionColumn : Column := ⟨"version", "version", "version", false, none⟩

def metamodel : Metamodel where
  entity := "Account"
  table := { name := "Account" }
  columns :=
    [numberColumn, ⟨"balance", "balance", "balance", false, none⟩, versionColumn]
  slots := { ids := [0], version := some 2 }
  identifierLess := false
  embedded := []

def row (number balance version : Value) : List (String × Value) :=
  [("number", number), ("balance", balance), ("version", version)]

def values (a : Account) : List (String × Value) :=
  row (.bigInt a.number) (.bigInt a.balance) (a.version.elim (.null .bigInt) .bigInt)

def access : EntityAccess (List Row) Account where
  read a path := a.values.lookup path
  assign path value a :=
    match path, value.datum with
    | "version", .int n => pure { a with version := some n }
    | _, _ => throw (.unsupported path)

def updateOf : List Value → Except CompileError Update
  | [balance, _, number, version] =>
    Update.ofEntity metamodel fun path => (row number balance version).lookup path
  | [balance, _, number] =>
    Update.ofEntity metamodel fun path => (row number balance (.null .bigInt)).lookup path
  | _ => .error (.noIdentifier "Account")

def store : Store (List Row) := ⟨id, fun _ _ => .unknown⟩

def executor : Executor (List Row) where
  execute st rows :=
    match updateOf st.values with
    | .ok q => (.ok (q.affected store.other rows), rows.map (q.written store.other))
    | .error _ => (.error "", rows)
  fetch _ := throw ""

def client : Parties (List Row) Account where
  session := ⟨{ logStatements := false }, .silent, ⟨none, fun _ => pure ()⟩⟩
  type := type
  access := access
  listener := .idle
  executor := executor

private theorem exists_draft (a : Account) : ∃ q draft,
    Update.ofEntity metamodel (client.access.read a) = .ok q ∧
      (Query.update q).draft .generic = .ok draft ∧ updateOf draft.values = .ok q := by
  obtain ⟨number, balance, version⟩ := a
  cases version with
  | none => exact ⟨_, _, rfl, rfl, rfl⟩
  | some n => exact ⟨_, _, rfl, rfl, rfl⟩

theorem compiles (a : Account) :
    ∃ q st, client.Compiles metamodel a q st ∧ updateOf st.values = .ok q := by
  have hbare : ∀ name ∈ metamodel.bareNames, Region.Plain name.toList := by decide
  obtain ⟨q, draft, hq, hdraft, hvalues⟩ := exists_draft a
  have htarget : (Query.update q).target = metamodel := (Update.eq_of_ofEntity hq).1
  have haligned := draft.aligned_iff.mp
    (Draft.aligned_of_neutral ((Query.madeOf_of_draft_eq_ok hdraft).neutral (htarget ▸ hbare)))
  have hst : (Query.update q).compile .generic false = .ok (draft.finish false) :=
    Query.compile_of_draft hdraft (haligned.1.trans haligned.2.symm)
  exact ⟨q, draft.finish false, ⟨hq, hst⟩, hvalues⟩

theorem cooperates : client.Cooperates store metamodel versionColumn where
  accepted := rfl
  logged _ _ := rfl
  notified _ _ := rfl
  hooked _ _ entity s := ⟨entity, s, rfl, rfl, fun _ _ => rfl⟩
  compiled a := by
    obtain ⟨q, st, hst, -⟩ := compiles a
    exact ⟨q, st, hst⟩
  assigned a s := by
    obtain ⟨number, balance, version⟩ := a
    cases version with
    | none => exact ⟨⟨number, balance, some 1⟩, s, rfl, rfl, rfl⟩
    | some n => exact ⟨⟨number, balance, some (saturatingSucc n)⟩, s, rfl, rfl, rfl⟩
  executed a q st hst s := by
    obtain ⟨q', st', hst', hvalues⟩ := compiles a
    obtain rfl := Except.ok.inj (hst.query.symm.trans hst'.query)
    obtain rfl := Except.ok.inj (hst.statement.symm.trans hst'.statement)
    refine ⟨s.map (q.written store.other), ?_, rfl⟩
    simp only [client, executor, hvalues]
    rfl

/-- The only account in the store, as it was created. -/
def stored : Row
  | "number" => .int 1
  | "balance" => .int 100
  | _ => .null

def start : World Bool (List Row) Account := ⟨[stored], fun _ => none⟩

def one : World Bool (List Row) Account where
  surroundings := [stored]
  errand := Function.update (fun _ => none) false
    (some ⟨0, stored, .ok (client.course .update ⟨1, 120, none⟩)⟩)

/-- Both clients have read the account, and want to store another balance. -/
def both : World Bool (List Row) Account where
  surroundings := [stored]
  errand := Function.update (Function.update (fun _ => none) false
    (some ⟨0, stored, .ok (client.course .update ⟨1, 120, none⟩)⟩)) true
    (some ⟨0, stored, .ok (client.course .update ⟨1, 110, none⟩)⟩)

def reads : List (World.Move Bool (List Row) Account) :=
  [⟨start, .read false 0 ⟨1, 120, none⟩, one⟩, ⟨one, .read true 0 ⟨1, 110, none⟩, both⟩]

def turns : List Bool := (List.replicate 7 [true, false]).flatten

theorem reflects (balance : Int64) : client.Reflects metamodel ⟨1, balance, none⟩ stored := by
  intro c hc
  have hkeys : metamodel.keys = [numberColumn, versionColumn] := rfl
  rw [hkeys, List.mem_pair] at hc
  rcases hc with rfl | rfl <;> rfl

theorem runs_reads : World.Runs (fun _ => client) store metamodel start reads both := by
  have hfirst : World.Moves (fun _ => client) store metamodel start
      (.read false 0 ⟨1, 120, none⟩) one := .read rfl rfl (reflects 120)
  have hsecond : World.Moves (fun _ => client) store metamodel one
      (.read true 0 ⟨1, 110, none⟩) both := .read rfl rfl (reflects 110)
  exact .snoc (.snoc .nil hfirst) hsecond

theorem distinct : metamodel.Distinct (store.rows start.surroundings) := by
  intro j k row other hj hk _
  have hzero : ∀ {n : Nat} {r : Row}, [stored][n]? = some r → n = 0 := fun h => by
    simpa using (List.getElem?_eq_some_iff.mp h).1
  rw [hzero hj, hzero hk]

theorem contested_account :
    ∃ run w e f, World.Runs (fun _ => client) store metamodel start run w ∧
      (∀ move ∈ run, ∀ row ∈ store.rows move.before.surroundings,
        (row versionColumn.path).IsVersion) ∧
      w.errand true = some e ∧ e.result? = some (.ok ⟨1, 110, some 1⟩) ∧
      w.errand false = some f ∧ f.result? = some (.error (.optimisticLock "Account")) ∧
      World.Quiet store run false ∧
      ∃ move ∈ run, ∃ advanced rows, rows ≠ 0 ∧
        World.Executed (fun _ => client) store metamodel versionColumn true e.row e.seen advanced
          rows move := by
  have hruns := World.runs_append_play turns runs_reads
  obtain ⟨hversions, hok, herror⟩ :
      (∀ move ∈ reads ++ (World.play (fun _ => client) both turns).1,
        ∀ row ∈ store.rows move.before.surroundings, (row versionColumn.path).IsVersion) ∧
      ((World.play (fun _ => client) both turns).2.errand true).bind (·.result?) =
        some (.ok ⟨1, 110, some 1⟩) ∧
      ((World.play (fun _ => client) both turns).2.errand false).bind (·.result?) =
        some (.error (.optimisticLock "Account")) := by
    decide +kernel
  obtain ⟨e, he, hok⟩ := Option.bind_eq_some_iff.mp hok
  obtain ⟨f, hf, herror⟩ := Option.bind_eq_some_iff.mp herror
  obtain ⟨-, hfails, hreturns, -⟩ :=
    World.no_lost_update rfl rfl (fun _ => cooperates) (fun _ => rfl) distinct hruns hversions
  obtain ⟨move, hmove, advanced, rows, hrows, hexecuted, -⟩ := hreturns true e _ he hok
  exact ⟨_, _, e, f, hruns, hversions, he, hok, hf, herror, (hfails false f _ hf herror).2.1, move,
    hmove, advanced, rows, hrows, hexecuted⟩

end Account
end EntitySql
