import EntitySql.Metamodel.Build
import EntitySql.Proofs.Outcome
import EntitySql.Proofs.Query.Rendering

/-!
What compiled statements bind. A value belongs to the placeholder that was appended for it, and
mapped names must not come between them. Quoted names never do, nor do names without quotes and
question marks. Other names can, and compilation compares numbers only, so a question mark that
one name brings in makes up for one that another name hides.
-/

namespace EntitySql

/-- The mapped names that statements show as they are. -/
def Metamodel.bareNames (m : Metamodel) : List String :=
  (if m.table.quoted then [] else m.table.schema.toList ++ [m.table.name]) ++
    (m.columns.filter (!·.quoted)).map (·.column)

/-- The placeholders of the text stand at the places of the bindings, and the values are theirs,
both in order. -/
def Statement.Binds (s : Statement) (bindings : List (Nat × Value)) : Prop :=
  placeholderOffsets s.text = bindings.map Prod.fst ∧ s.values = bindings.map Prod.snd

theorem Draft.binds_finish_iff (draft : Draft) (log : Bool) :
    (draft.finish log).Binds draft.bindings ↔ draft.Aligned := by
  constructor
  · intro h
    exact h.1
  · intro h
    exact ⟨h, draft.map_snd_bindings.symm⟩

namespace Dialect

theorem neutral_quoteIdentifier (d : Dialect) (name : String) :
    Region.Neutral (d.quoteIdentifier name).toList := by
  rw [quoteIdentifier, String.toList_ofList]
  exact Region.neutral_enclose d.isQuote_identifierQuote name.toList

private theorem neutral_or_bare {d : Dialect} {m : Metamodel} {name : String}
    (h : name ∈ d.mappedNames m) : Region.Neutral name.toList ∨ name ∈ m.bareNames := by
  rcases List.mem_append.mp h with h | h
  · obtain ⟨name, hname, rfl⟩ := List.mem_map.mp h
    cases hquoted : m.table.quoted with
    | true => exact .inl (d.neutral_quoteIdentifier name)
    | false =>
      right
      rw [Metamodel.bareNames, hquoted]
      exact List.mem_append_left _ hname
  · obtain ⟨c, hc, rfl⟩ := List.mem_map.mp h
    unfold columnSql
    cases hquoted : c.quoted with
    | true => exact .inl (d.neutral_quoteIdentifier c.column)
    | false =>
      right
      have hbare : c ∈ m.columns.filter (!·.quoted) := List.mem_filter.mpr ⟨hc, by simp [hquoted]⟩
      exact List.mem_append_right _ (List.mem_map_of_mem hbare)

end Dialect

namespace Draft

variable {d : Dialect} {m : Metamodel} {draft : Draft}

theorem MadeOf.neutral (h : draft.MadeOf (d.mappedNames m))
    (hbare : ∀ name ∈ m.bareNames, Region.Plain name.toList) (text : String)
    (htext : .sql text ∈ draft.pieces) : Region.Neutral text.toList := by
  rcases h text htext with hplain | hmapped
  · exact hplain.neutral
  · rcases Dialect.neutral_or_bare hmapped with hneutral | hname
    · exact hneutral
    · exact (hbare text hname).neutral

private theorem MadeOf.name_of_stray (h : draft.MadeOf (d.mappedNames m))
    (hstray : 0 < draft.stray) :
    ∃ name ∈ d.mappedNames m, '?' ∈ name.toList := by
  refine Classical.byContradiction fun hnone => Nat.ne_of_gt hstray (stray_eq_zero_of_not_mem ?_)
  intro text htext hmark
  rcases h text htext with hplain | hmapped
  · exact hplain.2 hmark
  · exact hnone ⟨text, hmapped, hmark⟩

private theorem MadeOf.name_of_hidden (h : draft.MadeOf (d.mappedNames m))
    (hhidden : 0 < draft.hidden) :
    ∃ name ∈ m.bareNames, ¬Region.Balanced name.toList := by
  refine Classical.byContradiction fun hnone => Nat.ne_of_gt hhidden (hidden_eq_zero ?_)
  intro text htext
  rcases h text htext with hplain | hmapped
  · exact hplain.neutral.balanced
  · rcases Dialect.neutral_or_bare hmapped with hneutral | hname
    · exact hneutral.balanced
    · exact Classical.byContradiction fun hopen => hnone ⟨text, hname, hopen⟩

theorem build_eq_ok_iff {log : Bool} {s : Statement} :
    draft.build log = .ok s ↔ draft.stray = draft.hidden ∧ s = draft.finish log := by
  rw [build, Statement.make_eq_ok_iff, placeholderCount_eq_iff, finish]

end Draft

namespace Query

variable {d : Dialect} {log : Bool} {q : Query}

/-- Compilation lets pass what brings in as many placeholders as it hides. -/
theorem compile_eq_ok_iff {s : Statement} :
    q.compile d log = .ok s ↔
      ∃ draft, q.draft d = .ok draft ∧ draft.stray = draft.hidden ∧ s = draft.finish log := by
  unfold compile
  simp only [Except.bind_eq_ok_iff, Except.mapError_eq_ok_iff, Draft.build_eq_ok_iff]

theorem compile_of_draft {draft : Draft} (hdraft : q.draft d = .ok draft)
    (heq : draft.stray = draft.hidden) : q.compile d log = .ok (draft.finish log) :=
  compile_eq_ok_iff.mpr ⟨draft, hdraft, heq, rfl⟩

private theorem draft_of_compile_eq_error {e : StatementError}
    (h : q.compile d log = .error (.statement e)) :
    ∃ draft, q.draft d = .ok draft ∧ draft.stray ≠ draft.hidden := by
  have hmeets := q.meets_draft d
  cases hdraft : q.draft d with
  | error e' =>
    rw [hdraft] at hmeets
    simp only [compile, hdraft] at h
    exact absurd (Except.error.inj h) (hmeets e)
  | ok draft =>
    refine ⟨draft, rfl, fun heq => ?_⟩
    rw [compile_of_draft hdraft heq] at h
    contradiction

theorem madeOf_of_draft_eq_ok {draft : Draft} (h : q.draft d = .ok draft) :
    draft.MadeOf (d.mappedNames q.target) := by
  have hmeets := q.meets_draft d
  rw [h] at hmeets
  exact hmeets

end Query

/-- Where bare names are plain, no statement is refused for its placeholders, and each value of a
statement is bound to the placeholder that was appended for it. -/
theorem compile_of_plain_names (d : Dialect) (log : Bool) (q : Query)
    (hbare : ∀ name ∈ q.target.bareNames, Region.Plain name.toList) :
    (∀ e, q.compile d log ≠ .error (.statement e)) ∧
      ∀ s, q.compile d log = .ok s → placeholderCount s.text = s.values.length ∧
        ∃ draft, q.draft d = .ok draft ∧ s = draft.finish log ∧ s.Binds draft.bindings := by
  have haligned : ∀ draft, q.draft d = .ok draft → draft.Aligned := fun draft hdraft =>
    Draft.aligned_of_neutral ((Query.madeOf_of_draft_eq_ok hdraft).neutral hbare)
  constructor
  · intro e he
    obtain ⟨draft, hdraft, hne⟩ := Query.draft_of_compile_eq_error he
    obtain ⟨hstray, hhidden⟩ := draft.aligned_iff.mp (haligned draft hdraft)
    exact hne (hstray.trans hhidden.symm)
  · intro s hs
    obtain ⟨draft, hdraft, heq, rfl⟩ := Query.compile_eq_ok_iff.mp hs
    have hcount := draft.placeholderCount_eq_iff.mpr heq
    have hbinds := (draft.binds_finish_iff log).mpr (haligned draft hdraft)
    exact ⟨hcount, draft, hdraft, rfl, hbinds⟩

/-- A table whose quoted names hold quotes and question marks. -/
def quotedOrders : Metamodel where
  entity := "Order"
  table := { name := "who's\"next?", schema := some "?", quoted := true }
  columns := [
    { path := "id", name := "id", column := "a\x60?", quoted := true, generation := none },
    { path := "total", name := "total", column := "total", quoted := false, generation := none }]
  slots := { ids := [0] }
  identifierLess := false
  embedded := []

/-- The first three orders with this identifier or with a total between 1 and 2. -/
def quotedOrdersQuery : Query :=
  .select {
    target := quotedOrders
    criteria := {
      restrictions := [.test (.compare .eq "id" (.integer 7)),
        .group .or [.test (.between false "total" (.integer 1) (.integer 2))]]
      order := [{ property := "id", direction := .desc }]
      limit := some 3 } }

theorem quotedOrdersQuery_binds :
    (∀ name ∈ quotedOrders.bareNames, Region.Plain name.toList) ∧
      ∃ draft : Draft, quotedOrdersQuery.compile .mysql false = .ok (draft.finish false) ∧
        draft.values = [.integer 7, .integer 1, .integer 2, .count 3] ∧
        (draft.finish false).Binds draft.bindings := by
  have hbare : ∀ name ∈ quotedOrders.bareNames, Region.Plain name.toList := by decide
  obtain ⟨draft, hdraft, hvalues, heq⟩ : ∃ draft, quotedOrdersQuery.draft .mysql = .ok draft ∧
      draft.values = [.integer 7, .integer 1, .integer 2, .count 3] ∧
      draft.stray = draft.hidden := ⟨_, rfl, rfl, by decide⟩
  have hcompile : quotedOrdersQuery.compile .mysql false = .ok (draft.finish false) :=
    Query.compile_of_draft hdraft heq
  obtain ⟨-, other, hother, -, hbinds⟩ :=
    (compile_of_plain_names .mysql false quotedOrdersQuery hbare).2 _ hcompile
  cases Except.ok.inj (hdraft.symm.trans hother)
  exact ⟨hbare, draft, hcompile, hvalues, hbinds⟩

/-- A compiled statement can bind a value to the wrong place, and does exactly if its names bring
in as many placeholders as they hide. The ones come in with any mapped name that has a question
mark; the others are hidden by bare names that leave a quote open. -/
theorem compile_binds_iff (d : Dialect) (log : Bool) (q : Query) :
    ((∀ s, q.compile d log = .ok s →
        ∃ draft, q.draft d = .ok draft ∧ s = draft.finish log ∧ s.Binds draft.bindings) ↔
      ∀ draft, q.draft d = .ok draft → draft.stray = draft.hidden → draft.stray = 0) ∧
    ∀ draft, q.draft d = .ok draft →
      (0 < draft.stray → ∃ name ∈ d.mappedNames q.target, '?' ∈ name.toList) ∧
      (0 < draft.hidden → ∃ name ∈ q.target.bareNames, ¬Region.Balanced name.toList) := by
  refine ⟨⟨?_, ?_⟩, ?_⟩
  · intro hbinds draft hdraft heq
    obtain ⟨other, hother, -, hbinds⟩ := hbinds _ (Query.compile_of_draft hdraft heq)
    cases Except.ok.inj (hdraft.symm.trans hother)
    exact (draft.aligned_iff.mp ((draft.binds_finish_iff log).mp hbinds)).1
  · intro hzero s hs
    obtain ⟨draft, hdraft, heq, rfl⟩ := Query.compile_eq_ok_iff.mp hs
    have hstray := hzero draft hdraft heq
    have haligned := draft.aligned_iff.mpr ⟨hstray, heq.symm.trans hstray⟩
    exact ⟨draft, hdraft, rfl, (draft.binds_finish_iff log).mpr haligned⟩
  · intro draft hdraft
    have hmade := Query.madeOf_of_draft_eq_ok hdraft
    exact ⟨hmade.name_of_stray, hmade.name_of_hidden⟩

/-- A table that opens a quote and a column with a question mark. -/
def openQuote : Descriptor where
  name := "T"
  table := some { name := "t'" }
  members := [.property "x" [.id, .column (some "x?") false]]

def openQuoteQuery (m : Metamodel) : Query :=
  .select {
    target := m
    criteria := { restrictions := [.test (.compare .eq "x" (.integer 1))] } }

/-- The first question mark of the text belongs to the column and the last one is quoted. -/
theorem openQuote_misbinds :
    ∃ m draft s, Metamodel.ofDescriptor openQuote = .ok m ∧
      (openQuoteQuery m).draft .generic = .ok draft ∧
      (openQuoteQuery m).compile .generic true = .ok s ∧
      s = draft.finish true ∧ s.text = "SELECT x? FROM t' WHERE x? = ?" ∧
      ¬s.Binds draft.bindings := by
  refine ⟨_, _, _, rfl, rfl, rfl, rfl, rfl, ?_⟩
  intro h
  exact absurd h.1 (by decide)

end EntitySql
