import EntitySql.Proofs.Query.Binding
import EntitySql.Proofs.Statement.LogText
import EntitySql.Proofs.Value.Quoted

/-!
Queries for sequence values. A dialect has the name of the sequence stand in the text as it is
rendered, or once more enclosed, as a string literal. A scan takes a literal for one quoted region
whatever the name, so only a bare name can bring in a placeholder. A reader that undoes the quotes,
the outer ones first, comes back to the name.
-/

namespace EntitySql

theorem placeholderCount_eq_zero_of_neutral {text : String} (h : Region.Neutral text.toList) :
    placeholderCount text = 0 :=
  placeholderCount_eq_zero_iff.mpr h.unmarked

/-- A scan of what follows neutral text starts afresh. -/
theorem placeholderCount_append {front : String} (h : Region.Neutral front.toList)
    (back : String) : placeholderCount (front ++ back) = placeholderCount back := by
  have hafter : Region.after none front.toList = none := h.balanced
  have hfront : (Region.marks none front.toList).countP isPlaceholder = 0 :=
    List.countP_eq_zero.mpr fun mark hmark => by simp [h.unmarked mark hmark]
  rw [placeholderCount, String.toList_append, Region.marks_append, List.countP_append, hfront,
    hafter, Nat.zero_add, placeholderCount]

theorem placeholderCount_eq_zero_iff_quoted {text : String} :
    placeholderCount text = 0 ↔
      ∀ mark ∈ Region.marks none text.toList, mark.1 = '?' → mark.2 = true := by
  simp [placeholderCount_eq_zero_iff, isPlaceholder]

/-! What the dialects make of a rendered name. -/

namespace Dialect

def sequenceLiteral (sequence : String) : String :=
  String.ofList (Quoted.enclose '\'' sequence.toList)

private theorem sequenceSql?_postgres (sequence : String) :
    postgres.sequenceSql? sequence =
      some ("SELECT nextval(" ++ sequenceLiteral sequence ++ ")") := rfl

private theorem neutral_sequenceLiteral (sequence : String) :
    Region.Neutral (sequenceLiteral sequence).toList := by
  rw [sequenceLiteral, String.toList_ofList]
  exact Region.neutral_enclose (by decide) sequence.toList

private theorem placeholderCount_nextval (sequence : String) :
    placeholderCount ("SELECT nextval(" ++ sequenceLiteral sequence ++ ")") = 0 := by
  apply placeholderCount_eq_zero_of_neutral
  rw [String.toList_append, String.toList_append]
  have hopening : Region.Plain "SELECT nextval(".toList := by decide
  have hclosing : Region.Plain ")".toList := by decide
  exact (hopening.neutral.append (neutral_sequenceLiteral sequence)).append hclosing.neutral

private theorem placeholderCount_nextValue (sequence : String) :
    placeholderCount ("SELECT NEXT VALUE FOR " ++ sequence) = placeholderCount sequence := by
  have hfront : Region.Plain "SELECT NEXT VALUE FOR ".toList := by decide
  exact placeholderCount_append hfront.neutral sequence

end Dialect

namespace SequenceSpec

variable {d : Dialect} {log : Bool} {spec : SequenceSpec} {st : Statement}

/-- A statement is made of the text of the dialect alone, provided that it has no placeholder. -/
theorem statement_ok_iff :
    spec.statement d log = .ok st ↔
      ∃ sql, d.sequenceSql? (d.enquote spec.name spec.quoted) = some sql ∧
        placeholderCount sql = 0 ∧ st = .unchecked sql [] log := by
  unfold statement
  cases d.sequenceSql? (d.enquote spec.name spec.quoted) with
  | none => simp
  | some sql =>
    have htext : (Draft.sql sql).text = sql := by simp [Draft.text]
    rw [Except.mapError_eq_ok_iff, Draft.build, Statement.make_eq_ok_iff, htext,
      Draft.values_sql, List.length_nil]
    simp

theorem bare_of_statement (h : spec.statement d log = .ok st) :
    st.values = [] ∧ st.log = if log then some st.text else none := by
  obtain ⟨sql, -, hcount, rfl⟩ := statement_ok_iff.mp h
  refine ⟨rfl, ?_⟩
  rw [Statement.unchecked, renderLog_eq_self hcount]

/-- A sequence value is asked for where the dialect has sequences: by a function of one string
literal, which holds the rendered name and nothing else whatever the name, or by the rendered name
itself, which must not bring in a placeholder. Quotes are undone layer by layer. -/
theorem statement_by_dialect (spec : SequenceSpec) (log : Bool) :
    spec.statement .mysql log = .error (.unsupportedSequence .mysql spec.name) ∧
    (∃ st literal, spec.statement .postgres log = .ok st ∧
      st.text = "SELECT nextval(" ++ literal ++ ")" ∧
      (∀ mark ∈ Region.marks none literal.toList, mark.2 = true) ∧
      (∀ rest, rest.head? ≠ some '\'' → Quoted.read? '\'' (literal.toList ++ rest) =
        some ((Dialect.postgres.enquote spec.name spec.quoted).toList, rest)) ∧
      (spec.quoted = true → Quoted.read? '"'
        (Dialect.postgres.enquote spec.name spec.quoted).toList = some (spec.name.toList, []))) ∧
    ((∃ st, spec.statement .generic log = .ok st) ↔ spec.quoted = true ∨
      ∀ mark ∈ Region.marks none spec.name.toList, mark.1 = '?' → mark.2 = true) ∧
    ∀ d st, spec.statement d log = .ok st →
      st.values = [] ∧ st.log = if log then some st.text else none := by
  refine ⟨rfl, ?_, ?_, fun d st => bare_of_statement⟩
  · have hchars : ∀ sequence, (Dialect.sequenceLiteral sequence).toList =
        Quoted.enclose '\'' sequence.toList := fun sequence => by simp [Dialect.sequenceLiteral]
    refine ⟨_, Dialect.sequenceLiteral (Dialect.postgres.enquote spec.name spec.quoted),
      statement_ok_iff.mpr ⟨_, Dialect.sequenceSql?_postgres _,
        Dialect.placeholderCount_nextval _, rfl⟩, rfl, ?_, ?_, ?_⟩
    · rw [hchars]
      exact Region.covered_enclose (by decide) _
    · intro rest hrest
      rw [hchars, Quoted.read?_eq_some_iff]
      exact ⟨rfl, hrest⟩
    · intro hquoted
      rw [Quoted.read?_eq_some_iff, hquoted]
      simp [Dialect.enquote, Dialect.quoteIdentifier, Dialect.identifierQuote]
  · have hgeneric : (∃ st, spec.statement .generic log = .ok st) ↔
        placeholderCount (Dialect.generic.enquote spec.name spec.quoted) = 0 := by
      simp [statement_ok_iff, Dialect.sequenceSql?, Dialect.placeholderCount_nextValue]
    rw [hgeneric]
    cases hquoted : spec.quoted with
    | true =>
      have hneutral := Dialect.generic.neutral_quoteIdentifier spec.name
      exact iff_of_true (placeholderCount_eq_zero_of_neutral hneutral) (.inl rfl)
    | false =>
      rw [placeholderCount_eq_zero_iff_quoted]
      simp [Dialect.enquote]

/-- Both layers hold quotes of their own, and the question mark is inside of either. -/
example :
    statement .postgres true { name := "o'\"?", quoted := true } =
      .ok ⟨"SELECT nextval('\"o''\"\"?\"')", [], some "SELECT nextval('\"o''\"\"?\"')"⟩ :=
  rfl

end SequenceSpec
end EntitySql
