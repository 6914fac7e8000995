import EntitySql.Proofs.Query.Account
import EntitySql.Proofs.Query.Binding

/-!
The making of drafts. A draft is made in steps, and a step may append a draft that was made in the
same way. Each step does to the pieces what it does to a buffer that has the text and the values
side by side. If no step brings in a placeholder or leaves a quote open, then after each of them the
placeholders are those of the values bound so far, so a check of their number finds nothing.
-/

namespace EntitySql

/-- A statement under construction as its text and its values, which nothing but the operations
keeps in step. -/
structure Buffer where
  text : String := ""
  values : List Value := []

namespace Buffer

def push (buffer : Buffer) (text : String) : Buffer :=
  { buffer with text := buffer.text ++ text }

def bind (buffer : Buffer) (value : Value) : Buffer where
  text := buffer.text.push '?'
  values := buffer.values ++ [value]

/-- Binds a value, after a separator unless it is the first. -/
def bindNext (separator : String) (buffer : Buffer) (entry : Value × Nat) : Buffer :=
  (if 0 < entry.2 then buffer.push separator else buffer).bind entry.1

def bindAll (buffer : Buffer) (values : List Value) (separator : String) : Buffer :=
  values.zipIdx.foldl (bindNext separator) buffer

def append (buffer other : Buffer) : Buffer where
  text := buffer.text ++ other.text
  values := buffer.values ++ other.values

def paren (buffer : Buffer) : Buffer :=
  { buffer with text := "(" ++ buffer.text ++ ")" }

def build (buffer : Buffer) (log : Bool) : Except StatementError Statement :=
  Statement.make buffer.text buffer.values log

def finish (buffer : Buffer) (log : Bool) : Statement :=
  .unchecked buffer.text buffer.values log

end Buffer

namespace Draft

def buffer (draft : Draft) : Buffer where
  text := draft.text
  values := draft.values

private theorem text_sql (text : String) : (sql text).text = text := by
  rw [Draft.text, chars_sql, String.ofList_toList]

theorem buffer_append (left right : Draft) :
    (left ++ right).buffer = left.buffer.append right.buffer := by
  rw [buffer, text_append, values_append]
  rfl

theorem buffer_sql (draft : Draft) (text : String) :
    (draft ++ sql text).buffer = draft.buffer.push text := by
  rw [buffer, text_append, text_sql, values_append, values_sql, List.append_nil]
  rfl

theorem buffer_bind (draft : Draft) (value : Value) :
    (draft ++ bind value).buffer = draft.buffer.bind value := by
  rw [buffer, text_append, values_append, values_bind, Draft.text, Draft.text, chars_bind]
  rfl

/-- After its first value the loop does the same at every index. -/
private theorem foldl_bindNext (separator : String) (rest : List Value) (start : Nat)
    (draft : Draft) (value : Value) :
    (rest.zipIdx (start + 1)).foldl (Buffer.bindNext separator) (draft ++ bind value).buffer =
      (draft ++ bindAll (value :: rest) separator).buffer := by
  induction rest generalizing start draft value with
  | nil => rfl
  | cons next rest ih =>
    have hnext : Buffer.bindNext separator (draft ++ bind value).buffer (next, start + 1) =
        (draft ++ bind value ++ sql separator ++ bind next).buffer := by
      rw [buffer_bind (draft ++ bind value ++ sql separator), buffer_sql]
      rfl
    rw [List.zipIdx_cons, List.foldl_cons, hnext, ih, append_assoc, append_assoc]
    rfl

theorem buffer_bindAll (draft : Draft) (values : List Value) (separator : String) :
    (draft ++ bindAll values separator).buffer = draft.buffer.bindAll values separator := by
  cases values with
  | nil =>
    rw [bindAll, List.map_nil, sepBy, append_empty]
    rfl
  | cons value rest =>
    rw [← foldl_bindNext separator rest 0 draft value, buffer_bind]
    rfl

theorem buffer_paren (draft : Draft) : draft.paren.buffer = draft.buffer.paren := by
  rw [paren, buffer, text_append, text_append, text_sql, text_sql, values_append, values_append,
    values_sql, values_sql, List.nil_append, List.append_nil]
  rfl

end Draft

inductive Drafting
  | push (text : String)
  | bind (value : Value)
  | bindAll (values : List Value) (separator : String)
  /-- Appends a draft that is made by steps of its own. -/
  | append (steps : List Drafting)
  | paren

namespace Drafting

mutual

def apply (draft : Draft) : Drafting → Draft
  | push text => draft ++ .sql text
  | bind value => draft ++ .bind value
  | bindAll values separator => draft ++ .bindAll values separator
  | append steps => draft ++ applyAll ∅ steps
  | paren => draft.paren

def applyAll (draft : Draft) : List Drafting → Draft
  | [] => draft
  | first :: rest => applyAll (first.apply draft) rest

end

def make (steps : List Drafting) : Draft := applyAll ∅ steps

mutual

def fill (buffer : Buffer) : Drafting → Buffer
  | push text => buffer.push text
  | bind value => buffer.bind value
  | bindAll values separator => buffer.bindAll values separator
  | append steps => buffer.append (fillAll {} steps)
  | paren => buffer.paren

def fillAll (buffer : Buffer) : List Drafting → Buffer
  | [] => buffer
  | first :: rest => fillAll (first.fill buffer) rest

end

mutual

def bound : Drafting → List Value
  | bind value => [value]
  | bindAll values _ => values
  | append steps => boundAll steps
  | push _ | paren => []

def boundAll : List Drafting → List Value
  | [] => []
  | first :: rest => first.bound ++ boundAll rest

end

mutual

/-- The raw texts that are given to a step, separators among them. -/
def texts : Drafting → List String
  | push text => [text]
  | bindAll _ separator => [separator]
  | append steps => textsAll steps
  | bind _ | paren => []

def textsAll : List Drafting → List String
  | [] => []
  | first :: rest => first.texts ++ textsAll rest

end

private theorem textsAll_append (before after : List Drafting) :
    textsAll (before ++ after) = textsAll before ++ textsAll after := by
  induction before with
  | nil => rfl
  | cons first rest ih => rw [List.cons_append, textsAll, textsAll, ih, List.append_assoc]

/-! What steps do to a draft, one lemma for a step and one for all of them. -/

mutual

theorem buffer_apply (draft : Draft) (step : Drafting) :
    (step.apply draft).buffer = step.fill draft.buffer := by
  match step with
  | push text => exact draft.buffer_sql text
  | bind value => exact draft.buffer_bind value
  | bindAll values separator => exact draft.buffer_bindAll values separator
  | append steps =>
    rw [apply, fill, Draft.buffer_append, buffer_applyAll ∅ steps]
    rfl
  | paren => exact draft.buffer_paren

theorem buffer_applyAll (draft : Draft) (steps : List Drafting) :
    (applyAll draft steps).buffer = fillAll draft.buffer steps := by
  match steps with
  | [] => rfl
  | first :: rest => rw [applyAll, fillAll, buffer_applyAll, buffer_apply]

end

/-- The steps do to the text and the values of a draft what they do to those of a buffer, and it
makes no difference which of the two the statement is taken from. -/
theorem buffer_make (steps : List Drafting) :
    (make steps).buffer = fillAll {} steps ∧
      ∀ log, (make steps).build log = (fillAll {} steps).build log ∧
        (make steps).finish log = (fillAll {} steps).finish log := by
  have hbuffer : (make steps).buffer = fillAll {} steps := buffer_applyAll ∅ steps
  refine ⟨hbuffer, fun log => ?_⟩
  rw [← hbuffer]
  exact ⟨rfl, rfl⟩

mutual

theorem values_apply (draft : Draft) (step : Drafting) :
    (step.apply draft).values = draft.values ++ step.bound := by
  match step with
  | push text => simp [apply, bound]
  | bind value => simp [apply, bound]
  | bindAll values separator => simp [apply, bound]
  | append steps => simp [apply, bound, values_applyAll ∅ steps]
  | paren => simp [apply, bound]

theorem values_applyAll (draft : Draft) (steps : List Drafting) :
    (applyAll draft steps).values = draft.values ++ boundAll steps := by
  match steps with
  | [] => simp [applyAll, boundAll]
  | first :: rest =>
    rw [applyAll, boundAll, values_applyAll, values_apply, List.append_assoc]

end

mutual

theorem madeOf_apply {names : List String} {draft : Draft} (h : draft.MadeOf names)
    (step : Drafting) (hstep : step.texts ⊆ names) : (step.apply draft).MadeOf names := by
  match step with
  | push text => exact h.append (Draft.madeOf_name (hstep (List.mem_singleton_self text)))
  | bind value => exact h.append (Draft.madeOf_bind value)
  | bindAll values separator =>
    have hseparator : Draft.MadeOf names (.sql separator) :=
      Draft.madeOf_name (hstep (List.mem_singleton_self separator))
    exact h.append (hseparator.bindAll values)
  | append steps => exact h.append (madeOf_applyAll Draft.madeOf_empty steps hstep)
  | paren => exact h.paren

theorem madeOf_applyAll {names : List String} {draft : Draft} (h : draft.MadeOf names)
    (steps : List Drafting) (hsteps : textsAll steps ⊆ names) :
    (applyAll draft steps).MadeOf names := by
  match steps with
  | [] => exact h
  | first :: rest =>
    obtain ⟨hfirst, hrest⟩ := List.append_subset.mp hsteps
    exact madeOf_applyAll (madeOf_apply h first hfirst) rest hrest

end

end Drafting

namespace Draft

theorem balanced_of_neutral {draft : Draft}
    (h : ∀ text, .sql text ∈ draft.pieces → Region.Neutral text.toList) :
    Region.Balanced draft.chars := by
  obtain ⟨pieces⟩ := draft
  unfold chars
  induction pieces with
  | nil => rfl
  | cons piece rest ih =>
    have hpiece : Region.after none piece.chars = none := by
      cases piece with
      | sql text => exact (h text (List.mem_cons_self ..)).balanced
      | bound value => rfl
    rw [Region.Balanced, List.flatMap_cons, Region.after_append, hpiece]
    exact ih fun text htext => h text (List.mem_cons_of_mem _ htext)

/-- The check passes exactly if the numbers agree, and passes the draft on as it is. -/
theorem build_cases (draft : Draft) (log : Bool) :
    (placeholderCount draft.text = draft.values.length ∧
        draft.build log = .ok (draft.finish log)) ∨
      (placeholderCount draft.text ≠ draft.values.length ∧ draft.build log =
        .error (.placeholderMismatch (placeholderCount draft.text) draft.values.length)) := by
  unfold build Statement.make
  split
  next hcount => exact .inl ⟨hcount, rfl⟩
  next hcount => exact .inr ⟨hcount, rfl⟩

end Draft

namespace Drafting

/-- Whatever the steps, the draft has the text and the values of the buffer that they fill. If it
fails the check, it does so for numbers that are true, and if it passes, it becomes the statement
that it would be without the check. If the raw texts close the quotes that they open and have no
placeholder outside, then after each step the text is balanced and its placeholders are those of the
values bound so far, in order, and the check is passed. -/
theorem make_binds_in_step (steps : List Drafting) :
    (make steps).buffer = fillAll {} steps ∧
    (∀ log, let draft := make steps
      let placeholders := placeholderCount draft.text
      (placeholders = (boundAll steps).length ∧ draft.build log = .ok (draft.finish log)) ∨
        (placeholders ≠ (boundAll steps).length ∧ draft.build log =
          .error (.placeholderMismatch placeholders (boundAll steps).length))) ∧
    ((∀ text ∈ textsAll steps, Region.Neutral text.toList) →
      ∀ before after, steps = before ++ after → let draft := make before
        Region.Balanced draft.text.toList ∧ draft.values = boundAll before ∧
          placeholderCount draft.text = draft.values.length ∧
          ∀ log, draft.build log = .ok (draft.finish log) ∧
            (draft.finish log).Binds draft.bindings) := by
  have hvalues : ∀ steps, (make steps).values = boundAll steps := fun steps =>
    values_applyAll ∅ steps
  refine ⟨(buffer_make steps).1, ?_, ?_⟩
  · intro log
    rw [← hvalues steps]
    exact (make steps).build_cases log
  · rintro htexts before after rfl
    have hmade : (make before).MadeOf (textsAll before) :=
      madeOf_applyAll Draft.madeOf_empty before (List.Subset.refl _)
    have hneutral : ∀ text, .sql text ∈ (make before).pieces → Region.Neutral text.toList := by
      intro text htext
      rcases hmade text htext with hplain | hgiven
      · exact hplain.neutral
      · exact htexts text (textsAll_append before after ▸ List.mem_append_left _ hgiven)
    have haligned : (make before).Aligned := Draft.aligned_of_neutral hneutral
    obtain ⟨hstray, hhidden⟩ := (make before).aligned_iff.mp haligned
    have heq : (make before).stray = (make before).hidden := hstray.trans hhidden.symm
    refine ⟨?_, hvalues before, (make before).placeholderCount_eq_iff.mpr heq, fun log =>
      ⟨Draft.build_eq_ok_iff.mpr ⟨heq, rfl⟩, ((make before).binds_finish_iff log).mpr haligned⟩⟩
    rw [Draft.toList_text]
    exact Draft.balanced_of_neutral hneutral

/-- A condition whose quoted name, separators and values hold question marks and quotes. -/
def rowFilter : List Drafting :=
  [.push "\"a?\" = ", .bind (.text "it's?"), .push " AND ",
    .append [.push "b IN (", .bindAll [.integer 1, .integer 2] ", '?''', ", .push ")", .paren],
    .paren]

theorem rowFilter_binds_in_step :
    (∀ text ∈ textsAll rowFilter, Region.Neutral text.toList) ∧
      (make rowFilter).text = "(\"a?\" = ? AND (b IN (?, '?''', ?)))" ∧
      placeholderCount (make rowFilter).text = 3 ∧
      ∀ log, (make rowFilter).build log = .ok ((make rowFilter).finish log) ∧
        ((make rowFilter).finish log).Binds
          [(8, .text "it's?"), (21, .integer 1), (31, .integer 2)] := by
  have htexts : ∀ text ∈ textsAll rowFilter, Region.Neutral text.toList := by
    intro text htext
    have hlisted : textsAll rowFilter =
        ["\"a?\" = ", " AND ", "b IN (", ", '?''', ", ")"] := rfl
    simp only [hlisted, List.mem_cons, List.not_mem_nil, or_false] at htext
    rcases htext with rfl | rfl | rfl | rfl | rfl <;> exact ⟨rfl, by decide⟩
  obtain ⟨-, -, hneutral⟩ := make_binds_in_step rowFilter
  obtain ⟨-, hvalues, hcount, hbuilt⟩ := hneutral htexts rowFilter [] (List.append_nil _).symm
  exact ⟨htexts, rfl, by rw [hcount, hvalues]; rfl, hbuilt⟩

end Drafting
end EntitySql
