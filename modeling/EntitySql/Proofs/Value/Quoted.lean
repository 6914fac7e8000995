import EntitySql.Proofs.Statement.Alignment
import EntitySql.Query.Clause

/-!
Quoted text read back. A reader that knows nothing but the quote character finds the end of a quoted
text and what it holds: a doubled quote stands for one, and a single one ends the text. So a quoted
name cannot break out of its quotes, and a scan for placeholders, which does not look ahead, agrees
on where they end.
-/

namespace EntitySql

namespace Quoted

/-- Reads on after the opening quote, up to the closing one and what follows it. -/
def readInside? (quote : Char) : List Char → Option (List Char × List Char)
  | [] => none
  | [c] => if c = quote then some ([], []) else none
  | c :: next :: rest =>
    if c = quote then
      if next = quote then (readInside? quote rest).map (Prod.map (c :: ·) id)
      else some ([], next :: rest)
    else (readInside? quote (next :: rest)).map (Prod.map (c :: ·) id)

def read? (quote : Char) : List Char → Option (List Char × List Char)
  | [] => none
  | c :: rest => if c = quote then readInside? quote rest else none

private theorem readInside?_cons {quote c : Char} (hc : c ≠ quote) (rest : List Char) :
    readInside? quote (c :: rest) = (readInside? quote rest).map (Prod.map (c :: ·) id) := by
  cases rest with
  | nil => simp [readInside?, hc]
  | cons next more => simp [readInside?, hc]

private theorem readInside?_quote {quote : Char} {rest : List Char}
    (hrest : rest.head? ≠ some quote) :
    readInside? quote (quote :: rest) = some ([], rest) := by
  cases rest with
  | nil => simp [readInside?]
  | cons next more =>
    have hnext : next ≠ quote := by simpa using hrest
    simp [readInside?, hnext]

private theorem readInside?_double {quote : Char} (chars : List Char) {rest : List Char}
    (hrest : rest.head? ≠ some quote) :
    readInside? quote (double quote chars ++ quote :: rest) = some (chars, rest) := by
  induction chars with
  | nil => exact readInside?_quote hrest
  | cons c more ih =>
    by_cases hc : c = quote
    · subst hc
      simp [double, readInside?, ih]
    · simp [double, hc, readInside?_cons hc, ih]

private theorem eq_of_readInside? {quote : Char} {text chars rest : List Char}
    (h : readInside? quote text = some (chars, rest)) :
    text = double quote chars ++ quote :: rest ∧ rest.head? ≠ some quote := by
  fun_induction readInside? quote text generalizing chars rest with
  | case1 => cases h
  | case2 =>
    cases h
    exact ⟨rfl, by simp⟩
  | case3 => cases h
  | case4 more ih =>
    obtain ⟨⟨read, after⟩, hread, heq⟩ := Option.map_eq_some_iff.mp h
    cases heq
    obtain ⟨rfl, hafter⟩ := ih hread
    exact ⟨by simp [double], hafter⟩
  | case5 next more hnext =>
    cases h
    exact ⟨rfl, by simpa using hnext⟩
  | case6 c next more hc ih =>
    obtain ⟨⟨read, after⟩, hread, heq⟩ := Option.map_eq_some_iff.mp h
    cases heq
    obtain ⟨htext, hafter⟩ := ih hread
    exact ⟨by simp [double, hc, htext], hafter⟩

theorem read?_eq_some_iff {quote : Char} {text chars rest : List Char} :
    read? quote text = some (chars, rest) ↔
      text = enclose quote chars ++ rest ∧ rest.head? ≠ some quote := by
  constructor
  · intro h
    cases text with
    | nil => cases h
    | cons c more =>
      by_cases hc : c = quote
      · subst hc
        obtain ⟨rfl, hrest⟩ := eq_of_readInside? (by simpa [read?] using h)
        exact ⟨by simp [enclose], hrest⟩
      · simp [read?, hc] at h
  · rintro ⟨rfl, hrest⟩
    simpa [read?, enclose] using readInside?_double chars hrest

/-- A quoted text ends at the first quote that no other one follows. -/
theorem double_cut {quote : Char} {left right after after' : List Char}
    (hafter : after.head? ≠ some quote) (hafter' : after'.head? ≠ some quote)
    (h : double quote left ++ quote :: after = double quote right ++ quote :: after') :
    left = right ∧ after = after' := by
  have hread := readInside?_double left hafter
  rw [h, readInside?_double right hafter'] at hread
  exact Prod.mk.inj (Option.some.inj hread.symm)

theorem enclose_injective (quote : Char) : Function.Injective (enclose quote) := by
  intro left right h
  have hinside : double quote left ++ [quote] = double quote right ++ [quote] :=
    (List.cons.inj h).2
  exact (double_cut (by simp) (by simp) hinside).1

end Quoted

namespace Dialect

/-- What stands after the first name of a quoted table: the end, or the other name. -/
theorem read?_tableDraft (d : Dialect) (schema : Option String) (name : String) :
    Quoted.read? d.identifierQuote (d.tableDraft ⟨name, schema, true⟩).text.toList =
      some ((schema.getD name).toList, schema.elim [] fun _ =>
        '.' :: Quoted.enclose d.identifierQuote name.toList) := by
  rw [Quoted.read?_eq_some_iff]
  cases schema with
  | none => simp [tableDraft, enquote, quoteIdentifier]
  | some schema =>
    constructor
    · simp [tableDraft, enquote, quoteIdentifier]
    · cases d <;> simp [identifierQuote]

/-- A quoted name is one token that holds the name, for a reader that undoes the doubling of quotes
as for a scan that does not, and two quoted names of a table stay apart. -/
theorem quoteIdentifier_is_token (d : Dialect) :
    (∀ (name : String) (text rest : List Char),
      Quoted.read? d.identifierQuote text = some (name.toList, rest) ↔
        text = (d.quoteIdentifier name).toList ++ rest ∧ rest.head? ≠ some d.identifierQuote) ∧
    (∀ name, (∀ mark ∈ Region.marks none (d.quoteIdentifier name).toList, mark.2 = true) ∧
      Region.after none (d.quoteIdentifier name).toList = none) ∧
    Function.Injective fun (place : Option String × String) =>
      (d.tableDraft ⟨place.2, place.1, true⟩).text := by
  have hchars : ∀ name, (d.quoteIdentifier name).toList =
      Quoted.enclose d.identifierQuote name.toList := fun name => by simp [quoteIdentifier]
  refine ⟨fun name text rest => ?_, fun name => ?_, ?_⟩
  · rw [hchars, Quoted.read?_eq_some_iff]
  · rw [hchars]
    exact ⟨Region.covered_enclose d.isQuote_identifierQuote name.toList,
      (Region.neutral_enclose d.isQuote_identifierQuote name.toList).balanced⟩
  · rintro ⟨schema, name⟩ ⟨schema', name'⟩ h
    have hread := d.read?_tableDraft schema name
    rw [show (d.tableDraft ⟨name, schema, true⟩).text = _ from h, d.read?_tableDraft] at hread
    obtain ⟨hfirst, hafter⟩ := Prod.mk.inj (Option.some.inj hread)
    have hfirst := String.toList_inj.mp hfirst
    cases schema <;> cases schema' <;> simp at hafter hfirst ⊢
    · exact hfirst.symm
    · exact ⟨hfirst.symm, String.toList_inj.mp (Quoted.enclose_injective _ hafter.symm)⟩

/-- A name that looks like a schema and a table, with the end of one quoted name between them. -/
example :
    (generic.tableDraft ⟨"b", some "a", true⟩).text = "\"a\".\"b\"" ∧
      (generic.tableDraft ⟨"a\".\"b", none, true⟩).text = "\"a\"\".\"\"b\"" :=
  ⟨rfl, rfl⟩

end Dialect
end EntitySql
