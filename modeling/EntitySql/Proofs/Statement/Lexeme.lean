import EntitySql.Proofs.Statement.Alignment

/-!
Lexemes of SQL text. A lexer that knows escapes looks at the character after each quote inside of a
region: two of them are an escaped quote, and only a single one closes the region. A scan knows
nothing of escapes and looks at no character but the current one. It still finds the same characters
quoted, in every text, since it leaves a region at the first of two quotes and is back at the
second.
-/

namespace EntitySql

/-- What a lexer that knows escapes tells apart. -/
inductive Lexeme
  | outside (c : Char)
  | opening (quote : Char)
  | inside (c : Char)
  /-- Two quotes that stand for one. -/
  | escaped (quote : Char)
  | closing (quote : Char)
  deriving DecidableEq, Repr

namespace Lexeme

def marks : Lexeme → List (Char × Bool)
  | outside c => [(c, false)]
  | opening c | inside c | closing c => [(c, true)]
  | escaped quote => [(quote, true), (quote, true)]

def after : Region → Lexeme → Region
  | _, opening quote => some quote
  | _, closing _ => none
  | r, outside _ | r, inside _ | r, escaped _ => r

def ofChars : Region → List Char → List Lexeme
  | _, [] => []
  | none, c :: rest =>
    if c ∈ ['\'', '"', '\x60'] then opening c :: ofChars (some c) rest
    else outside c :: ofChars none rest
  | some quote, [c] => if c = quote then [closing quote] else [inside c]
  | some quote, c :: next :: rest =>
    if c = quote then
      if next = quote then escaped quote :: ofChars (some quote) rest
      else closing quote :: ofChars none (next :: rest)
    else inside c :: ofChars (some quote) (next :: rest)

end Lexeme

namespace Region

private theorem marks_doubled {quote : Char} (hquote : isQuote quote = true) (rest : List Char) :
    marks (some quote) (quote :: quote :: rest) =
      (Lexeme.escaped quote).marks ++ marks (some quote) rest := by
  simp [Lexeme.marks, next, covers, hquote]

private theorem after_doubled {quote : Char} (hquote : isQuote quote = true) (rest : List Char) :
    after (some quote) (quote :: quote :: rest) = after (some quote) rest := by
  simp [next, hquote]

end Region

private theorem isQuote_iff_mem (c : Char) : isQuote c = true ↔ c ∈ ['\'', '"', '\x60'] := by
  simp [isQuote, or_assoc]

namespace Lexeme

theorem ofChars_agrees {r : Region} (hr : ∀ quote, r = some quote → isQuote quote = true)
    (chars : List Char) :
    (ofChars r chars).flatMap marks = r.marks chars ∧
      (ofChars r chars).foldl after r = r.after chars := by
  fun_induction ofChars r chars with
  | case1 r => exact ⟨rfl, rfl⟩
  | case2 c rest hc ih =>
    have hquote : isQuote c = true := (isQuote_iff_mem c).mpr hc
    obtain ⟨hmarks, hafter⟩ := ih fun quote hopen => Option.some.inj hopen ▸ hquote
    have hnext : Region.next none c = some c := by simp [Region.next, hquote]
    have hcovers : Region.covers none c = true := by simp [Region.covers, hquote]
    rw [Region.marks_cons, Region.after_cons, hnext, hcovers]
    exact ⟨congrArg ((c, true) :: ·) hmarks, hafter⟩
  | case3 c rest hc ih =>
    have hquote : ¬isQuote c = true := fun h => hc ((isQuote_iff_mem c).mp h)
    obtain ⟨hmarks, hafter⟩ := ih (by simp)
    have hnext : Region.next none c = none := by simp [Region.next, hquote]
    have hcovers : Region.covers none c = false := by simp [Region.covers, hquote]
    rw [Region.marks_cons, Region.after_cons, hnext, hcovers]
    exact ⟨congrArg ((c, false) :: ·) hmarks, hafter⟩
  | case4 quote => simp [marks, after, Region.next, Region.covers]
  | case5 quote c hc => simp [marks, after, Region.next, Region.covers, hc]
  | case6 quote rest ih =>
    obtain ⟨hmarks, hafter⟩ := ih hr
    have hquote : isQuote quote = true := hr quote rfl
    rw [Region.marks_doubled hquote, Region.after_doubled hquote]
    exact ⟨congrArg ((escaped quote).marks ++ ·) hmarks, hafter⟩
  | case7 quote next rest hnext ih =>
    obtain ⟨hmarks, hafter⟩ := ih (by simp)
    have hleft : Region.next (some quote) quote = none := by simp [Region.next]
    rw [Region.marks_cons, Region.after_cons, hleft]
    exact ⟨congrArg ((quote, true) :: ·) hmarks, hafter⟩
  | case8 quote c next rest hc ih =>
    obtain ⟨hmarks, hafter⟩ := ih hr
    have hkept : Region.next (some quote) c = some quote := by simp [Region.next, hc]
    rw [Region.marks_cons, Region.after_cons, hkept]
    exact ⟨congrArg ((c, true) :: ·) hmarks, hafter⟩

private theorem countP_marks (lexeme : Lexeme) :
    lexeme.marks.countP isPlaceholder = if lexeme = outside '?' then 1 else 0 := by
  cases lexeme with
  | outside c => by_cases hc : c = '?' <;> simp [marks, isPlaceholder, hc]
  | opening c | inside c | closing c | escaped c => simp [marks, isPlaceholder]

theorem countP_flatMap_marks (lexemes : List Lexeme) :
    (lexemes.flatMap marks).countP isPlaceholder = lexemes.count (outside '?') := by
  induction lexemes with
  | nil => rfl
  | cons first rest ih =>
    rw [List.flatMap_cons, List.countP_append, countP_marks, ih, List.count_cons, Nat.add_comm]
    simp only [beq_iff_eq]

/-- A scan finds quoted just what a lexer finds quoted that knows escapes, also in a text that ends
inside of a region, and both end in the same region. So the placeholders are the question marks that
the lexer leaves outside. -/
theorem scan_needs_no_escapes (text : String) :
    let lexemes := ofChars none text.toList
    lexemes.flatMap marks = Region.marks none text.toList ∧
      lexemes.foldl after none = Region.after none text.toList ∧
      placeholderCount text = lexemes.count (outside '?') := by
  obtain ⟨hmarks, hafter⟩ := ofChars_agrees (r := none) (by simp) text.toList
  exact ⟨hmarks, hafter, by rw [placeholderCount, ← hmarks, countP_flatMap_marks]⟩

/-- Five quotes in a row: one opens a region, and the others are escapes, so it stays open. -/
example : ofChars none "''''' ?".toList =
    [.opening '\'', .escaped '\'', .escaped '\'', .inside ' ', .inside '?'] :=
  rfl

end Lexeme
end EntitySql
