import EntitySql.Proofs.Value.Literal
import Mathlib.Data.List.Basic

/-!
The log text of a statement. It is the text of the statement with a literal at the place of each
placeholder and nothing else changed. Literals keep to themselves, so the quoted regions of the rest
stay where they are, and no placeholder is left that a second rendering would fill.
-/

namespace EntitySql

def placedValues (text : String) (values : List Value) : List (Nat × Value) :=
  (placeholderOffsets text).zip values

/-- What a log shows at a place of the text: the literal of the value placed there, if there is one,
and otherwise the character. -/
def shownAt (placed : List (Nat × Value)) (place : Nat) (c : Char) : List Char :=
  match placed.lookup place with
  | some value => value.datum.literalChars
  | none => [c]

private theorem shownAt_cons_self (place : Nat) (value : Value) (placed : List (Nat × Value))
    (c : Char) :
    shownAt ((place, value) :: placed) place c = value.datum.literalChars := by
  simp [shownAt]

private theorem shownAt_cons_of_ne {place other : Nat} (h : place ≠ other) (value : Value)
    (placed : List (Nat × Value)) (c : Char) :
    shownAt ((other, value) :: placed) place c = shownAt placed place c := by
  have hne : (place == other) = false := by simpa using h
  rw [shownAt, List.lookup_cons, hne, shownAt]

private theorem shownAt_of_not_mem {place : Nat} {placed : List (Nat × Value)}
    (h : place ∉ placed.map Prod.fst) (c : Char) : shownAt placed place c = [c] := by
  have hnone : placed.lookup place = none := by
    rw [List.lookup_eq_none_iff]
    intro entry hentry
    rw [bne_iff_ne]
    rintro rfl
    exact h (List.mem_map_of_mem hentry)
  rw [shownAt, hnone]

/-! Filling in, place by place. -/

theorem fillPlaceholders_cons {mark : Char × Bool} (h : isPlaceholder mark = false)
    (rest : List (Char × Bool)) (literals : List (List Char)) :
    fillPlaceholders (mark :: rest) literals = mark.1 :: fillPlaceholders rest literals := by
  cases literals <;> simp [fillPlaceholders, h]

theorem fillPlaceholders_placeholder {mark : Char × Bool} (h : isPlaceholder mark = true)
    (rest : List (Char × Bool)) (literal : List Char) (literals : List (List Char)) :
    fillPlaceholders (mark :: rest) (literal :: literals) =
      literal ++ fillPlaceholders rest literals := by
  simp [fillPlaceholders, h]

@[simp] theorem fillPlaceholders_nil (marks : List (Char × Bool)) :
    fillPlaceholders marks [] = marks.map Prod.fst := by
  induction marks with
  | nil => rfl
  | cons mark rest ih => rw [fillPlaceholders, ih, List.map_cons]

private theorem fillPlaceholders_of_unmarked {marks : List (Char × Bool)}
    (h : ∀ mark ∈ marks, isPlaceholder mark = false) (literals : List (List Char)) :
    fillPlaceholders marks literals = marks.map Prod.fst := by
  induction marks with
  | nil => rfl
  | cons mark rest ih =>
    obtain ⟨hmark, hrest⟩ := List.forall_mem_cons.mp h
    rw [fillPlaceholders_cons hmark, ih hrest, List.map_cons]

def placesFrom (first : Nat) (marks : List (Char × Bool)) : List Nat :=
  ((marks.zipIdx first).filter fun (mark, _) => isPlaceholder mark).map Prod.snd

private theorem placesFrom_cons (first : Nat) (mark : Char × Bool) (rest : List (Char × Bool)) :
    placesFrom first (mark :: rest) =
      (if isPlaceholder mark then [first] else []) ++ placesFrom (first + 1) rest := by
  cases h : isPlaceholder mark <;> simp [placesFrom, h]

private theorem le_of_mem_placesFrom {first place : Nat} {marks : List (Char × Bool)}
    (h : place ∈ placesFrom first marks) : first ≤ place := by
  obtain ⟨⟨mark, _⟩, hmark, rfl⟩ := List.mem_map.mp h
  exact List.le_snd_of_mem_zipIdx (List.mem_filter.mp hmark).1

/-- Filling in order puts every literal at the place of its placeholder. -/
theorem fillPlaceholders_eq_flatMap (marks : List (Char × Bool)) (values : List Value)
    (first : Nat) :
    fillPlaceholders marks (values.map (·.datum.literalChars)) =
      (marks.zipIdx first).flatMap fun entry =>
        shownAt ((placesFrom first marks).zip values) entry.2 entry.1.1 := by
  induction marks generalizing values first with
  | nil => rfl
  | cons mark rest ih =>
    have hplaces := placesFrom_cons first mark rest
    rw [List.zipIdx_cons, List.flatMap_cons]
    cases hmark : isPlaceholder mark with
    | false =>
      simp only [hmark, Bool.false_eq_true, ↓reduceIte, List.nil_append] at hplaces
      have hfirst : first ∉ ((placesFrom (first + 1) rest).zip values).map Prod.fst := by
        intro hmem
        obtain ⟨⟨_, value⟩, hentry, rfl⟩ := List.mem_map.mp hmem
        exact absurd (le_of_mem_placesFrom (List.of_mem_zip hentry).1) (Nat.not_succ_le_self _)
      rw [hplaces, shownAt_of_not_mem hfirst, fillPlaceholders_cons hmark, ih values (first + 1),
        List.singleton_append]
    | true =>
      simp only [hmark, ↓reduceIte, List.singleton_append] at hplaces
      cases values with
      | nil => simpa [shownAt] using ih [] (first + 1)
      | cons value others =>
        have hlater : ∀ entry ∈ rest.zipIdx (first + 1),
            shownAt ((first, value) :: (placesFrom (first + 1) rest).zip others) entry.2
                entry.1.1 =
              shownAt ((placesFrom (first + 1) rest).zip others) entry.2 entry.1.1 := by
          intro entry hentry
          have hle := List.le_snd_of_mem_zipIdx hentry
          exact shownAt_cons_of_ne (by omega) value _ _
        rw [hplaces, List.map_cons, fillPlaceholders_placeholder hmark, List.zip_cons_cons,
          shownAt_cons_self, List.flatMap_congr hlater, ih others (first + 1)]

theorem renderLog_eq_flatMap (text : String) (values : List Value) :
    renderLog text values = String.ofList (text.toList.zipIdx.flatMap fun (c, place) =>
      shownAt (placedValues text values) place c) := by
  have hchars : text.toList.zipIdx =
      (Region.marks none text.toList).zipIdx.map (Prod.map Prod.fst id) := by
    rw [← List.zipIdx_map, Region.map_fst_marks]
  rw [renderLog, fillPlaceholders_eq_flatMap _ _ 0, hchars, List.flatMap_map]
  rfl

/-! Scanning what was filled in. -/

/-- With a neutral literal for each placeholder, a scan ends as on the text itself, and meets no
placeholder on its way. -/
theorem Region.after_fillPlaceholders {r : Region} {chars : List Char}
    {literals : List (List Char)} (hneutral : ∀ literal ∈ literals, Neutral literal)
    (hcount : (r.marks chars).countP isPlaceholder = literals.length) :
    r.after (fillPlaceholders (r.marks chars) literals) = r.after chars ∧
      ∀ mark ∈ r.marks (fillPlaceholders (r.marks chars) literals), isPlaceholder mark = false := by
  induction chars generalizing r literals with
  | nil => exact ⟨rfl, by simp [fillPlaceholders]⟩
  | cons c rest ih =>
    rw [marks_cons, List.countP_cons] at hcount
    rw [marks_cons]
    cases hmark : isPlaceholder (c, r.covers c) with
    | false =>
      obtain ⟨hafter, hrest⟩ := ih hneutral (by simpa [hmark] using hcount)
      rw [fillPlaceholders_cons hmark, marks_cons, List.forall_mem_cons]
      exact ⟨hafter, hmark, hrest⟩
    | true =>
      -- A placeholder stands outside of regions, and so does what follows it.
      obtain ⟨rfl, hcovers⟩ : c = '?' ∧ r.covers c = false := by simpa [isPlaceholder] using hmark
      obtain rfl : r = none := by
        cases r with
        | none => rfl
        | some quote => cases hcovers
      have hnext : next none '?' = none := rfl
      rw [hnext] at hcount ⊢
      cases literals with
      | nil => simp [hmark] at hcount
      | cons literal others =>
        obtain ⟨hliteral, hothers⟩ := List.forall_mem_cons.mp hneutral
        obtain ⟨hafter, hrest⟩ := ih hothers (by simpa [hmark] using hcount)
        have hclosed : after none literal = none := hliteral.balanced
        rw [fillPlaceholders_placeholder hmark, after_append, marks_append, hclosed,
          List.forall_mem_append, after_cons, hnext]
        exact ⟨hafter, hliteral.unmarked, hrest⟩

theorem placeholderCount_eq_zero_iff {text : String} :
    placeholderCount text = 0 ↔
      ∀ mark ∈ Region.marks none text.toList, isPlaceholder mark = false := by
  simp [placeholderCount, List.countP_eq_zero]

theorem renderLog_eq_self {text : String} (h : placeholderCount text = 0) (values : List Value) :
    renderLog text values = text := by
  rw [renderLog, fillPlaceholders_of_unmarked (placeholderCount_eq_zero_iff.mp h),
    Region.map_fst_marks, String.ofList_toList]

/-- A log shows the text with the literal of each value at the place of its placeholder. It holds no
placeholder, so rendering it changes nothing, and it leaves open what the text leaves open. -/
theorem renderLog_in_place {text : String} {values : List Value}
    (hcount : placeholderCount text = values.length) :
    renderLog text values = String.ofList (text.toList.zipIdx.flatMap fun (c, place) =>
        shownAt (placedValues text values) place c) ∧
      placeholderCount (renderLog text values) = 0 ∧
      (∀ others, renderLog (renderLog text values) others = renderLog text values) ∧
      Region.after none (renderLog text values).toList = Region.after none text.toList := by
  have hneutral : ∀ literal ∈ values.map (·.datum.literalChars), Region.Neutral literal := by
    intro literal hliteral
    obtain ⟨value, -, rfl⟩ := List.mem_map.mp hliteral
    exact value.datum.neutral_literalChars
  have hlength : (Region.marks none text.toList).countP isPlaceholder =
      (values.map (·.datum.literalChars)).length := by
    rw [List.length_map]
    exact hcount
  obtain ⟨hafter, hunmarked⟩ := Region.after_fillPlaceholders hneutral hlength
  have hchars : (renderLog text values).toList = fillPlaceholders (Region.marks none text.toList)
      (values.map (·.datum.literalChars)) := by
    simp [renderLog]
  rw [← hchars] at hafter hunmarked
  have hnone := placeholderCount_eq_zero_iff.mpr hunmarked
  exact ⟨renderLog_eq_flatMap text values, hnone, renderLog_eq_self hnone, hafter⟩

/-- Placeholders right before and right after quoted text, and a quote that is never closed. -/
def closeQuarters : String := "?'x'? = \"b?\" || '?"

theorem closeQuarters_rendered :
    placeholderCount closeQuarters = 2 ∧
      renderLog closeQuarters [.text "a'?", .integer (-3)] = "'a''?''x'-3 = \"b?\" || '?" ∧
      placeholderCount "'a''?''x'-3 = \"b?\" || '?" = 0 ∧
      Region.after none "'a''?''x'-3 = \"b?\" || '?".toList = some '\'' := by
  have hcount : placeholderCount closeQuarters =
      ([.text "a'?", .integer (-3)] : List Value).length := rfl
  have hlog : renderLog closeQuarters [.text "a'?", .integer (-3)] =
      "'a''?''x'-3 = \"b?\" || '?" := rfl
  obtain ⟨-, hnone, -, hafter⟩ := renderLog_in_place hcount
  rw [hlog] at hnone hafter
  exact ⟨hcount, hlog, hnone, hafter⟩

end EntitySql
