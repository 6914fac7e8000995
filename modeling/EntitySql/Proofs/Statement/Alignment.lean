import EntitySql.Statement.Draft

/-!
Alignment of placeholders and values. A draft knows which characters its values put into the
text, and a scan of the text alone finds the question marks outside quoted regions. The two agree
unless raw text brings in question marks of its own or hides bound ones behind an open quote.
-/

namespace EntitySql

def placeholderOffsets (text : String) : List Nat :=
  ((Region.marks none text.toList).zipIdx.filter fun (mark, _) => isPlaceholder mark).map Prod.snd

/-- For each character of a piece the value that put it there, if one did. -/
def Piece.origins : Piece → List (Option Value)
  | .sql text => text.toList.map fun _ => none
  | .bound value => [some value]

private theorem Piece.length_origins (piece : Piece) :
    piece.origins.length = piece.chars.length := by
  cases piece with
  | sql text => simp [origins, chars]
  | bound value => rfl

abbrev Seen := (Char × Bool) × Option Value

namespace Seen

def isPlaceholder (c : Seen) : Bool := EntitySql.isPlaceholder c.1

def isBound (c : Seen) : Bool := c.2.isSome

end Seen

namespace Draft

def origins (draft : Draft) : List (Option Value) := draft.pieces.flatMap Piece.origins

/-- The bound values with the places of the placeholders that were appended for them. -/
def bindings (draft : Draft) : List (Nat × Value) :=
  draft.origins.zipIdx.filterMap fun (origin, place) => origin.map (place, ·)

/-- The placeholders of the text are those that were appended for the values, in their order. -/
def Aligned (draft : Draft) : Prop :=
  placeholderOffsets draft.text = draft.bindings.map Prod.fst

/-- The characters of pieces as a scan that starts in a region sees them. -/
def seenFrom (r : Region) (pieces : List Piece) : List Seen :=
  (r.marks (pieces.flatMap Piece.chars)).zip (pieces.flatMap Piece.origins)

def seen (draft : Draft) : List Seen := seenFrom none draft.pieces

/-- The number of placeholders in the text that no value put there. -/
def stray (draft : Draft) : Nat := draft.seen.countP fun c => c.isPlaceholder && !c.isBound

/-- The number of values whose placeholder is no placeholder of the text, since it is quoted. -/
def hidden (draft : Draft) : Nat := draft.seen.countP fun c => !c.isPlaceholder && c.isBound

end Draft

/-! Two ways to select from a list agree in the places they select exactly if they agree on every
member, and in number exactly if they have as many members of their own. -/

section
variable {α : Type}

private theorem places_eq_iff (p q : α → Bool) (l : List α) (k : Nat) :
    ((l.zipIdx k).filter fun (x, _) => p x).map Prod.snd =
        ((l.zipIdx k).filter fun (x, _) => q x).map Prod.snd ↔ ∀ x ∈ l, p x = q x := by
  induction l generalizing k with
  | nil => simp
  | cons x rest ih =>
    have hlater : ∀ r : α → Bool,
        k ∉ ((rest.zipIdx (k + 1)).filter fun (x, _) => r x).map Prod.snd := by
      intro r hmem
      obtain ⟨⟨y, place⟩, hy, hplace⟩ := List.mem_map.mp hmem
      have := List.le_snd_of_mem_zipIdx (List.mem_filter.mp hy).1
      simp only at hplace this
      omega
    have hp := hlater p
    have hq := hlater q
    cases hpx : p x <;> cases hqx : q x <;>
      simp only [List.zipIdx_cons, List.filter_cons, hpx, hqx, List.map_cons, List.mem_cons,
        forall_eq_or_imp, Bool.false_eq_true, ↓reduceIte, reduceCtorEq, false_and, true_and,
        iff_false, List.cons.injEq, ih]
    · intro heq
      rw [heq] at hp
      simp at hp
    · intro heq
      rw [← heq] at hq
      simp at hq

private theorem countP_add_countP (p q : α → Bool) (l : List α) :
    l.countP p + l.countP (fun x => !p x && q x) =
      l.countP q + l.countP (fun x => p x && !q x) := by
  induction l with
  | nil => rfl
  | cons x rest ih => cases hp : p x <;> cases hq : q x <;> simp [hp, hq] <;> omega

end

theorem Region.length_marks (r : Region) (chars : List Char) :
    (r.marks chars).length = chars.length := by
  have hlength := congrArg List.length (r.map_fst_marks chars)
  rwa [List.length_map] at hlength

namespace Draft

private theorem length_origins (draft : Draft) : draft.origins.length = draft.chars.length := by
  simp [origins, chars, List.length_flatMap, Piece.length_origins]

theorem map_fst_seen (draft : Draft) :
    draft.seen.map Prod.fst = Region.marks none draft.chars := by
  apply List.map_fst_zip
  rw [Region.length_marks]
  exact Nat.le_of_eq draft.length_origins.symm

theorem map_snd_seen (draft : Draft) : draft.seen.map Prod.snd = draft.origins := by
  apply List.map_snd_zip
  rw [Region.length_marks]
  exact Nat.le_of_eq draft.length_origins

private theorem reduceOption_origins (draft : Draft) :
    draft.origins.filterMap id = draft.values := by
  unfold origins values
  induction draft.pieces with
  | nil => rfl
  | cons piece rest ih =>
    have hpiece : piece.origins.filterMap id = piece.value?.toList := by
      cases piece with
      | sql text => simp [Piece.origins, Piece.value?]
      | bound value => rfl
    rw [List.flatMap_cons, List.filterMap_append, hpiece, ih]
    cases h : piece.value? <;> simp [h]

theorem map_snd_bindings (draft : Draft) : draft.bindings.map Prod.snd = draft.values := by
  rw [← reduceOption_origins]
  unfold bindings
  generalize 0 = place
  induction draft.origins generalizing place with
  | nil => rfl
  | cons origin rest ih => cases origin <;> simp [List.zipIdx_cons, ih]

theorem map_fst_bindings (draft : Draft) :
    draft.bindings.map Prod.fst =
      (draft.seen.zipIdx.filter fun (c, _) => c.isBound).map Prod.snd := by
  unfold bindings
  rw [← map_snd_seen]
  generalize 0 = place
  induction draft.seen generalizing place with
  | nil => rfl
  | cons c rest ih =>
    obtain ⟨mark, origin⟩ := c
    cases origin <;> simp [List.zipIdx_cons, Seen.isBound, ih]

theorem placeholderOffsets_text (draft : Draft) :
    placeholderOffsets draft.text =
      (draft.seen.zipIdx.filter fun (c, _) => c.isPlaceholder).map Prod.snd := by
  unfold placeholderOffsets
  rw [toList_text, ← map_fst_seen]
  generalize 0 = place
  induction draft.seen generalizing place with
  | nil => rfl
  | cons c rest ih =>
    cases h : isPlaceholder c.1 <;> simp [List.zipIdx_cons, Seen.isPlaceholder, h, ih]

theorem aligned_iff_forall (draft : Draft) :
    draft.Aligned ↔ ∀ c ∈ draft.seen, c.isPlaceholder = c.isBound := by
  unfold Aligned
  rw [placeholderOffsets_text, map_fst_bindings]
  exact places_eq_iff Seen.isPlaceholder Seen.isBound _ 0

theorem aligned_iff (draft : Draft) : draft.Aligned ↔ draft.stray = 0 ∧ draft.hidden = 0 := by
  rw [aligned_iff_forall, stray, hidden, List.countP_eq_zero, List.countP_eq_zero, ← forall_and]
  apply forall_congr'
  intro c
  cases c.isPlaceholder <;> cases c.isBound <;> simp

/-- The check on numbers passes exactly if as many placeholders are brought in as are hidden. -/
theorem placeholderCount_eq_iff (draft : Draft) :
    placeholderCount draft.text = draft.values.length ↔ draft.stray = draft.hidden := by
  have hplaceholders : placeholderCount draft.text = draft.seen.countP Seen.isPlaceholder := by
    rw [placeholderCount, toList_text, ← map_fst_seen, List.countP_map]
    rfl
  have hvalues : draft.values.length = draft.seen.countP Seen.isBound := by
    rw [← reduceOption_origins, List.length_filterMap_eq_countP, ← map_snd_seen, List.countP_map]
    rfl
  have hcount := countP_add_countP Seen.isPlaceholder Seen.isBound draft.seen
  rw [hplaceholders, hvalues, stray, hidden]
  omega

end Draft

/-! What raw text may hold decides what can go wrong. Text that leaves no region open hides no
placeholder, and text without placeholders of its own brings none in. -/

namespace Region

/-- Text that leaves every region that it opens. -/
def Balanced (chars : List Char) : Prop := after none chars = none

/-- Balanced text without a placeholder. -/
structure Neutral (chars : List Char) : Prop where
  balanced : Balanced chars
  unmarked : ∀ mark ∈ marks none chars, isPlaceholder mark = false

def Unquoted (chars : List Char) : Prop := ∀ c ∈ chars, isQuote c = false

instance (chars : List Char) : Decidable (Unquoted chars) :=
  List.decidableBAll (isQuote · = false) chars

/-- Text with neither quotes nor question marks, which a scan need not look at. -/
def Plain (chars : List Char) : Prop := Unquoted chars ∧ '?' ∉ chars

instance (chars : List Char) : Decidable (Plain chars) :=
  inferInstanceAs (Decidable (_ ∧ _))

theorem isQuote_of_after {r : Region} (hr : ∀ quote, r = some quote → isQuote quote = true)
    (chars : List Char) {quote : Char} (h : r.after chars = some quote) :
    isQuote quote = true := by
  have hstep : ∀ (r : Region) (c : Char), (∀ quote, r = some quote → isQuote quote = true) →
      ∀ quote, r.next c = some quote → isQuote quote = true := by
    intro r c hr quote hnext
    cases r with
    | none =>
      by_cases hc : isQuote c = true
      · have heq : c = quote := by simpa [next, hc] using hnext
        exact heq ▸ hc
      · simp [next, hc] at hnext
    | some opening =>
      by_cases hc : c = opening
      · simp [next, hc] at hnext
      · exact hr quote (by simpa [next, hc] using hnext)
  induction chars generalizing r with
  | nil => exact hr quote h
  | cons c rest ih => exact ih (hstep r c hr) h

theorem Unquoted.after_eq {r : Region} (hr : ∀ quote, r = some quote → isQuote quote = true)
    {chars : List Char} (h : Unquoted chars) : r.after chars = r := by
  induction chars with
  | nil => rfl
  | cons c rest ih =>
    have hc : isQuote c = false := h c (by simp)
    have hnext : r.next c = r := by
      cases r with
      | none => simp [next, hc]
      | some quote =>
        have hne : c ≠ quote := by
          rintro rfl
          simp [hr c rfl] at hc
        simp [next, hne]
    rw [after_cons, hnext]
    exact ih fun c hc => h c (by simp [hc])

theorem Unquoted.balanced {chars : List Char} (h : Unquoted chars) : Balanced chars :=
  h.after_eq (by simp)

theorem not_isPlaceholder_of_mem {r : Region} {chars : List Char} (h : '?' ∉ chars)
    {mark : Char × Bool} (hmark : mark ∈ r.marks chars) : isPlaceholder mark = false := by
  have hmem : mark.1 ∈ chars := by
    rw [← map_fst_marks r chars]
    exact List.mem_map_of_mem hmark
  have hne : mark.1 ≠ '?' := by
    intro heq
    exact h (heq ▸ hmem)
  simp [isPlaceholder, hne]

theorem Plain.neutral {chars : List Char} (h : Plain chars) : Neutral chars :=
  ⟨h.1.balanced, fun _ => not_isPlaceholder_of_mem h.2⟩

/-- A doubled quote leaves its region and enters it again, so doubling keeps the scan inside. -/
theorem after_double (quote : Char) (hquote : isQuote quote = true) (chars : List Char) :
    after (some quote) (Quoted.double quote chars) = some quote := by
  induction chars with
  | nil => rfl
  | cons c rest ih =>
    by_cases hc : c = quote
    · subst hc
      simp [Quoted.double, next, hquote, ih]
    · simp [Quoted.double, hc, next, ih]

private theorem covered_double (quote : Char) (hquote : isQuote quote = true) (chars : List Char) :
    ∀ mark ∈ marks (some quote) (Quoted.double quote chars), mark.2 = true := by
  induction chars with
  | nil => simp
  | cons c rest ih =>
    by_cases hc : c = quote
    · subst hc
      simpa [Quoted.double, next, covers, hquote] using ih
    · simpa [Quoted.double, hc, next, covers] using ih

theorem covered_enclose {quote : Char} (hquote : isQuote quote = true) (chars : List Char) :
    ∀ mark ∈ marks none (Quoted.enclose quote chars), mark.2 = true := by
  intro mark hmark
  simp only [Quoted.enclose, marks_cons, next, hquote, marks_append, after_double, covers,
    ↓reduceIte, marks_nil, List.mem_cons, List.mem_append, List.not_mem_nil, or_false] at hmark
  rcases hmark with rfl | hmark | rfl
  · rfl
  · exact covered_double quote hquote chars mark hmark
  · simp

theorem neutral_enclose {quote : Char} (hquote : isQuote quote = true) (chars : List Char) :
    Neutral (Quoted.enclose quote chars) := by
  constructor
  · unfold Balanced Quoted.enclose
    simp [next, hquote, after_append, after_double]
  · intro mark hmark
    simp [isPlaceholder, covered_enclose hquote chars mark hmark]

end Region

namespace Draft

theorem seenFrom_cons (r : Region) (piece : Piece) (rest : List Piece) :
    seenFrom r (piece :: rest) =
      (r.marks piece.chars).zip piece.origins ++ seenFrom (r.after piece.chars) rest := by
  unfold seenFrom
  rw [List.flatMap_cons, List.flatMap_cons, Region.marks_append, List.zip_append]
  rw [Region.length_marks, piece.length_origins]

/-- What each piece keeps of the region, and guarantees of its characters, holds throughout. -/
theorem forall_seenFrom (inv : Region → Prop) {good : Seen → Prop} {pieces : List Piece}
    (hpiece : ∀ piece ∈ pieces, ∀ r, inv r → inv (r.after piece.chars) ∧
      ∀ c ∈ (r.marks piece.chars).zip piece.origins, good c)
    {r : Region} (hr : inv r) : ∀ c ∈ seenFrom r pieces, good c := by
  induction pieces generalizing r with
  | nil => simp [seenFrom]
  | cons piece rest ih =>
    obtain ⟨hafter, hgood⟩ := hpiece piece (by simp) r hr
    have hrest := ih (fun other hother => hpiece other (by simp [hother])) hafter
    intro c hc
    rw [seenFrom_cons] at hc
    rcases List.mem_append.mp hc with hc | hc
    · exact hgood c hc
    · exact hrest c hc

theorem mem_seen_sql {r : Region} {text : String} {c : Seen}
    (hc : c ∈ (r.marks (Piece.sql text).chars).zip (Piece.sql text).origins) :
    c.1 ∈ r.marks text.toList ∧ c.isBound = false := by
  obtain ⟨mark, origin⟩ := c
  obtain ⟨hmark, horigin⟩ := List.of_mem_zip hc
  obtain ⟨_, _, rfl⟩ := List.mem_map.mp horigin
  exact ⟨hmark, rfl⟩

theorem mem_seen_bound {value : Value} {c : Seen}
    (hc : c ∈ (Region.marks none (Piece.bound value).chars).zip (Piece.bound value).origins) :
    c.isPlaceholder = true ∧ c.isBound = true := by
  cases List.mem_singleton.mp hc
  exact ⟨rfl, rfl⟩

/-- Raw text that leaves no region open hides no placeholder. -/
theorem hidden_eq_zero {draft : Draft}
    (h : ∀ text, .sql text ∈ draft.pieces → Region.Balanced text.toList) : draft.hidden = 0 := by
  have hseen : ∀ c ∈ draft.seen, c.isBound = true → c.isPlaceholder = true := by
    refine forall_seenFrom (· = none) ?_ rfl
    rintro (text | value) hmem r rfl
    · refine ⟨h text hmem, fun c hc hbound => ?_⟩
      simp [(mem_seen_sql hc).2] at hbound
    · exact ⟨rfl, fun c hc _ => (mem_seen_bound hc).1⟩
  rw [hidden, List.countP_eq_zero]
  intro c hc
  cases hbound : c.isBound with
  | false => simp
  | true => simp [hseen c hc hbound]

theorem stray_eq_zero {draft : Draft}
    (hseen : ∀ c ∈ draft.seen, c.isPlaceholder = true → c.isBound = true) : draft.stray = 0 := by
  rw [stray, List.countP_eq_zero]
  intro c hc
  cases hplaceholder : c.isPlaceholder with
  | false => simp
  | true => simp [hseen c hc hplaceholder]

theorem stray_eq_zero_of_neutral {draft : Draft}
    (h : ∀ text, .sql text ∈ draft.pieces → Region.Neutral text.toList) : draft.stray = 0 := by
  apply stray_eq_zero
  refine forall_seenFrom (· = none) ?_ rfl
  rintro (text | value) hmem r rfl
  · refine ⟨(h text hmem).balanced, fun c hc hplaceholder => ?_⟩
    rw [Seen.isPlaceholder, (h text hmem).unmarked _ (mem_seen_sql hc).1] at hplaceholder
    contradiction
  · exact ⟨rfl, fun c hc _ => (mem_seen_bound hc).2⟩

theorem stray_eq_zero_of_not_mem {draft : Draft}
    (h : ∀ text, .sql text ∈ draft.pieces → '?' ∉ text.toList) : draft.stray = 0 := by
  apply stray_eq_zero
  refine forall_seenFrom (fun _ => True) ?_ trivial
  rintro (text | value) hmem r -
  · refine ⟨trivial, fun c hc hplaceholder => ?_⟩
    rw [Seen.isPlaceholder, Region.not_isPlaceholder_of_mem (h text hmem) (mem_seen_sql hc).1]
      at hplaceholder
    contradiction
  · refine ⟨trivial, fun c hc _ => ?_⟩
    cases List.mem_singleton.mp hc
    rfl

theorem aligned_of_neutral {draft : Draft}
    (h : ∀ text, .sql text ∈ draft.pieces → Region.Neutral text.toList) : draft.Aligned :=
  draft.aligned_iff.mpr
    ⟨stray_eq_zero_of_neutral h, hidden_eq_zero fun text htext => (h text htext).balanced⟩

end Draft

end EntitySql
