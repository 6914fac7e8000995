import EntitySql.Proofs.Statement.Alignment

/-!
Literals in front of a scan for placeholders. Numbers, dates and bytes are written in characters
that a scan need not look at, and text is enclosed in quotes. So a literal opens no region that it
does not close, and has no question mark outside of one, whatever the value.
-/

namespace EntitySql

namespace Region

private theorem plain_iff {chars : List Char} :
    Plain chars ↔ ∀ c ∈ chars, isQuote c = false ∧ c ≠ '?' := by
  constructor
  · rintro ⟨hquotes, hmark⟩ c hc
    exact ⟨hquotes c hc, fun heq => hmark (heq ▸ hc)⟩
  · intro h
    exact ⟨fun c hc => (h c hc).1, fun hmem => (h '?' hmem).2 rfl⟩

theorem Plain.subset {left right : List Char} (h : Plain right) (hsubset : left ⊆ right) :
    Plain left :=
  plain_iff.mpr fun c hc => plain_iff.mp h c (hsubset hc)

@[simp] theorem plain_nil : Plain [] := by
  decide

@[simp] theorem plain_cons_iff {c : Char} {rest : List Char} :
    Plain (c :: rest) ↔ (isQuote c = false ∧ c ≠ '?') ∧ Plain rest := by
  simp only [plain_iff, List.forall_mem_cons]

@[simp] theorem plain_append_iff {left right : List Char} :
    Plain (left ++ right) ↔ Plain left ∧ Plain right := by
  simp only [plain_iff, List.forall_mem_append]

theorem Plain.neutral_quoted {chars : List Char} (h : Plain chars) :
    Neutral ('\'' :: (chars ++ ['\''])) := by
  have hquote : '\'' ∉ chars := fun hmem => absurd (h.1 _ hmem) (by decide)
  have hneutral : Neutral (Quoted.enclose '\'' chars) := neutral_enclose (by decide) chars
  rwa [Quoted.enclose, Quoted.double_eq_self hquote] at hneutral

theorem Neutral.append {left right : List Char} (hleft : Neutral left) (hright : Neutral right) :
    Neutral (left ++ right) := by
  have hafter : after none left = none := hleft.balanced
  constructor
  · rw [Balanced, after_append, hafter]
    exact hright.balanced
  · rw [marks_append, hafter, List.forall_mem_append]
    exact ⟨hleft.unmarked, hright.unmarked⟩

end Region

open Region

/-! Numbers. -/

namespace Digits

theorem plain_nat (n : Nat) : Plain (nat n) := by
  rw [plain_iff]
  intro c hc
  have hdigit : c.isDigit = true := Nat.isDigit_of_mem_toDigits (by decide) (by decide) hc
  have hne : ∀ other, other.isDigit = false → c ≠ other := by
    rintro other hother rfl
    rw [hdigit] at hother
    contradiction
  refine ⟨?_, hne '?' (by decide)⟩
  simp [isQuote, hne '\'' (by decide), hne '"' (by decide), hne '\x60' (by decide)]

private theorem plain_padded (width n : Nat) : Plain (padded width n) := by
  unfold padded List.leftpad
  rw [plain_append_iff]
  refine ⟨plain_iff.mpr fun c hc => ?_, plain_nat n⟩
  rw [List.eq_of_mem_replicate hc]
  decide

theorem plain_int (n : Int) : Plain (int n) := by
  unfold int
  split
  · exact plain_cons_iff.mpr ⟨by decide, plain_nat _⟩
  · exact plain_nat _

private theorem plain_hexByte (b : UInt8) : Plain (hexByte b) := by
  have hdigit : ∀ n < 16, isQuote (hexDigit n) = false ∧ hexDigit n ≠ '?' := by decide
  have hbyte : b.toNat < 256 := b.toNat_lt
  have hhigh := hdigit (b.toNat / 16) (by omega)
  have hlow := hdigit (b.toNat % 16) (by omega)
  exact plain_cons_iff.mpr ⟨hhigh, plain_cons_iff.mpr ⟨hlow, plain_nil⟩⟩

theorem plain_hexBytes (data : List UInt8) : Plain (data.flatMap hexByte) := by
  rw [plain_iff]
  intro c hc
  obtain ⟨b, -, hc⟩ := List.mem_flatMap.mp hc
  exact plain_iff.mp (plain_hexByte b) c hc

end Digits

namespace Binary64

theorem Decimal.plain_chars (x : Decimal) : Plain x.chars := by
  unfold Decimal.chars
  dsimp only
  split
  · exact Digits.plain_nat _
  · refine plain_append_iff.mpr ⟨Digits.plain_nat _, plain_cons_iff.mpr ⟨by decide, ?_⟩⟩
    apply (Digits.plain_padded _ _).subset
    intro c hc
    rw [List.mem_reverse] at hc
    exact List.mem_reverse.mp (List.dropWhile_subset _ hc)

theorem plain_chars (x : Binary64) : Plain x.chars := by
  unfold chars
  dsimp only
  split
  · decide
  · have hmagnitude : Plain (if x.isInfinite then ['i', 'n', 'f']
        else if x.isZero then ['0'] else (shortest x.significand x.power).chars) := by
      split
      · decide
      · split
        · decide
        · exact Decimal.plain_chars _
    split
    · exact plain_cons_iff.mpr ⟨by decide, hmagnitude⟩
    · exact hmagnitude

end Binary64

/-! Dates and times. -/

theorem plain_yearChars (year : Int) : Plain (yearChars year) := by
  unfold yearChars
  split
  · exact Digits.plain_padded _ _
  · refine plain_cons_iff.mpr ⟨?_, Digits.plain_padded _ _⟩
    split <;> decide

theorem Date.plain_chars (d : Date) : Plain d.chars := by
  simp only [Date.chars, plain_append_iff, plain_cons_iff, plain_yearChars, Digits.plain_padded]
  decide

theorem TimeOfDay.plain_chars (t : TimeOfDay) : Plain t.chars := by
  unfold TimeOfDay.chars
  dsimp only
  split <;> simp only [plain_append_iff, plain_cons_iff, Digits.plain_padded] <;> decide

theorem Timestamp.plain_chars (t : Timestamp) : Plain t.chars := by
  simp only [Timestamp.chars, plain_append_iff, plain_cons_iff, t.date.plain_chars,
    t.time.plain_chars]
  decide

/-- A literal leaves a scan where it found it, and has no placeholder in it. -/
theorem Datum.neutral_literalChars (x : Datum) : Neutral x.literalChars := by
  cases x with
  | null => exact Plain.neutral (by decide)
  | bool b => cases b <;> exact Plain.neutral (by decide)
  | int n => exact (Digits.plain_int n.toInt).neutral
  | float x => exact x.plain_chars.neutral
  | text s => exact neutral_enclose (by decide) s.toList
  | bytes data =>
    have hprefix : Plain ['X'] := by decide
    exact hprefix.neutral.append (Digits.plain_hexBytes data).neutral_quoted
  | timestamp t => exact t.plain_chars.neutral_quoted
  | date d => exact d.plain_chars.neutral_quoted

end EntitySql
