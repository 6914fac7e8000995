import EntitySql.Proofs.Statement.LogText
import EntitySql.Proofs.Value.Quoted

/-!
Literals read back. A reader that knows how literals of text, bytes and integers are written, and
nothing of the value, finds the end of a literal and the value, whatever follows that does not go
on with it. So no bound value ends its literal early in a log, and different values are shown
differently.
-/

namespace EntitySql

namespace Digits

/-- The digits in front of a text, as a number, and what follows them. -/
def readNat? (chars : List Char) : Option (Nat × List Char) :=
  match chars.takeWhile Char.isDigit with
  | [] => none
  | digits => some (Nat.ofDigitChars 10 digits 0, chars.dropWhile Char.isDigit)

def readInt? (chars : List Char) : Option (Int × List Char) :=
  if chars.head? = some '-' then (readNat? chars.tail).map fun (n, rest) => (-(n : Int), rest)
  else (readNat? chars).map fun (n, rest) => ((n : Int), rest)

def hexValue? (c : Char) : Option Nat := "0123456789ABCDEF".toList.idxOf? c

def readHex? : List Char → Option (List UInt8)
  | [] => some []
  | [_] => none
  | high :: low :: rest => do
    let byte := UInt8.ofNat (16 * (← hexValue? high) + (← hexValue? low))
    return byte :: (← readHex? rest)

theorem readNat?_nat (n : Nat) {rest : List Char}
    (hrest : ∀ c, rest.head? = some c → c.isDigit = false) :
    readNat? (nat n ++ rest) = some (n, rest) := by
  have hdigits : ∀ c ∈ nat n, c.isDigit = true := fun c hc =>
    Nat.isDigit_of_mem_toDigits (by decide) (by decide) hc
  have hends : rest.takeWhile Char.isDigit = [] ∧ rest.dropWhile Char.isDigit = rest := by
    cases rest with
    | nil => exact ⟨rfl, rfl⟩
    | cons c more => simp [hrest c rfl]
  have htaken : (nat n ++ rest).takeWhile Char.isDigit = nat n := by
    rw [List.takeWhile_append_of_pos hdigits, hends.1, List.append_nil]
  have hleft : (nat n ++ rest).dropWhile Char.isDigit = rest := by
    rw [List.dropWhile_append_of_pos hdigits, hends.2]
  have hvalue : Nat.ofDigitChars 10 (nat n) 0 = n := Nat.ofDigitChars_ten_toDigits
  rw [readNat?, htaken, hleft]
  split
  next hnil => exact absurd hnil Nat.toDigits_ne_nil
  next => rw [hvalue]

private theorem head?_nat_append (n : Nat) (rest : List Char) :
    ∃ c, (nat n ++ rest).head? = some c ∧ c.isDigit = true := by
  match hdigits : nat n with
  | [] => exact absurd hdigits Nat.toDigits_ne_nil
  | c :: more =>
    have hc : c ∈ nat n := by simp [hdigits]
    exact ⟨c, rfl, Nat.isDigit_of_mem_toDigits (by decide) (by decide) hc⟩

private theorem head?_int_append (n : Int) (rest : List Char) :
    ∃ c, (int n ++ rest).head? = some c ∧ (c = '-' ∨ c.isDigit = true) := by
  unfold int
  split
  · exact ⟨'-', rfl, .inl rfl⟩
  · obtain ⟨c, hhead, hc⟩ := head?_nat_append n.natAbs rest
    exact ⟨c, hhead, .inr hc⟩

theorem readInt?_int (n : Int) {rest : List Char}
    (hrest : ∀ c, rest.head? = some c → c.isDigit = false) :
    readInt? (int n ++ rest) = some (n, rest) := by
  have hread := readNat?_nat n.natAbs hrest
  unfold int
  split
  next hneg =>
    have habs : -(n.natAbs : Int) = n := by omega
    rw [List.cons_append, readInt?, List.head?_cons, if_pos rfl, List.tail_cons, hread,
      Option.map_some]
    dsimp only
    rw [habs]
  next hneg =>
    have habs : (n.natAbs : Int) = n := by omega
    have hminus : (nat n.natAbs ++ rest).head? ≠ some '-' := by
      obtain ⟨c, hhead, hc⟩ := head?_nat_append n.natAbs rest
      rw [hhead]
      rintro ⟨⟩
      contradiction
    rw [readInt?, if_neg hminus, hread, Option.map_some]
    dsimp only
    rw [habs]

private theorem hexValue?_hexDigit {n : Nat} (h : n < 16) : hexValue? (hexDigit n) = some n := by
  have hall : ∀ n < 16, hexValue? (hexDigit n) = some n := by decide
  exact hall n h

theorem readHex?_hexBytes (data : List UInt8) : readHex? (data.flatMap hexByte) = some data := by
  induction data with
  | nil => rfl
  | cons byte rest ih =>
    have hbyte : byte.toNat < 256 := byte.toNat_lt
    have hwhole : 16 * (byte.toNat / 16) + byte.toNat % 16 = byte.toNat := by omega
    simp only [List.flatMap_cons, hexByte, List.cons_append, List.nil_append, readHex?,
      hexValue?_hexDigit (show byte.toNat / 16 < 16 by omega),
      hexValue?_hexDigit (show byte.toNat % 16 < 16 by omega), ih, hwhole, UInt8.ofNat_toNat,
      Option.bind_eq_bind, Option.bind_some, Option.pure_def]

end Digits

namespace Datum

def readText? (chars : List Char) : Option (Datum × List Char) :=
  (Quoted.read? '\'' chars).map fun (content, rest) => (.text (String.ofList content), rest)

def readBytes? : List Char → Option (Datum × List Char)
  | 'X' :: chars => do
    let (digits, rest) ← Quoted.read? '\'' chars
    return (.bytes (← Digits.readHex? digits), rest)
  | _ => none

/-- Integers outside of the 64-bit range are not read. -/
def readInteger? (chars : List Char) : Option (Datum × List Char) := do
  let (n, rest) ← Digits.readInt? chars
  if Int64.minValue.toInt ≤ n ∧ n ≤ Int64.maxValue.toInt then some (.int (Int64.ofInt n), rest)
  else none

/-- The literal of a text, of bytes or of an integer in front of a text, and what follows it. -/
def readLiteral? (chars : List Char) : Option (Datum × List Char) :=
  readText? chars <|> readBytes? chars <|> readInteger? chars

/-- Whether a literal is read up to what follows it: a quote would go on with a quoted one, and a
digit with a number. -/
def EndsBefore : Datum → List Char → Prop
  | text _, rest | bytes _, rest => rest.head? ≠ some '\''
  | int _, rest => ∀ c, rest.head? = some c → c.isDigit = false
  | null, _ | bool _, _ | float _, _ | timestamp _, _ | date _, _ => False

private theorem readText?_of_head {chars : List Char} (h : chars.head? ≠ some '\'') :
    readText? chars = none := by
  cases chars with
  | nil => rfl
  | cons c rest =>
    have hc : c ≠ '\'' := by simpa using h
    simp [readText?, Quoted.read?, hc]

private theorem readBytes?_of_head {chars : List Char} (h : chars.head? ≠ some 'X') :
    readBytes? chars = none := by
  unfold readBytes?
  split
  · exact absurd rfl h
  · rfl

theorem readText?_enclose (content : List Char) {rest : List Char}
    (hrest : rest.head? ≠ some '\'') :
    readText? (Quoted.enclose '\'' content ++ rest) =
      some (.text (String.ofList content), rest) := by
  have hread : Quoted.read? '\'' (Quoted.enclose '\'' content ++ rest) = some (content, rest) :=
    Quoted.read?_eq_some_iff.mpr ⟨rfl, hrest⟩
  rw [readText?, hread, Option.map_some]

theorem readBytes?_hexBytes (data : List UInt8) {rest : List Char}
    (hrest : rest.head? ≠ some '\'') :
    readBytes? ((bytes data).literalChars ++ rest) = some (.bytes data, rest) := by
  have hquote : '\'' ∉ data.flatMap Digits.hexByte := fun hmem =>
    absurd ((Digits.plain_hexBytes data).1 _ hmem) (by decide)
  have hliteral : (bytes data).literalChars ++ rest =
      'X' :: (Quoted.enclose '\'' (data.flatMap Digits.hexByte) ++ rest) := by
    rw [Quoted.enclose, Quoted.double_eq_self hquote]
    rfl
  have hread : Quoted.read? '\'' (Quoted.enclose '\'' (data.flatMap Digits.hexByte) ++ rest) =
      some (data.flatMap Digits.hexByte, rest) := Quoted.read?_eq_some_iff.mpr ⟨rfl, hrest⟩
  rw [hliteral, readBytes?, hread]
  simp only [Option.bind_eq_bind, Option.bind_some, Digits.readHex?_hexBytes, Option.pure_def]

theorem readInteger?_int (n : Int64) {rest : List Char}
    (hrest : ∀ c, rest.head? = some c → c.isDigit = false) :
    readInteger? ((int n).literalChars ++ rest) = some (.int n, rest) := by
  have hrange : Int64.minValue.toInt ≤ n.toInt ∧ n.toInt ≤ Int64.maxValue.toInt :=
    ⟨n.minValue_le_toInt, n.toInt_le⟩
  rw [literalChars, readInteger?, Digits.readInt?_int n.toInt hrest]
  simp only [Option.bind_eq_bind, Option.bind_some, if_pos hrange, Int64.ofInt_toInt]

/-- A literal is read up to its end, if what follows does not go on with it. -/
theorem readLiteral?_append {x : Datum} {rest : List Char} (h : x.EndsBefore rest) :
    readLiteral? (x.literalChars ++ rest) = some (x, rest) := by
  unfold readLiteral?
  cases x with
  | text s => simp [literalChars, readText?_enclose s.toList h]
  | bytes data =>
    have htext : readText? ((bytes data).literalChars ++ rest) = none :=
      readText?_of_head (by simp [literalChars])
    rw [htext, readBytes?_hexBytes data h]
    rfl
  | int n =>
    obtain ⟨c, hhead, hc⟩ := Digits.head?_int_append n.toInt rest
    have hother : ∀ other : Char, other ≠ '-' → other.isDigit = false →
        ((int n).literalChars ++ rest).head? ≠ some other := by
      intro other hminus hdigit heq
      rw [literalChars, hhead] at heq
      cases heq
      rcases hc with rfl | hc
      · contradiction
      · rw [hdigit] at hc
        contradiction
    have htext := readText?_of_head (hother '\'' (by decide) (by decide))
    have hbytes := readBytes?_of_head (hother 'X' (by decide) (by decide))
    rw [htext, hbytes, readInteger?_int n h]
    rfl
  | null | bool _ | float _ | timestamp _ | date _ => exact h.elim

end Datum

/-! Literals in a log. -/

/-- What stands in front takes literals for its own placeholders and leaves the others. -/
theorem fillPlaceholders_append (front back : List (Char × Bool)) (literals : List (List Char)) :
    fillPlaceholders (front ++ back) literals = fillPlaceholders front literals ++
      fillPlaceholders back (literals.drop (front.countP isPlaceholder)) := by
  induction front generalizing literals with
  | nil => simp [fillPlaceholders]
  | cons mark rest ih =>
    cases hmark : isPlaceholder mark with
    | false =>
      rw [List.cons_append, fillPlaceholders_cons hmark, fillPlaceholders_cons hmark, ih,
        List.cons_append, List.countP_cons_of_neg (by simp [hmark])]
    | true =>
      rw [List.cons_append, List.countP_cons_of_pos hmark]
      cases literals with
      | nil => simp
      | cons literal others =>
        rw [fillPlaceholders_placeholder hmark, fillPlaceholders_placeholder hmark, ih,
          List.append_assoc, List.drop_succ_cons]

theorem renderLog_append {left : String} (hleft : Region.Balanced left.toList) (right : String)
    (values : List Value) :
    renderLog (left ++ right) values =
      renderLog left values ++ renderLog right (values.drop (placeholderCount left)) := by
  have hafter : Region.after none left.toList = none := hleft
  rw [renderLog, String.toList_append, Region.marks_append, hafter, fillPlaceholders_append,
    String.ofList_append, ← List.map_drop]
  rfl

theorem renderLog_placeholder (value : Value) (values : List Value) :
    renderLog "?" (value :: values) = value.literal := by
  have hmarks : Region.marks none "?".toList = [('?', false)] := rfl
  rw [renderLog, hmarks, List.map_cons, fillPlaceholders_placeholder rfl]
  simp [fillPlaceholders, Value.literal]

/-- A log shows a value at its placeholder, between what comes before it and what comes after. -/
theorem renderLog_between {left right : String} (hleft : Region.Balanced left.toList)
    {values : List Value} {v : Value} (hv : values[placeholderCount left]? = some v) :
    renderLog (left ++ "?" ++ right) values = renderLog left values ++ v.literal ++
      renderLog right (values.drop (placeholderCount left + 1)) := by
  obtain ⟨hbound, rfl⟩ := List.getElem?_eq_some_iff.mp hv
  have hmark : Region.Balanced "?".toList := rfl
  have hcount : placeholderCount "?" = 1 := rfl
  rw [String.append_assoc, renderLog_append hleft, renderLog_append hmark,
    List.drop_eq_getElem_cons hbound, renderLog_placeholder, hcount, List.drop_succ_cons,
    List.drop_zero, String.append_assoc]

namespace Value

/-- A text, bytes or an integer is read back from its literal, whatever follows it that begins with
no quote or no digit. No two of them share a literal, and where a log shows one at its placeholder,
reading on from there finds that value and ends where the rest of the log begins. -/
theorem literals_read_back :
    (∀ v : Value, ∀ rest, v.datum.EndsBefore rest →
      Datum.readLiteral? (v.literal.toList ++ rest) = some (v.datum, rest)) ∧
    (∀ v w : Value, v.datum.EndsBefore [] → w.datum.EndsBefore [] → v.literal = w.literal →
      v.datum = w.datum) ∧
    ∀ (left right : String) (values : List Value) (v : Value), Region.Balanced left.toList →
      values[placeholderCount left]? = some v →
      let later := renderLog right (values.drop (placeholderCount left + 1))
      renderLog (left ++ "?" ++ right) values = renderLog left values ++ v.literal ++ later ∧
        (v.datum.EndsBefore later.toList →
          Datum.readLiteral? (v.literal ++ later).toList = some (v.datum, later.toList)) := by
  have hread : ∀ v : Value, ∀ rest, v.datum.EndsBefore rest →
      Datum.readLiteral? (v.literal.toList ++ rest) = some (v.datum, rest) := by
    intro v rest h
    rw [literal, String.toList_ofList]
    exact Datum.readLiteral?_append h
  refine ⟨hread, fun v w hv hw hliteral => ?_, fun left right values v hleft hv => ?_⟩
  · have hboth := hread v [] hv
    rw [hliteral, hread w [] hw] at hboth
    exact (Prod.mk.inj (Option.some.inj hboth)).1.symm
  · refine ⟨renderLog_between hleft hv, fun hends => ?_⟩
    rw [String.toList_append]
    exact hread v _ hends

/-- A text, bytes and a number that a log shows one after the other. -/
def reportValues : List Value := [.text "'; --'", .bytes [0, 255], .bigInt Int64.minValue]

theorem reportValues_read_back :
    let later := ", b = X'00FF' WHERE c = -9223372036854775808"
    Region.Balanced "SET a = ".toList ∧
      reportValues[placeholderCount "SET a = "]? = some (.text "'; --'") ∧
      Datum.EndsBefore (.text "'; --'") later.toList ∧
      renderLog "SET a = ?, b = ? WHERE c = ?" reportValues = "SET a = '''; --'''" ++ later ∧
      Datum.readLiteral? ("'''; --'''" ++ later).toList = some (.text "'; --'", later.toList) ∧
      Datum.readLiteral? "X'00FF' WHERE".toList = some (.bytes [0, 255], " WHERE".toList) ∧
      Datum.readLiteral? "-9223372036854775808".toList = some (.int Int64.minValue, []) ∧
      (Value.text "X'00'").literal ≠ (Value.bytes [0]).literal := by
  obtain ⟨hread, hdistinct, hlog⟩ := literals_read_back
  have hends : Datum.EndsBefore (.text "'; --'")
      ", b = X'00FF' WHERE c = -9223372036854775808".toList := by
    simp [Datum.EndsBefore]
  obtain ⟨-, htext⟩ :=
    hlog "SET a = " ", b = ? WHERE c = ?" reportValues (.text "'; --'") rfl rfl
  have hbytes := hread (.bytes [0, 255]) " WHERE".toList (by simp [bytes, Datum.EndsBefore])
  have hinteger := hread (.bigInt Int64.minValue) [] (by simp [bigInt, Datum.EndsBefore])
  refine ⟨rfl, rfl, hends, rfl, htext hends, hbytes, hinteger, fun heq => ?_⟩
  have hsame := hdistinct _ _ (by simp [text, Datum.EndsBefore])
    (by simp [bytes, Datum.EndsBefore]) heq
  cases hsame

end Value
end EntitySql
