import EntitySql.Value.Basic
import EntitySql.Value.Shortest

/-!
SQL literals. Statements bind their values; the literals only serve the log rendering of a
statement, where a reader wants to see them in place. Text is enclosed in a quote character, with
every quote inside written twice; identifiers follow the same rule with quotes of their own.
-/

namespace EntitySql

namespace Quoted

/-- Writes each `quote` twice and every other character once. -/
def double (quote : Char) : List Char → List Char
  | [] => []
  | c :: rest => if c = quote then c :: c :: double quote rest else c :: double quote rest

@[simp] theorem double_nil (quote : Char) : double quote [] = [] := rfl

theorem double_eq_self {quote : Char} {chars : List Char} (h : quote ∉ chars) :
    double quote chars = chars := by
  induction chars with
  | nil => rfl
  | cons c rest ih =>
    have hc : c ≠ quote := Ne.symm (List.ne_of_not_mem_cons h)
    rw [double, if_neg hc, ih (List.not_mem_of_not_mem_cons h)]

/-- The quoted form: a lone quote inside would end it, so inner quotes are doubled. -/
def enclose (quote : Char) (chars : List Char) : List Char :=
  quote :: (double quote chars ++ [quote])

theorem length_le_length_double (quote : Char) (chars : List Char) :
    chars.length ≤ (double quote chars).length := by
  induction chars with
  | nil => exact Nat.le_refl 0
  | cons c rest ih =>
    unfold double
    split <;> simp only [List.length_cons] <;> omega

end Quoted

/-- The literal of a datum. Text doubles its quotes, so it cannot end its literal early. -/
def Datum.literalChars : Datum → List Char
  | .null => ['N', 'U', 'L', 'L']
  | .bool true => ['T', 'R', 'U', 'E']
  | .bool false => ['F', 'A', 'L', 'S', 'E']
  | .int n => Digits.int n.toInt
  | .float x => x.chars
  | .text s => Quoted.enclose '\'' s.toList
  | .bytes data => 'X' :: '\'' :: (data.flatMap Digits.hexByte ++ ['\''])
  | .timestamp t => '\'' :: (t.chars ++ ['\''])
  | .date d => '\'' :: (d.chars ++ ['\''])

/-- The binding type has no part in the literal. -/
def Value.literal (v : Value) : String := String.ofList v.datum.literalChars

end EntitySql
