import EntitySql.Statement.Region
import EntitySql.Value.Literal

/-!
Statements: SQL text with positional placeholders, the values bound to them from left to right,
and, if wanted, a log rendering with the values in place of the placeholders.
-/

namespace EntitySql

/-- A placeholder is a question mark outside quoted regions. -/
def isPlaceholder (mark : Char × Bool) : Bool := mark.1 == '?' && !mark.2

def placeholderCount (text : String) : Nat :=
  (Region.marks none text.toList).countP isPlaceholder

/-- Puts literals in place of placeholders; once they run out placeholders stay as they are.
Literals are not scanned in turn. -/
def fillPlaceholders : List (Char × Bool) → List (List Char) → List Char
  | [], _ => []
  | mark :: rest, [] => mark.1 :: fillPlaceholders rest []
  | mark :: rest, literal :: literals =>
    if isPlaceholder mark then literal ++ fillPlaceholders rest literals
    else mark.1 :: fillPlaceholders rest (literal :: literals)

def renderLog (text : String) (values : List Value) : String :=
  String.ofList <|
    fillPlaceholders (Region.marks none text.toList) (values.map (·.datum.literalChars))

/-- What is handed to an executor. `log` holds the rendering if logging was on. -/
structure Statement where
  text : String
  values : List Value
  log : Option String
  deriving DecidableEq, Repr

/-- The one way in which text and values can disagree: in number. -/
inductive StatementError
  | placeholderMismatch (placeholders values : Nat)
  deriving DecidableEq, Repr

def StatementError.message : StatementError → String
  | .placeholderMismatch placeholders values =>
    s!"statement has {placeholders} placeholder(s) but {values} bound value(s)"

namespace Statement

/-- A statement over text that is taken at its word. -/
def unchecked (text : String) (values : List Value) (log : Bool) : Statement :=
  ⟨text, values, if log then some (renderLog text values) else none⟩

/-- A statement, provided that there is a value for each placeholder and no other. -/
def make (text : String) (values : List Value) (log : Bool) : Except StatementError Statement :=
  if placeholderCount text = values.length then .ok (unchecked text values log)
  else .error (.placeholderMismatch (placeholderCount text) values.length)

def equal (s t : Statement) : Bool :=
  s.text == t.text && s.values.length == t.values.length &&
    (s.values.zip t.values).all (fun pair => pair.1.equal pair.2) && s.log == t.log

@[simp] theorem text_unchecked (text : String) (values : List Value) (log : Bool) :
    (unchecked text values log).text = text := rfl

@[simp] theorem values_unchecked (text : String) (values : List Value) (log : Bool) :
    (unchecked text values log).values = values := rfl

/-- Being refused says nothing about the log setting. -/
theorem make_eq_ok_iff {text : String} {values : List Value} {log : Bool} {s : Statement} :
    make text values log = .ok s ↔
      placeholderCount text = values.length ∧ s = unchecked text values log := by
  unfold make
  split <;> simp_all [eq_comm]

end Statement
end EntitySql
