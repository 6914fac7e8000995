import EntitySql.Statement.Basic

/-!
Drafts: statements under construction. A draft is a list of pieces, each either SQL text or a
bound value; its text shows a bound value as a placeholder. Text and values are two views of the
same pieces, so they cannot drift apart, and a placeholder that a value made can be told from a
question mark in raw text.
-/

namespace EntitySql

inductive Piece
  | sql (text : String)
  | bound (value : Value)
  deriving DecidableEq, Repr

namespace Piece

/-- A bound value shows as a placeholder. -/
def chars : Piece → List Char
  | .sql text => text.toList
  | .bound _ => ['?']

def value? : Piece → Option Value
  | .sql _ => none
  | .bound value => some value

end Piece

structure Draft where
  pieces : List Piece := []
  deriving DecidableEq, Repr, Inhabited

namespace Draft

instance : EmptyCollection Draft := ⟨⟨[]⟩⟩

instance : Append Draft := ⟨fun left right => ⟨left.pieces ++ right.pieces⟩⟩

/-- Raw SQL text. User input belongs into bound values instead. -/
def sql (text : String) : Draft := ⟨[.sql text]⟩

def bind (value : Value) : Draft := ⟨[.bound value]⟩

def sepBy (separator : String) : List Draft → Draft
  | [] => ∅
  | [draft] => draft
  | draft :: rest => draft ++ sql separator ++ sepBy separator rest

def bindAll (values : List Value) (separator : String) : Draft :=
  sepBy separator (values.map bind)

def paren (draft : Draft) : Draft := sql "(" ++ draft ++ sql ")"

def chars (draft : Draft) : List Char := draft.pieces.flatMap Piece.chars

def text (draft : Draft) : String := String.ofList draft.chars

def values (draft : Draft) : List Value := draft.pieces.filterMap Piece.value?

/-- Whether there is no text; a draft of empty pieces is empty too. -/
def isEmpty (draft : Draft) : Bool := draft.chars.isEmpty

/-- The statement, after checking that raw text brought in no placeholder of its own. -/
def build (draft : Draft) (log : Bool) : Except StatementError Statement :=
  Statement.make draft.text draft.values log

def finish (draft : Draft) (log : Bool) : Statement :=
  .unchecked draft.text draft.values log

@[simp] theorem pieces_append (left right : Draft) :
    (left ++ right).pieces = left.pieces ++ right.pieces := rfl

theorem append_empty (draft : Draft) : draft ++ ∅ = draft :=
  congrArg Draft.mk (List.append_nil _)

theorem append_assoc (first second third : Draft) :
    first ++ second ++ third = first ++ (second ++ third) :=
  congrArg Draft.mk (List.append_assoc ..)

@[simp] theorem chars_empty : (∅ : Draft).chars = [] := rfl

@[simp] theorem values_empty : (∅ : Draft).values = [] := rfl

@[simp] theorem chars_append (left right : Draft) :
    (left ++ right).chars = left.chars ++ right.chars := by
  simp [chars]

@[simp] theorem values_append (left right : Draft) :
    (left ++ right).values = left.values ++ right.values := by
  simp [values]

@[simp] theorem chars_sql (text : String) : (sql text).chars = text.toList := by
  simp [sql, chars, Piece.chars]

@[simp] theorem values_sql (text : String) : (sql text).values = [] := rfl

@[simp] theorem chars_bind (value : Value) : (bind value).chars = ['?'] := rfl

@[simp] theorem values_bind (value : Value) : (bind value).values = [value] := rfl

@[simp] theorem toList_text (draft : Draft) : draft.text.toList = draft.chars := by
  simp [text]

theorem text_append (left right : Draft) : (left ++ right).text = left.text ++ right.text := by
  rw [text, chars_append, String.ofList_append, text, text]

/-- Binding a list binds its members in order, whatever separates them. -/
@[simp] theorem values_bindAll (values : List Value) (separator : String) :
    (bindAll values separator).values = values := by
  induction values with
  | nil => rfl
  | cons value rest ih =>
    cases rest with
    | nil => rfl
    | cons next rest => simpa [bindAll, sepBy] using ih

end Draft
end EntitySql
