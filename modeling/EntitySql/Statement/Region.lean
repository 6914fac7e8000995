/-!
Quoted regions of SQL text. A region is opened by any of the three quote characters and closed
by the next occurrence of the same one. A doubled quote leaves the region and enters it again
at once, so escaped quotes need no rule of their own.
-/

namespace EntitySql

/-- Whether a character opens a quoted region: strings use `'`, identifiers `"` or a grave
accent. -/
def isQuote (c : Char) : Bool := c == '\'' || c == '"' || c == '\x60'

/-- Where a scan stands: inside the region that a quote character opened, or outside. -/
abbrev Region := Option Char

namespace Region

def next : Region → Char → Region
  | some quote, c => if c = quote then none else some quote
  | none, c => if isQuote c then some c else none

/-- Whether a character met in this state is quoted. Both quotes around a region belong to it. -/
def covers (r : Region) (c : Char) : Bool := r.isSome || isQuote c

def marks (r : Region) : List Char → List (Char × Bool)
  | [] => []
  | c :: rest => (c, r.covers c) :: marks (r.next c) rest

def after (r : Region) (chars : List Char) : Region := chars.foldl next r

@[simp] theorem marks_nil (r : Region) : r.marks [] = [] := rfl

@[simp] theorem marks_cons (r : Region) (c : Char) (rest : List Char) :
    r.marks (c :: rest) = (c, r.covers c) :: (r.next c).marks rest := rfl

@[simp] theorem after_nil (r : Region) : r.after [] = r := rfl

@[simp] theorem after_cons (r : Region) (c : Char) (rest : List Char) :
    r.after (c :: rest) = (r.next c).after rest := rfl

theorem after_append (r : Region) (left right : List Char) :
    r.after (left ++ right) = (r.after left).after right := by
  simp [after]

theorem marks_append (r : Region) (left right : List Char) :
    r.marks (left ++ right) = r.marks left ++ (r.after left).marks right := by
  induction left generalizing r with
  | nil => rfl
  | cons c rest ih => simp [ih]

/-- Marking only adds to the characters; it neither drops nor moves any. -/
@[simp] theorem map_fst_marks (r : Region) (chars : List Char) :
    (r.marks chars).map Prod.fst = chars := by
  induction chars generalizing r with
  | nil => rfl
  | cons c rest ih => simp [ih]

end Region
end EntitySql
