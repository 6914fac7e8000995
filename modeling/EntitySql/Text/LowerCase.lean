import EntitySql.Text.CaseTable

/-!
The lower-case form of a text by the full Unicode mapping: one character may become two, and a
capital sigma at the end of a word becomes a final sigma.
-/

namespace EntitySql.LowerCase

def char (c : Char) : List Char :=
  if c.toNat < 128 then [c.toLower]
  else if c = '\u0130' then ['i', '\u0307']
  else
    match CaseTable.lower.find? fun (first, last, step, _) =>
        first ≤ c.toNat && c.toNat ≤ last && (c.toNat - first) % step == 0 with
    | some (_, _, _, distance) => [Char.ofNat (c.toNat + distance).toNat]
    | none => [c]

def inRuns (runs : List (Nat × Nat)) (c : Char) : Bool :=
  runs.any fun (first, last) => first ≤ c.toNat && c.toNat ≤ last

def isCased (c : Char) : Bool :=
  if c.toNat < 128 then c.isAlpha else inRuns CaseTable.cased c

def isCaseIgnorable (c : Char) : Bool :=
  if c.toNat < 128 then ['\'', '.', ':', '^', '\x60'].contains c
  else inRuns CaseTable.caseIgnorable c

/-- Whether the first character that is not ignorable is a cased one. -/
def meetsCased (chars : List Char) : Bool :=
  match chars.dropWhile isCaseIgnorable with
  | [] => false
  | c :: _ => isCased c

/-- The lower-case form of a text, given what stands before it, nearest character first. A
sigma ends a word if there is a cased character before it and none after it. -/
def after (before : List Char) : List Char → List Char
  | [] => []
  | c :: rest =>
    let lower :=
      if c = '\u03a3' then [if meetsCased before && !meetsCased rest then '\u03c2' else '\u03c3']
      else char c
    lower ++ after (c :: before) rest

end EntitySql.LowerCase

namespace EntitySql

def lowerCase (text : String) : String := String.ofList (LowerCase.after [] text.toList)

end EntitySql
