import EntitySql.Query.Predicate

/-!
Tokens of SQL conditions. Text is read one character at a time; a word or a quoted name is over
only when a character follows that cannot belong to it. Placeholders then take the bound values
in order, so that tokens carry everything a condition says.
-/

namespace EntitySql

inductive Keyword
  | and
  | or
  | not
  | is
  | null
  | like
  | between
  | among
  deriving DecidableEq, Repr

namespace Keyword

def all : List Keyword := [and, or, not, is, null, like, between, among]

def spelling : Keyword → String
  | and => "AND"
  | or => "OR"
  | not => "NOT"
  | is => "IS"
  | null => "NULL"
  | like => "LIKE"
  | between => "BETWEEN"
  | among => "IN"

def ofWord? (word : List Char) : Option Keyword :=
  all.find? fun candidate => candidate.spelling.toList == word.map Char.toUpper

end Keyword

/-- A token. An identifier keeps its text, quotes included. -/
inductive Token
  | keyword (word : Keyword)
  | identifier (text : String)
  | operator (op : Comparison)
  | placeholder
  | bound (value : Value)
  | opening
  | closing
  | comma
  deriving DecidableEq, Repr

def Token.ofWord (word : List Char) : Token :=
  match Keyword.ofWord? word with
  | some found => .keyword found
  | none => .identifier (String.ofList word)

def isWordStart (c : Char) : Bool := c.isAlpha || c == '_' || 128 ≤ c.toNat

def isWordPart (c : Char) : Bool := isWordStart c || c.isDigit || c == '$'

/-- Text that is a single identifier in a dialect: a word that is no keyword, or any name in
quotes. -/
inductive IsIdentifier (d : Dialect) : List Char → Prop
  | plain (first : Char) (rest : List Char) (starts : isWordStart first = true)
      (continues : ∀ c ∈ rest, isWordPart c = true)
      (unreserved : Keyword.ofWord? (first :: rest) = none) : IsIdentifier d (first :: rest)
  | quoted (name : List Char) : IsIdentifier d (Quoted.enclose d.identifierQuote name)

/-- Where the reading of a text stands: between tokens, or within one that may go on. After a
quote inside a quoted name it is open whether the name is over. -/
inductive Reading
  | between
  | word (read : List Char)
  | quoted (read : List Char)
  | quoteMet (read : List Char)
  | less
  | greater
  deriving DecidableEq, Repr

namespace Reading

/-- The token that is over if no more of it follows. A quoted name needs its closing quote. -/
def ended : Reading → Option (List Token)
  | between => some []
  | word read => some [.ofWord read]
  | quoted _ => none
  | quoteMet read => some [.identifier (String.ofList read)]
  | less => some [.operator .lt]
  | greater => some [.operator .gt]

def started (d : Dialect) (c : Char) : Option (Reading × List Token) :=
  if c = ' ' then some (between, [])
  else if c = '?' then some (between, [.placeholder])
  else if c = '(' then some (between, [.opening])
  else if c = ')' then some (between, [.closing])
  else if c = ',' then some (between, [.comma])
  else if c = '=' then some (between, [.operator .eq])
  else if c = '<' then some (less, [])
  else if c = '>' then some (greater, [])
  else if c = d.identifierQuote then some (quoted [c], [])
  else if isWordStart c then some (word [c], [])
  else none

def continued (d : Dialect) : Reading → Char → Option (Reading × List Token)
  | between, _ => none
  | word read, c => if isWordPart c then some (word (read ++ [c]), []) else none
  | quoted read, c =>
    some (if c = d.identifierQuote then quoteMet (read ++ [c]) else quoted (read ++ [c]), [])
  | quoteMet read, c =>
    if c = d.identifierQuote then some (quoted (read ++ [c]), []) else none
  | less, c =>
    if c = '>' then some (between, [.operator .ne])
    else if c = '=' then some (between, [.operator .le])
    else none
  | greater, c => if c = '=' then some (between, [.operator .ge]) else none

/-- A character belongs to the token under way if it can, and otherwise starts the next one. -/
def step (d : Dialect) (reading : Reading) (c : Char) : Option (Reading × List Token) :=
  match reading.continued d c with
  | some found => some found
  | none => do
    let before ← reading.ended
    let (next, found) ← started d c
    return (next, before ++ found)

def tokens (d : Dialect) (reading : Reading) : List Char → Option (List Token)
  | [] => reading.ended
  | c :: rest => do
    let (next, found) ← reading.step d c
    return found ++ (← tokens d next rest)

end Reading

/-- Puts values in place of placeholders. There must be a value for each and none left over. -/
def supply : List Token → List Value → Option (List Token)
  | [], [] => some []
  | [], _ :: _ => none
  | .placeholder :: _, [] => none
  | .placeholder :: rest, value :: values => (supply rest values).map (.bound value :: ·)
  | token :: rest, values => (supply rest values).map (token :: ·)

def tokenize (d : Dialect) (chars : List Char) (values : List Value) : Option (List Token) := do
  supply (← Reading.tokens d .between chars) values

/-! A token is over at the latest where a blank, a parenthesis or a comma follows, so texts that
are cut there can be read apart. -/

/-- A character that cannot go on with a token that began before it. -/
def IsDelimiter (c : Char) : Prop := c = ' ' ∨ c = '(' ∨ c = ')' ∨ c = ','

private theorem IsDelimiter.ne_identifierQuote {c : Char} (hc : IsDelimiter c) (d : Dialect) :
    c ≠ d.identifierQuote := by
  rcases hc with rfl | rfl | rfl | rfl <;> cases d <;> decide

namespace Reading

private theorem continued_delimiter {d : Dialect} {reading : Reading} {before : List Token}
    {c : Char} (hc : IsDelimiter c) (hended : reading.ended = some before) :
    reading.continued d c = none := by
  have hquote := hc.ne_identifierQuote d
  cases reading with
  | between => rfl
  | word read =>
    have hpart : isWordPart c = false := by
      rcases hc with rfl | rfl | rfl | rfl <;> decide
    simp [continued, hpart]
  | quoted read => simp [ended] at hended
  | quoteMet read => simp [continued, hquote]
  | less => rcases hc with rfl | rfl | rfl | rfl <;> rfl
  | greater => rcases hc with rfl | rfl | rfl | rfl <;> rfl

@[simp] theorem step_between (d : Dialect) (c : Char) : step d between c = started d c := by
  cases h : started d c <;> simp [step, continued, ended, h]

theorem tokens_started {d : Dialect} {c : Char} {next : Reading} {found : List Token}
    (hstart : started d c = some (next, found)) (rest : List Char) :
    tokens d .between (c :: rest) = (tokens d next rest).map (found ++ ·) := by
  simp only [tokens, step_between, hstart]
  cases htokens : tokens d next rest <;> simp [htokens]

/-- Before a delimiter the token under way is over, and reading goes on as from the start. -/
theorem tokens_delimiter {d : Dialect} {reading : Reading} {before : List Token} {c : Char}
    (hc : IsDelimiter c) (hended : reading.ended = some before) (rest : List Char) :
    tokens d reading (c :: rest) = (tokens d .between (c :: rest)).map (before ++ ·) := by
  have hstep : reading.step d c = (started d c).map fun (next, found) =>
      (next, before ++ found) := by
    simp only [step, continued_delimiter hc hended, hended]
    cases started d c <;> rfl
  simp only [tokens, hstep, step_between]
  cases started d c with
  | none => rfl
  | some found => cases htokens : tokens d found.1 rest <;> simp [htokens]

theorem tokens_append {d : Dialect} {left right : List Char} {c : Char} {reading : Reading}
    {ts us : List Token} (hc : IsDelimiter c) (hleft : tokens d reading left = some ts)
    (hright : tokens d .between (c :: right) = some us) :
    tokens d reading (left ++ c :: right) = some (ts ++ us) := by
  -- The delimiter is met in the state that the left text leads to, not in the one at the start.
  induction left generalizing reading ts with
  | nil => rw [List.nil_append, tokens_delimiter hc hleft, hright, Option.map_some]
  | cons first rest ih =>
    obtain ⟨⟨next, found⟩, hstep, hleft⟩ := Option.bind_eq_some_iff.mp hleft
    obtain ⟨others, hothers, hts⟩ := Option.bind_eq_some_iff.mp hleft
    cases Option.some.inj hts
    simp [tokens, hstep, ih hothers]

end Reading

@[simp] theorem supply_nil : supply [] [] = some [] := rfl

@[simp] theorem supply_placeholder (rest : List Token) (value : Value) (values : List Value) :
    supply (.placeholder :: rest) (value :: values) =
      (supply rest values).map (.bound value :: ·) := rfl

private theorem supply_cons {token : Token} (h : token ≠ .placeholder) (rest : List Token)
    (values : List Value) :
    supply (token :: rest) values = (supply rest values).map (token :: ·) := by
  cases token with
  | placeholder => contradiction
  | _ => rfl

theorem supply_append {left right ts us : List Token} {values others : List Value}
    (hleft : supply left values = some ts) (hright : supply right others = some us) :
    supply (left ++ right) (values ++ others) = some (ts ++ us) := by
  induction left generalizing values ts with
  | nil =>
    cases values with
    | nil => cases Option.some.inj hleft; exact hright
    | cons value values => contradiction
  | cons token rest ih =>
    by_cases h : token = .placeholder
    · subst h
      cases values with
      | nil => contradiction
      | cons value values =>
        obtain ⟨found, hfound, rfl⟩ := Option.map_eq_some_iff.mp hleft
        simp [ih hfound]
    · rw [supply_cons h] at hleft
      obtain ⟨found, hfound, rfl⟩ := Option.map_eq_some_iff.mp hleft
      rw [List.cons_append, supply_cons h, ih hfound]
      rfl

section
variable {d : Dialect} {left right : List Char} {values others : List Value} {ts us : List Token}

theorem tokenize_append {c : Char} (hc : IsDelimiter c)
    (hleft : tokenize d left values = some ts)
    (hright : tokenize d (c :: right) others = some us) :
    tokenize d (left ++ c :: right) (values ++ others) = some (ts ++ us) := by
  obtain ⟨first, hfirst, hts⟩ := Option.bind_eq_some_iff.mp hleft
  obtain ⟨second, hsecond, hus⟩ := Option.bind_eq_some_iff.mp hright
  unfold tokenize
  rw [Reading.tokens_append hc hfirst hsecond]
  exact supply_append hts hus

theorem tokenize_cons {c : Char} (token : Token) (htoken : token ≠ .placeholder)
    (hstart : Reading.started d c = some (.between, [token])) :
    tokenize d (c :: right) others = (tokenize d right others).map (token :: ·) := by
  unfold tokenize
  rw [Reading.tokens_started hstart]
  cases Reading.tokens d .between right with
  | none => rfl
  | some found => exact supply_cons htoken found others

theorem tokenize_blank : tokenize d (' ' :: right) others = tokenize d right others := by
  unfold tokenize
  have hstart : Reading.started d ' ' = some (.between, []) := rfl
  rw [Reading.tokens_started hstart]
  cases Reading.tokens d .between right <;> rfl

theorem tokenize_placeholder (value : Value) :
    tokenize d ('?' :: right) (value :: others) =
      (tokenize d right others).map (.bound value :: ·) := by
  unfold tokenize
  have hstart : Reading.started d '?' = some (.between, [.placeholder]) := rfl
  rw [Reading.tokens_started hstart]
  cases Reading.tokens d .between right <;> rfl

theorem tokenize_blank_between (hleft : tokenize d left values = some ts)
    (hright : tokenize d right others = some us) :
    tokenize d (left ++ ' ' :: right) (values ++ others) = some (ts ++ us) :=
  tokenize_append (.inl rfl) hleft (tokenize_blank.trans hright)

theorem tokenize_paren (hinner : tokenize d left values = some ts) :
    tokenize d ('(' :: (left ++ [')'])) values = some (.opening :: (ts ++ [.closing])) := by
  have hclosing : tokenize d [')'] [] = some [.closing] := rfl
  have happend := tokenize_append (.inr (.inr (.inl rfl))) hinner hclosing
  rw [List.append_nil] at happend
  rw [tokenize_cons .opening (by simp) rfl, happend]
  rfl

end

/-! An identifier is one token, whatever the name in its quotes. -/

namespace Reading

private theorem started_word (d : Dialect) {c : Char} (starts : isWordStart c = true) :
    started d c = some (word [c], []) := by
  have hne : ∀ other, isWordStart other = false → c ≠ other := by
    rintro other hother rfl
    simp [hother] at starts
  have hquote : c ≠ d.identifierQuote := hne _ (by cases d <;> decide)
  simp only [started, hne ' ' (by decide), hne '?' (by decide), hne '(' (by decide),
    hne ')' (by decide), hne ',' (by decide), hne '=' (by decide), hne '<' (by decide),
    hne '>' (by decide), hquote, starts, ↓reduceIte]

theorem tokens_word (d : Dialect) (read : List Char) {rest : List Char}
    (continues : ∀ c ∈ rest, isWordPart c = true) :
    tokens d (word read) rest = some [.ofWord (read ++ rest)] := by
  induction rest generalizing read with
  | nil => simp [tokens, ended]
  | cons c rest ih =>
    have hc : isWordPart c = true := continues c (by simp)
    have hrest : ∀ c ∈ rest, isWordPart c = true := fun c hc => continues c (by simp [hc])
    simp [tokens, step, continued, hc, ih (read ++ [c]) hrest]

theorem tokens_quoted (d : Dialect) (read name : List Char) :
    tokens d (quoted read) (Quoted.double d.identifierQuote name ++ [d.identifierQuote]) =
      some [.identifier (String.ofList
        (read ++ (Quoted.double d.identifierQuote name ++ [d.identifierQuote])))] := by
  induction name generalizing read with
  | nil => simp [tokens, step, continued, ended]
  | cons c rest ih =>
    by_cases hc : c = d.identifierQuote
    · subst hc
      simp [Quoted.double, tokens, step, continued, ih]
    · simp [Quoted.double, hc, tokens, step, continued, ih]

end Reading

theorem tokenize_identifier {d : Dialect} {text : List Char} (h : IsIdentifier d text) :
    tokenize d text [] = some [.identifier (String.ofList text)] := by
  cases h with
  | plain first rest starts continues unreserved =>
    have htokens := Reading.tokens_word d [first] continues
    unfold tokenize
    rw [Reading.tokens_started (Reading.started_word d starts), htokens]
    simp [Token.ofWord, unreserved, supply]
  | quoted name =>
    have hstart : Reading.started d d.identifierQuote = some (.quoted [d.identifierQuote], []) := by
      cases d <;> rfl
    have htokens := Reading.tokens_quoted d [d.identifierQuote] name
    unfold tokenize Quoted.enclose
    rw [Reading.tokens_started hstart, htokens]
    simp [supply]

end EntitySql
