import EntitySql.Proofs.Condition.Token

/-!
The boolean grammar of SQL: NOT binds tighter than AND, AND tighter than OR, and the AND of a
BETWEEN belongs to its test. The grammar is unambiguous, so a condition has one reading; its
value is three-valued.
-/

namespace EntitySql

/-- The truth values of SQL: a test on null is neither true nor false. -/
inductive Truth
  | true
  | false
  | unknown
  deriving DecidableEq, Repr

namespace Truth

def not : Truth → Truth
  | true => false
  | false => true
  | unknown => unknown

def and : Truth → Truth → Truth
  | false, _ => false
  | _, false => false
  | true, true => true
  | _, _ => unknown

def or : Truth → Truth → Truth
  | true, _ => true
  | _, true => true
  | false, false => false
  | _, _ => unknown

end Truth

/-- A boolean expression over tests. The property of a test is an identifier as it is written. -/
inductive Expression
  | test (test : Test)
  | not (inner : Expression)
  | and (left right : Expression)
  | or (left right : Expression)
  deriving DecidableEq, Repr

def Expression.eval (truth : Test → Truth) : Expression → Truth
  | test t => truth t
  | not inner => (inner.eval truth).not
  | and left right => (left.eval truth).and (right.eval truth)
  | or left right => (left.eval truth).or (right.eval truth)

def negation (negated : Bool) : List Token := if negated then [.keyword .not] else []

def valueList : List Value → List Token
  | [] => []
  | [value] => [.bound value]
  | value :: rest => .bound value :: .comma :: valueList rest

def Test.tokens : Test → List Token
  | compare op column value => [.identifier column, .operator op, .bound value]
  | isNull negated column =>
    .identifier column :: .keyword .is :: (negation negated ++ [.keyword .null])
  | like negated column pattern =>
    .identifier column :: (negation negated ++ [.keyword .like, .bound pattern])
  | between negated column low high =>
    .identifier column ::
      (negation negated ++ [.keyword .between, .bound low, .keyword .and, .bound high])
  | inList negated column values =>
    .identifier column ::
      (negation negated ++ .keyword .among :: .opening :: (valueList values ++ [.closing]))

/-- How tightly the parts of an expression hold together. -/
inductive Level
  | condition
  | conjunction
  | factor
  deriving DecidableEq, Repr

/-- The grammar. Operators of one level group to the left; a list of candidates has a member. -/
inductive Derives : Level → List Token → Expression → Prop
  | test (t : Test) (candidates : ∀ negated column, t ≠ .inList negated column []) :
      Derives .factor t.tokens (.test t)
  | paren {ts : List Token} {e : Expression} (inner : Derives .condition ts e) :
      Derives .factor (.opening :: (ts ++ [.closing])) e
  | not {ts : List Token} {e : Expression} (inner : Derives .factor ts e) :
      Derives .factor (.keyword .not :: ts) (.not e)
  | ofFactor {ts : List Token} {e : Expression} (factor : Derives .factor ts e) :
      Derives .conjunction ts e
  | and {ts us : List Token} {e f : Expression} (left : Derives .conjunction ts e)
      (right : Derives .factor us f) :
      Derives .conjunction (ts ++ .keyword .and :: us) (.and e f)
  | ofConjunction {ts : List Token} {e : Expression} (conjunction : Derives .conjunction ts e) :
      Derives .condition ts e
  | or {ts us : List Token} {e f : Expression} (left : Derives .condition ts e)
      (right : Derives .conjunction us f) :
      Derives .condition (ts ++ .keyword .or :: us) (.or e f)

def ReadsAs (d : Dialect) (text : String) (values : List Value) (e : Expression) : Prop :=
  ∃ ts, tokenize d text.toList values = some ts ∧ Derives .condition ts e

/-! A recursive descent over the tokens finds the expression that a derivation yields. It is
bounded by a number of steps, and any bound that is large enough will do. -/

def readValues : List Token → Option (List Value × List Token)
  | .bound value :: .closing :: rest => some ([value], rest)
  | .bound value :: .comma :: rest =>
    (readValues rest).map fun (values, rest) => (value :: values, rest)
  | _ => none

/-- A test of the kinds that have NOT in front of their keyword. -/
def readNegatable (negated : Bool) (column : String) : List Token → Option (Test × List Token)
  | .keyword .like :: .bound pattern :: rest => some (.like negated column pattern, rest)
  | .keyword .between :: .bound low :: .keyword .and :: .bound high :: rest =>
    some (.between negated column low high, rest)
  | .keyword .among :: .opening :: rest =>
    (readValues rest).map fun (values, rest) => (.inList negated column values, rest)
  | _ => none

def readTest : List Token → Option (Test × List Token)
  | .identifier column :: .operator op :: .bound value :: rest =>
    some (.compare op column value, rest)
  | .identifier column :: .keyword .is :: .keyword .null :: rest =>
    some (.isNull false column, rest)
  | .identifier column :: .keyword .is :: .keyword .not :: .keyword .null :: rest =>
    some (.isNull true column, rest)
  | .identifier column :: .keyword .not :: rest => readNegatable true column rest
  | .identifier column :: rest => readNegatable false column rest
  | _ => none

mutual

/-- The longest expression of a level at the start of the tokens. -/
def read : Nat → Level → List Token → Option (Expression × List Token)
  | 0, _, _ => none
  | n + 1, .factor, .keyword .not :: ts => do
    let (e, rest) ← read n .factor ts
    return (.not e, rest)
  | n + 1, .factor, .opening :: ts => do
    match ← read n .condition ts with
    | (e, .closing :: rest) => return (e, rest)
    | _ => none
  | _ + 1, .factor, ts => (readTest ts).map fun (t, rest) => (.test t, rest)
  | n + 1, .conjunction, ts => do
    let (e, rest) ← read n .factor ts
    extend n .conjunction e rest
  | n + 1, .condition, ts => do
    let (e, rest) ← read n .conjunction ts
    extend n .condition e rest

/-- What an expression grows to with the operators of its level that follow. -/
def extend : Nat → Level → Expression → List Token → Option (Expression × List Token)
  | 0, _, _, _ => none
  | n + 1, .conjunction, e, .keyword .and :: ts => do
    let (f, rest) ← read n .factor ts
    extend n .conjunction (.and e f) rest
  | n + 1, .condition, e, .keyword .or :: ts => do
    let (f, rest) ← read n .conjunction ts
    extend n .condition (.or e f) rest
  | _ + 1, _, e, ts => some (e, ts)

end

private theorem readValues_valueList {values : List Value} (h : values ≠ []) (rest : List Token) :
    readValues (valueList values ++ .closing :: rest) = some (values, rest) := by
  induction values with
  | nil => contradiction
  | cons value others ih =>
    cases others with
    | nil => rfl
    | cons next others =>
      have hothers := ih (by simp)
      simp only [valueList, List.cons_append, readValues] at hothers ⊢
      rw [hothers, Option.map_some]

theorem readTest_tokens (t : Test) (candidates : ∀ negated column, t ≠ .inList negated column [])
    (rest : List Token) : readTest (t.tokens ++ rest) = some (t, rest) := by
  cases t with
  | compare op column value => rfl
  | isNull negated column => cases negated <;> rfl
  | like negated column pattern => cases negated <;> rfl
  | between negated column low high => cases negated <;> rfl
  | inList negated column values =>
    have hne : values ≠ [] := by
      rintro rfl
      exact candidates negated column rfl
    have hvalues := readValues_valueList hne rest
    cases negated <;>
      simp [Test.tokens, negation, readTest, readNegatable, hvalues]

/-- Holds of all numbers of steps that are large enough. -/
def Eventually (p : Nat → Prop) : Prop := ∃ bound, ∀ n, bound ≤ n → p n

theorem Eventually.and {p q : Nat → Prop} (hp : Eventually p) (hq : Eventually q) :
    Eventually fun n => p n ∧ q n := by
  obtain ⟨bound, hp⟩ := hp
  obtain ⟨limit, hq⟩ := hq
  exact ⟨max bound limit, fun n hn => ⟨hp n (by omega), hq n (by omega)⟩⟩

theorem Eventually.succ {p q : Nat → Prop} (hp : Eventually p) (hstep : ∀ n, p n → q (n + 1)) :
    Eventually q := by
  obtain ⟨bound, hp⟩ := hp
  refine ⟨bound + 1, fun n hn => ?_⟩
  obtain ⟨n, rfl⟩ := Nat.exists_eq_add_of_le' (Nat.le_of_add_left_le hn)
  exact hstep n (hp n (by omega))

def Finds (level : Level) (ts : List Token) (e : Expression) (rest : List Token) : Prop :=
  Eventually fun n => read n level ts = some (e, rest)

def Grows (level : Level) (e : Expression) (ts : List Token) (f : Expression)
    (rest : List Token) : Prop :=
  Eventually fun n => extend n level e ts = some (f, rest)

def Level.operator? : Level → Option Keyword
  | condition => some .or
  | conjunction => some .and
  | factor => none

section
variable {ts rest after : List Token} {e f g : Expression} {level : Level}

theorem finds_test {t : Test} (h : readTest ts = some (t, rest)) :
    Finds .factor ts (.test t) rest := by
  refine ⟨1, fun n hn => ?_⟩
  obtain ⟨n, rfl⟩ := Nat.exists_eq_add_of_le' hn
  have hread : read (n + 1) .factor ts = (readTest ts).map fun (t, rest) => (.test t, rest) := by
    cases ts with
    | nil => rfl
    | cons token ts =>
      cases token with
      | keyword word => cases word <;> simp [readTest] at h
      | opening => simp [readTest] at h
      | _ => rfl
  simp [hread, h]

theorem finds_not (h : Finds .factor ts e rest) :
    Finds .factor (.keyword .not :: ts) (.not e) rest :=
  h.succ fun n h => by simp [read, h]

theorem finds_paren (h : Finds .condition ts e (.closing :: rest)) :
    Finds .factor (.opening :: ts) e rest :=
  h.succ fun n h => by simp [read, h]

theorem finds_conjunction (h : Finds .factor ts e rest)
    (grows : Grows .conjunction e rest f after) : Finds .conjunction ts f after :=
  (h.and grows).succ fun n ⟨h, grows⟩ => by simp [read, h, grows]

theorem finds_condition (h : Finds .conjunction ts e rest)
    (grows : Grows .condition e rest f after) : Finds .condition ts f after :=
  (h.and grows).succ fun n ⟨h, grows⟩ => by simp [read, h, grows]

theorem grows_and (h : Finds .factor ts f rest)
    (grows : Grows .conjunction (.and e f) rest g after) :
    Grows .conjunction e (.keyword .and :: ts) g after :=
  (h.and grows).succ fun n ⟨h, grows⟩ => by simp [extend, h, grows]

theorem grows_or (h : Finds .conjunction ts f rest)
    (grows : Grows .condition (.or e f) rest g after) :
    Grows .condition e (.keyword .or :: ts) g after :=
  (h.and grows).succ fun n ⟨h, grows⟩ => by simp [extend, h, grows]

/-- An expression is complete where no operator of its level follows. -/
private theorem extend_stop (n : Nat)
    (stops : ∀ word ∈ level.operator?, ts.head? ≠ some (.keyword word)) :
    extend (n + 1) level e ts = some (e, ts) := by
  unfold extend
  split
  · contradiction
  · simp [Level.operator?] at stops
  · simp [Level.operator?] at stops
  · simp_all

theorem grows_stop (stops : ∀ word ∈ level.operator?, ts.head? ≠ some (.keyword word)) :
    Grows level e ts e ts := by
  refine ⟨1, fun n hn => ?_⟩
  obtain ⟨n, rfl⟩ := Nat.exists_eq_add_of_le' hn
  exact extend_stop n stops

private theorem grows_factor (grows : Grows .factor e rest f after) : e = f ∧ rest = after := by
  obtain ⟨bound, grows⟩ := grows
  have hstop : some (e, rest) = some (f, after) :=
    (extend_stop bound (by simp [Level.operator?])).symm.trans (grows (bound + 1) (by omega))
  cases hstop
  exact ⟨rfl, rfl⟩

/-- Reading a derived expression comes down to extending it by what follows. A condition must
not be followed by AND, which would take over its last part. -/
theorem Derives.finds (h : Derives level ts e)
    (follows : level = .condition → rest.head? ≠ some (.keyword .and))
    (grows : Grows level e rest g after) : Finds level (ts ++ rest) g after := by
  -- What an operator takes in on its left is read first and then grows by the operator, so the
  -- induction has to hold for whatever the left part grows to.
  induction h generalizing rest g after with
  | test t candidates =>
    obtain ⟨rfl, rfl⟩ := grows_factor grows
    exact finds_test (readTest_tokens t candidates rest)
  | @paren ts e inner ih =>
    obtain ⟨rfl, rfl⟩ := grows_factor grows
    have hinner : Finds .condition (ts ++ .closing :: rest) e (.closing :: rest) :=
      ih (by simp) (grows_stop (by simp))
    simpa using finds_paren hinner
  | @not ts e inner ih =>
    obtain ⟨rfl, rfl⟩ := grows_factor grows
    exact finds_not (ih (by simp) (grows_stop (by simp [Level.operator?])))
  | ofFactor factor ih =>
    exact finds_conjunction (ih (by simp) (grows_stop (by simp [Level.operator?]))) grows
  | @and ts us e f left right ihleft ihright =>
    have hright : Finds .factor (us ++ rest) f rest :=
      ihright (by simp) (grows_stop (by simp [Level.operator?]))
    have hleft := ihleft (by simp) (grows_and hright grows)
    simpa using hleft
  | ofConjunction conjunction ih =>
    have hstops := follows rfl
    exact finds_condition (ih (by simp) (grows_stop (by simpa [Level.operator?]))) grows
  | @or ts us e f left right ihleft ihright =>
    have hstops := follows rfl
    have hright : Finds .conjunction (us ++ rest) f rest :=
      ihright (by simp) (grows_stop (by simpa [Level.operator?]))
    have hleft := ihleft (by simp) (grows_or hright grows)
    simpa using hleft

end

theorem Derives.unique {ts : List Token} {e f : Expression} (he : Derives .condition ts e)
    (hf : Derives .condition ts f) : e = f := by
  have finds : ∀ {g}, Derives .condition ts g → Finds .condition (ts ++ []) g [] :=
    fun h => h.finds (by simp) (grows_stop (by simp))
  obtain ⟨bound, hboth⟩ := (finds he).and (finds hf)
  obtain ⟨hread, hother⟩ := hboth bound (Nat.le_refl bound)
  have hsame : some (e, []) = some (f, []) := hread.symm.trans hother
  cases hsame
  rfl

theorem ReadsAs.unique {d : Dialect} {text : String} {values : List Value} {e f : Expression}
    (he : ReadsAs d text values e) (hf : ReadsAs d text values f) : e = f := by
  obtain ⟨ts, hts, he⟩ := he
  obtain ⟨us, hus, hf⟩ := hf
  cases Option.some.inj (hts.symm.trans hus)
  exact he.unique hf

end EntitySql
