import EntitySql.Session.Basic

/-!
Rehearsals run sessions without a database. The stage stands in for everything around a
session: it answers from a script, and it keeps a record of what happens, in order.
-/

namespace EntitySql

inductive Event
  | chain (length : Nat)
  | hook (hook : Hook) (listener entity : String)
  | assign (path : String) (value : Value)
  | fetch (statement : Statement)
  | execute (statement : Statement)
  | log (text : Option String)
  | message (text : String)
  | diagnostic (d : Diagnostic)
  deriving Repr

/-- The script of a rehearsal and the record of what happened so far. -/
structure Stage where
  events : List Event := []
  /-- The answers to sequence fetches that are still to come. -/
  sequence : List (Except String Int64) := []
  /-- How many rows an executed statement affects. -/
  rows : Nat := 1
  /-- The text with which executing fails, if it is to fail. -/
  failure : Option String := none
  /-- The readings still to come of each clock. -/
  clocks : List (List Timestamp) := []
  /-- How many messages have been asked for. -/
  supplied : Nat := 0

namespace Stage

def record (e : Event) : StateM Stage Unit :=
  modify fun stage => { stage with events := stage.events ++ [e] }

/-- A message that counts how often it is asked for. -/
def supply (text : String) : StateM Stage String := do
  modify fun stage => { stage with supplied := stage.supplied + 1 }
  return text

def addClock (readings : List Timestamp) : StateM Stage Nat := do
  let stage ← get
  set { stage with clocks := stage.clocks ++ [readings] }
  return stage.clocks.length

/-- The next reading of a clock. The last one repeats; a clock without any shows the epoch. -/
def readClock (clock : Nat) : StateM Stage Timestamp := do
  let stage ← get
  match stage.clocks.getD clock [] with
  | [] => return .epoch
  | [last] => return last
  | reading :: rest =>
    set { stage with clocks := stage.clocks.set clock rest }
    return reading

/-- The next answer to a sequence fetch. A script that has run out is a failure too. -/
def answerFetch : Attempt Stage String Int64 := do
  let stage ← get
  match stage.sequence with
  | [] => throw "sequence exhausted"
  | answer :: rest =>
    set { stage with sequence := rest }
    Attempt.ofExcept answer

/-- Records each statement before it answers. -/
def executor : Executor Stage where
  execute st := do
    record (.execute st)
    let stage ← get
    match stage.failure with
    | some text => throw text
    | none => return stage.rows
  fetch st := do
    record (.fetch st)
    answerFetch

def subscriber (level : Option DetailLevel) : Subscriber Stage :=
  ⟨level, fun d => record (.diagnostic d)⟩

def logger : Logger Stage where
  message supplier := do record (.message (← supplier))
  statement st := record (.log st.log)

end Stage
end EntitySql
