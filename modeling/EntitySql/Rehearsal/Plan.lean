import EntitySql.Rehearsal.Record

/-!
Listeners for rehearsals follow a plan: stamp audit columns from a scripted clock, or record
each hook and then fail, store values or remove some.
-/

namespace EntitySql

inductive ListenerPlan
  | idle
  /-- Stamps audit columns from a clock with the given readings. -/
  | audit (readings : List Timestamp)
  /-- Records the hooks it is called at. At each it may fail, store values or remove some. -/
  | trace (name : String) (failOn : Option Hook) (set : List (Hook × List (String × Value)))
    (unset : List (Hook × List String))
  | chain (members : List ListenerPlan)

namespace ListenerPlan

def runTrace (name : String) (failOn : Option Hook) (set : List (Hook × List (String × Value)))
    (unset : List (Hook × List String)) (hook : Hook) (m : Metamodel) (r : Record) :
    Attempt Stage String Record := do
  Stage.record (.hook hook name m.entity)
  if failOn = some hook then throw (hook.name ++ " rejected by " ++ name)
  let stored := ((set.lookup hook).getD []).foldl (fun r entry => r.store entry.1 entry.2) r
  return ((unset.lookup hook).getD []).foldl Record.erase stored

mutual

/-- Makes the listener of a plan. Clocks start anew, and every chain records its length once it
is complete. -/
def make (access : EntityAccess Stage Record) :
    ListenerPlan → StateM Stage (Listener Stage Record)
  | .idle => return .idle
  | .audit readings => do
    let clock ← Stage.addClock readings
    return .audit access (Stage.readClock clock)
  | .trace name failOn set unset => return ⟨runTrace name failOn set unset⟩
  | .chain members => do
    let listeners ← makeAll access members
    Stage.record (.chain listeners.length)
    return .chain listeners

def makeAll (access : EntityAccess Stage Record) :
    List ListenerPlan → StateM Stage (List (Listener Stage Record))
  | [] => return []
  | first :: rest => do
    let listener ← make access first
    return listener :: (← makeAll access rest)

end

end ListenerPlan
end EntitySql
