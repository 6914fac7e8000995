import EntitySql.Proofs.Outcome

/-!
Chains of listeners. A chain is a listener itself, so chains may stand in chains to any depth. At
every hook this comes to the same as one chain of all their listeners: they are called at that hook
from left to right, each on the entity that the one before it gave on, until one of them fails.
-/

namespace EntitySql

namespace Listener

variable {σ ε : Type} (hook : Hook) (m : Metamodel)

@[simp] theorem run_chain_nil : (chain [] : Listener σ ε).run hook m = pure := rfl

@[simp] theorem run_chain_cons (first : Listener σ ε) (rest : List (Listener σ ε)) (entity : ε) :
    (chain (first :: rest)).run hook m entity =
      first.run hook m entity >>= (chain rest).run hook m := by
  simp only [chain, List.foldlM_cons]

theorem run_chain_append (left right : List (Listener σ ε)) (entity : ε) :
    (chain (left ++ right)).run hook m entity =
      (chain left).run hook m entity >>= (chain right).run hook m := by
  simp only [chain, List.foldlM_append]

end Listener

structure HookCall (α ε : Type) where
  leaf : α
  hook : Hook
  entity : ε
  answer : Except String ε

/-- Listeners as they are registered: one by one, or in chains that are listeners in turn. -/
inductive Registered (α : Type)
  | single (leaf : α)
  | chain (members : List (Registered α))

namespace Registered

variable {α σ ε : Type}

section
variable (act : α → Listener σ ε)

mutual

def listener : Registered α → Listener σ ε
  | .single leaf => act leaf
  | .chain members => .chain (listeners members)

def listeners : List (Registered α) → List (Listener σ ε)
  | [] => []
  | first :: rest => first.listener :: listeners rest

end

/-- Acts as told, and keeps a record of all calls behind the surroundings. -/
def recorded (leaf : α) : Listener (σ × List (HookCall α ε)) ε where
  run hook m entity := fun (state, calls) =>
    let (answer, after) := (act leaf).run hook m entity state
    (answer, after, calls ++ [⟨leaf, hook, entity, answer⟩])

end

mutual

def leaves : Registered α → List α
  | .single leaf => [leaf]
  | .chain members => leavesAll members

def leavesAll : List (Registered α) → List α
  | [] => []
  | first :: rest => first.leaves ++ leavesAll rest

end

/-- The calls that come of a row of leaves: each leaf is called at the hook on the entity and in the
surroundings that the one before it left. The first that fails is the last that is called, and its
failure is the answer. -/
inductive InTurn (act : α → Listener σ ε) (hook : Hook) (m : Metamodel) :
    List α → ε → σ → List (HookCall α ε) → Except String ε → σ → Prop
  | none (entity : ε) (state : σ) : InTurn act hook m [] entity state [] (.ok entity) state
  | fail {leaf : α} {rest : List α} {entity : ε} {state after : σ} {text : String} :
      (act leaf).run hook m entity state = (.error text, after) →
      InTurn act hook m (leaf :: rest) entity state [⟨leaf, hook, entity, .error text⟩]
        (.error text) after
  | next {leaf : α} {rest : List α} {entity given : ε} {state between after : σ}
      {calls : List (HookCall α ε)} {answer : Except String ε} :
      (act leaf).run hook m entity state = (.ok given, between) →
      InTurn act hook m rest given between calls answer after →
      InTurn act hook m (leaf :: rest) entity state (⟨leaf, hook, entity, .ok given⟩ :: calls)
        answer after

variable {act : α → Listener σ ε} {hook : Hook} {m : Metamodel} {entity : ε} {state after : σ}
  {calls : List (HookCall α ε)} {answer : Except String ε}

/-! Chains in chains. -/

section
variable (act : α → Listener σ ε) (hook : Hook) (m : Metamodel)

mutual

theorem run_listener (registered : Registered α) (entity : ε) :
    (registered.listener act).run hook m entity =
      (Listener.chain (registered.leaves.map act)).run hook m entity := by
  match registered with
  | .single leaf => simp [listener, leaves]
  | .chain members => exact run_listeners members entity

theorem run_listeners (members : List (Registered α)) (entity : ε) :
    (Listener.chain (listeners act members)).run hook m entity =
      (Listener.chain ((leavesAll members).map act)).run hook m entity := by
  match members with
  | [] => rfl
  | first :: rest =>
    have hrest : (Listener.chain (listeners act rest)).run hook m =
        (Listener.chain ((leavesAll rest).map act)).run hook m :=
      funext fun given => run_listeners rest given
    rw [listeners, leavesAll, List.map_append, Listener.run_chain_cons, Listener.run_chain_append,
      run_listener first, hrest]

end

end

/-! One chain. -/

theorem exists_inTurn (act : α → Listener σ ε) (hook : Hook) (m : Metamodel) (row : List α)
    (entity : ε) (state : σ) : ∃ calls answer after,
      InTurn act hook m row entity state calls answer after := by
  induction row generalizing entity state with
  | nil => exact ⟨[], .ok entity, state, .none entity state⟩
  | cons leaf rest ih =>
    match hrun : (act leaf).run hook m entity state with
    | (.error text, after) => exact ⟨_, _, _, .fail hrun⟩
    | (.ok given, between) =>
      obtain ⟨calls, answer, after, hrest⟩ := ih given between
      exact ⟨_, _, _, .next hrun hrest⟩

theorem InTurn.run {row : List α} (h : InTurn act hook m row entity state calls answer after) :
    (Listener.chain (row.map act)).run hook m entity state = (answer, after) := by
  induction h with
  | none => rfl
  | fail hrun =>
    rw [List.map_cons, Listener.run_chain_cons, Attempt.bind_apply, hrun]
  | next hrun _ ih =>
    rw [List.map_cons, Listener.run_chain_cons, Attempt.bind_of_ok hrun, ih]

theorem InTurn.run_recorded {row : List α}
    (h : InTurn act hook m row entity state calls answer after) (earlier : List (HookCall α ε)) :
    (Listener.chain (row.map (recorded act))).run hook m entity (state, earlier) =
      (answer, after, earlier ++ calls) := by
  induction h generalizing earlier with
  | none => rw [List.append_nil]; rfl
  | @fail leaf rest entity state after text hrun =>
    have hrecorded : (recorded act leaf).run hook m entity (state, earlier) =
        (.error text, after, earlier ++ [⟨leaf, hook, entity, .error text⟩]) := by
      simp only [recorded, hrun]
    rw [List.map_cons, Listener.run_chain_cons, Attempt.bind_apply, hrecorded]
  | @next leaf rest entity given state between after calls answer hrun _ ih =>
    have hrecorded : (recorded act leaf).run hook m entity (state, earlier) =
        (.ok given, between, earlier ++ [⟨leaf, hook, entity, .ok given⟩]) := by
      simp only [recorded, hrun]
    rw [List.map_cons, Listener.run_chain_cons, Attempt.bind_of_ok hrecorded, ih,
      List.append_assoc, List.singleton_append]

theorem InTurn.exists_last {row : List α} {text : String}
    (h : InTurn act hook m row entity state calls (.error text) after) :
    ∃ front leaf rest earlier given between, row = front ++ leaf :: rest ∧
      InTurn act hook m front entity state earlier (.ok given) between ∧
      (act leaf).run hook m given between = (.error text, after) ∧
      calls = earlier ++ [⟨leaf, hook, given, .error text⟩] := by
  generalize hanswer : Except.error text = answer at h
  induction h with
  | none => cases hanswer
  | @fail leaf rest entity state after _ hrun =>
    cases hanswer
    exact ⟨[], leaf, rest, [], entity, state, rfl, .none entity state, hrun, rfl⟩
  | next hrun _ ih =>
    obtain ⟨front, leaf, rest, earlier, given, between, rfl, hfront, hlast, rfl⟩ := ih hanswer
    exact ⟨_ :: front, leaf, rest, _ :: earlier, given, between, rfl, .next hrun hfront, hlast, rfl⟩

/-- At every hook a chain calls the leaves in it one after the other, whatever they do and however
deep they stand, up to the first that fails. Its answer is that failure, or the entity that the last
leaf gave on; no other calls are on record. -/
theorem leaves_called_in_turn (registered : Registered α) (act : α → Listener σ ε) (hook : Hook)
    (m : Metamodel) (entity : ε) (state : σ) (earlier : List (HookCall α ε)) :
    ∃ calls answer after,
      InTurn act hook m registered.leaves entity state calls answer after ∧
      (registered.listener act).run hook m entity state = (answer, after) ∧
      (registered.listener (recorded act)).run hook m entity (state, earlier) =
        (answer, after, earlier ++ calls) := by
  obtain ⟨calls, answer, after, hturn⟩ := exists_inTurn act hook m registered.leaves entity state
  refine ⟨calls, answer, after, hturn, ?_, ?_⟩
  · rw [run_listener, hturn.run]
  · rw [run_listener, hturn.run_recorded]

/-- A failure in an inner chain ends the outer one. -/
example (m : Metamodel) :
    let act (n : Nat) : Listener (List Nat) Nat := ⟨fun _ _ entity calls =>
      (if n = 3 then .error "full" else .ok (entity + n), calls ++ [n])⟩
    ((chain [.single 1, .chain [.single 2, .single 3], .single 4]).listener act).run
      (.after .update) m 0 [] = (.error "full", [1, 2, 3]) :=
  rfl

end Registered
end EntitySql
