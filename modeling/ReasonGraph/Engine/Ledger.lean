import ReasonGraph.State

/-! What inference leaves behind: the state table, the log of accepted changes, the conflicts
found and the cycles reported. A change is written to all of them at once, so the log can be
replayed over the table it started from. An event stands at its place in the log, without the time at
which it was written. -/

namespace ReasonGraph

structure Event (α : Type) where
  source : String
  target : String
  edge : String
  relation : String
  oldLogic : LogicState
  newLogic : LogicState
  oldConfidence : α
  newConfidence : α
  reason : String
  reversed : Bool

/-- The nodes of a conflict, the one that was put in conflict first. -/
structure ConflictRecord where
  nodes : List String
  reason : String
deriving DecidableEq

structure Ledger (α : Type) where
  states : Table α
  events : List (Event α)
  conflicts : List ConflictRecord
  cycles : List (List String)

/-- A change before it is written: the event, the target's new entry, the conflict it
records if any, and whether inference goes on from the target. -/
structure Change (α : Type) where
  event : Event α
  entry : NodeState α
  conflict : Option ConflictRecord
  spreads : Bool

namespace Ledger
variable {α : Type}

def empty : Ledger α := ⟨∅, [], [], []⟩

instance : EmptyCollection (Ledger α) := ⟨empty⟩

def write (l : Ledger α) (c : Change α) : Ledger α :=
  { l with
    states := l.states.insert c.event.target c.entry
    events := l.events ++ [c.event]
    conflicts := l.conflicts ++ c.conflict.toList }

@[simp] theorem write_events (l : Ledger α) (c : Change α) :
    (l.write c).events = l.events ++ [c.event] := rfl

@[simp] theorem write_conflicts (l : Ledger α) (c : Change α) :
    (l.write c).conflicts = l.conflicts ++ c.conflict.toList := rfl

@[simp] theorem write_cycles (l : Ledger α) (c : Change α) : (l.write c).cycles = l.cycles := rfl

theorem write_get? (l : Ledger α) (c : Change α) (id : String) :
    (l.write c).states.get? id =
      if c.event.target = id then some c.entry else l.states.get? id :=
  OrderedMap.get?_insert l.states c.event.target id c.entry

end Ledger

structure Reading (α : Type) where
  logic : LogicState
  confidence : α
deriving DecidableEq

def NodeState.reading {α : Type} (s : NodeState α) : Reading α := ⟨s.logic, s.confidence⟩

def replay {α : Type} (before : String → Option (Reading α)) :
    List (Event α) → String → Option (Reading α)
  | [], id => before id
  | e :: rest, id =>
    replay (fun k => if e.target = k then some ⟨e.newLogic, e.newConfidence⟩ else before k) rest id

theorem replay_append {α : Type} (before : String → Option (Reading α))
    (xs ys : List (Event α)) :
    replay before (xs ++ ys) = replay (replay before xs) ys := by
  induction xs generalizing before with
  | nil => funext id; rfl
  | cons e rest ih => funext id; simp only [List.cons_append, replay, ih]

end ReasonGraph
