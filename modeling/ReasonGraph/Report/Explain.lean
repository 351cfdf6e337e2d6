import ReasonGraph.Engine.Run
import ReasonGraph.Decimal.Fixed

/-! Why a node ended as it did, in words: its state on one line, then a line for every event
that wrote it, oldest first. -/

namespace ReasonGraph

def NodeState.explain (s : NodeState Float) : String :=
  let drivers :=
    if s.isAsserted then "asserted" else "derived from " ++ ", ".intercalate s.derivedFrom
  let partners := s.partners.getD []
  s.logic.name ++ " (" ++ Decimal.fixed 1 s.confidence ++ "): " ++ drivers ++
    if partners.isEmpty then "" else "; conflicts with " ++ ", ".intercalate partners

def Event.explain {α : Type} (e : Event α) : String :=
  "  " ++ e.source ++ (if e.reversed then " <- " else " -> ") ++ e.target ++
    " [" ++ e.relation ++ "] " ++ e.oldLogic.name ++ " => " ++ e.newLogic.name ++ ": " ++
    e.reason

def Result.eventsFor {α : Type} (r : Result α) (id : String) : List (Event α) :=
  r.events.filter (·.target = id)

def Result.explainAs (r : Result Float) (shown id : String) : String :=
  match r.states.get? id with
  | none => shown ++ ": no state"
  | some s =>
    "\n".intercalate ((shown ++ ": " ++ s.explain) :: (r.eventsFor id).map Event.explain)

def Result.explain (r : Result Float) (id : String) : String := r.explainAs id id

end ReasonGraph
