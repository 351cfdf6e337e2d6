import ReasonGraph.Rule.Basic

/-! Achievement: an action that holds satisfies its goal. When the action is withdrawn, a
goal that owed its state to it falls back to unknown, unless another action achieves it
still. -/

namespace ReasonGraph.Rule
variable {α : Type} [Quantity α]

/-- Another edge into the target achieves it from a source that holds. Edges are told apart
by id. -/
def hasOtherAchiever (e : Evidence α) : Bool :=
  (e.edgesInto e.targetNode.id).any fun edge =>
    edge.id ≠ e.edge.id && edge.relation = Relation.achieves.name &&
      ((e.states.get? edge.source).any fun s => s.logic = .holds)

def achievement (e : Evidence α) : Option (Proposal α) :=
  let carried := e.carry (e.source.confidence * Strength.multiplier e.edge.strength)
  if e.target.logic = .conflict then none
  else if e.source.logic = .holds then
    if e.target.logic ≠ .holds ∨ e.target.confidence < carried then
      e.propose .holds (Quantity.greatest e.target.confidence carried)
        (e.sourceLabel ++ " achieves " ++ e.targetLabel)
    else none
  else if e.source.logic = .fails then
    if e.target.derivedFrom.contains e.sourceNode.id && !hasOtherAchiever e then
      some
        { logic := .unknown
          confidence := Quantity.greatest 0.0 (e.target.confidence - 30.0)
          derivedFrom := e.target.derivedFrom.filter (· ≠ e.sourceNode.id)
          partners := none
          spreads := true
          reason := e.sourceLabel ++ " does not hold, " ++ e.targetLabel ++
            " may not be achieved" }
    else none
  else none

end ReasonGraph.Rule
