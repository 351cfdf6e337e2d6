import ReasonGraph.Rule.Basic

/-! The strict relations: dependency, causation and mutual conflict. The verdict they propose
follows from verdicts and conflict partners, never from confidence or strength; numbers only
say how confident it is, and whether a verdict that stands is proposed again. -/

namespace ReasonGraph.Rule
variable {α : Type} [Quantity α]

/-- What depends on a conflict is in conflict, with the same partners; what depends on a
failure fails. -/
def dependency (e : Evidence α) : Option (Proposal α) :=
  if e.target.logic = .conflict then none
  else if e.source.logic = .conflict then
    let inherited := e.source.partners.getD []
    e.contest (if inherited.isEmpty then [e.sourceNode.id] else inherited) e.source.confidence
      (e.targetLabel ++ " depends on " ++ e.sourceLabel ++ ", which is in conflict")
  else if e.source.logic = .fails ∧ e.target.logic ≠ .fails then
    e.propose .fails (e.carry (e.source.confidence * 0.9))
      (e.targetLabel ++ " depends on " ++ e.sourceLabel ++ ", which is false")
  else none

/-- A cause that holds makes its effect hold; an effect already refuted contradicts it. -/
def effect (e : Evidence α) : Option (Proposal α) :=
  let carried := e.carry (e.source.confidence * Strength.multiplier e.edge.strength)
  if e.source.logic ≠ .holds then none
  else if e.target.logic = .fails then
    e.contest [e.sourceNode.id] (Quantity.least e.source.confidence e.target.confidence)
      ("Contradiction: " ++ e.sourceLabel ++ " is true but its effect " ++ e.targetLabel ++
        " is false")
  else if e.target.logic ≠ .holds ∨ e.target.confidence < carried then
    e.propose .holds (Quantity.greatest e.target.confidence carried)
      (e.sourceLabel ++ " causes " ++ e.targetLabel)
  else none

/-- Read backwards the source is the effect: where it fails, no cause of it holds. -/
def contrapositive (e : Evidence α) : Option (Proposal α) :=
  if e.source.logic ≠ .fails then none
  else if e.target.logic = .holds then
    e.contest [e.sourceNode.id] (Quantity.least e.target.confidence e.source.confidence)
      ("Contradiction: " ++ e.targetLabel ++ " is true but its effect " ++ e.sourceLabel ++
        " is false")
  else if e.target.logic ≠ .fails then
    e.propose .fails (e.carry (e.source.confidence * Strength.multiplier e.edge.strength))
      (e.sourceLabel ++ " is false, so its cause " ++ e.targetLabel ++ " is false")
  else none

def causation (e : Evidence α) : Option (Proposal α) :=
  if e.target.logic = .conflict then none
  else if e.reversed then contrapositive e
  else effect e

/-- Whether the source counts as true against the target: it holds, or it is in conflict
with the target. -/
def standsAgainst (e : Evidence α) : Bool :=
  e.source.logic = .holds ||
    (e.source.logic = .conflict && (e.source.partners.getD []).contains e.targetNode.id)

/-- Of two statements that exclude each other both cannot hold. -/
def mutualConflict (e : Evidence α) : Option (Proposal α) :=
  if e.target.logic = .conflict then none
  else if e.target.logic = .holds ∧ standsAgainst e then
    e.contest [e.sourceNode.id] (Quantity.least e.source.confidence e.target.confidence)
      ("Conflict: " ++ e.sourceLabel ++ " and " ++ e.targetLabel ++ " cannot both be true")
  else if e.source.logic = .holds ∧ e.target.logic ≠ .fails then
    e.propose .fails (e.carry (e.source.confidence * 0.95))
      (e.sourceLabel ++ " is true, so the conflicting " ++ e.targetLabel ++ " is false")
  else none

end ReasonGraph.Rule
