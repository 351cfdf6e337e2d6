import ReasonGraph.Rule.Basic

/-! The graded relations: support and hindrance. They move the target's confidence by a
share of the source's, and stay silent when the move would be 5 or less. -/

namespace ReasonGraph.Rule
variable {α : Type} [Quantity α]

/-- A source that holds raises the target by three tenths of its weighted confidence, and
an unknown target then holds; one that fails lowers it by a tenth. -/
def support (e : Evidence α) : Option (Proposal α) :=
  let weighted := e.source.confidence * Strength.fraction e.edge.strength
  if e.target.logic = .conflict then none
  else if e.source.logic = .holds then
    let raised := Quantity.least 100.0 (e.target.confidence + e.carry (weighted * 0.3))
    if (5.0 : α) < raised - e.target.confidence then
      e.propose (if e.target.logic = .unknown then .holds else e.target.logic) raised
        (e.sourceLabel ++ " supports " ++ e.targetLabel ++ ", confidence raised")
    else none
  else if e.source.logic = .fails then
    let lowered := Quantity.greatest 0.0 (e.target.confidence - e.carry (weighted * 0.1))
    if (5.0 : α) < e.target.confidence - lowered then
      e.propose e.target.logic lowered
        (e.sourceLabel ++ " does not hold, " ++ e.targetLabel ++ " confidence lowered")
    else none
  else none

/-- A strong and confident hindrance refutes the target outright. A weaker one lowers it by
half its weighted confidence, and a target that falls below 20 fails. -/
def hindrance (e : Evidence α) : Option (Proposal α) :=
  let fraction := Strength.fraction e.edge.strength
  let weighted := e.source.confidence * fraction
  if e.source.logic ≠ .holds ∨ e.target.logic = .conflict then none
  else if (0.8 : α) < fraction ∧ (70.0 : α) < e.source.confidence then
    e.propose .fails (e.carry weighted)
      (e.sourceLabel ++ " strongly hinders " ++ e.targetLabel)
  else
    let lowered := Quantity.greatest 0.0 (e.target.confidence - e.carry (weighted * 0.5))
    if (5.0 : α) < e.target.confidence - lowered then
      e.propose (if lowered < 20.0 then .fails else e.target.logic) lowered
        (e.sourceLabel ++ " hinders " ++ e.targetLabel ++ ", confidence lowered")
    else none

end ReasonGraph.Rule
